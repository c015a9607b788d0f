import ApiProto.Proofs.Resolution

/-!
# Declared types

A message or an enum is declared when it becomes a child of the package or of a message. The registry
lists all declared types with their containers.

* `Compilation.Registered` — the registry lists what is declared, and under plain names.
* `Registered.withNode`, `Registered.declare`, … — the steps of a compilation keep to that.
-/

namespace ApiProto.Proto

/-! ## Names -/

section Names

variable {g g' : Graph} {id : Nat} {n : Node}

theorem Node.ownName?_of_isDeclared (h : n.isDeclared = true) :
    ∃ name, n.ownName? = some name := by
  cases n with
  | message m => exact ⟨_, rfl⟩
  | enumeration e => exact ⟨_, rfl⟩
  | _ => cases h

theorem Graph.isDeclared_iff : g.isDeclared (.node id) = true ↔
    ∃ n, g.node? id = some n ∧ n.isDeclared = true := by
  rcases hn : g.node? id with _ | n
  · simp [isDeclared, hn]
  · simp [isDeclared_of_node? hn]

/-- A message or an enum stays one. -/
theorem Graph.Grows.isDeclared (h : g.Grows g') {t : TypeRef} (ht : g.isDeclared t = true) :
    g'.isDeclared t = true := by
  cases t with
  | builtin => exact ht
  | node id =>
    obtain ⟨n, hn, -⟩ := isDeclared_iff.1 ht
    exact (h.isDeclared_node hn).trans ht

theorem Graph.not_isReference_of_isDeclared {t : TypeRef} (h : g.isDeclared t = true) :
    ¬ g.IsReference t := by
  rintro ⟨k, ref, rfl, hn⟩
  obtain ⟨n, hn', hdeclared⟩ := isDeclared_iff.1 h
  obtain rfl := Option.some.inj (hn.symm.trans hn')
  cases hdeclared

/-- A node that has a name keeps it. -/
theorem Graph.KeepsNames.typeName_eq (h : g.KeepsNames g') (hn : g.node? id = some n)
    {name : String} (hname : n.ownName? = some name) :
    g'.typeName (.node id) = g.typeName (.node id) := by
  obtain ⟨n', hn', hown⟩ := h id n hn
  exact (typeName_of_ownName? hn' (hown.trans hname)).trans (typeName_of_ownName? hn hname).symm

theorem Graph.KeepsNames.typeName_eq_of_isDeclared (h : g.KeepsNames g')
    (hid : g.isDeclared (.node id) = true) : g'.typeName (.node id) = g.typeName (.node id) := by
  obtain ⟨n, hn, hdeclared⟩ := isDeclared_iff.1 hid
  obtain ⟨name, hname⟩ := Node.ownName?_of_isDeclared hdeclared
  exact h.typeName_eq hn hname

/-- A node that has a name. -/
def Graph.Named (g : Graph) (id : Nat) : Prop :=
  ∃ n name, g.node? id = some n ∧ n.ownName? = some name

end Names

/-! ## Declarations -/

/-- The declarations inside a node. -/
def Node.declarations : Node → List TypeRef
  | .package p => p.children
  | .message m => m.children
  | _ => []

theorem Graph.mem_children_iff {g : Graph} {container : Nat} {t : TypeRef} :
    t ∈ g.children container ↔ ∃ n, g.node? container = some n ∧ t ∈ n.declarations := by
  rcases hn : g.node? container with _ | n
  · simp [Graph.children, hn]
  · cases n <;> simp [Graph.children, hn, Node.declarations]

theorem Graph.Grows.children_subset {g g' : Graph} (h : g.Grows g') (container : Nat) :
    g.children container ⊆ g'.children container := by
  intro t ht
  obtain ⟨n, hn, hmem⟩ := Graph.mem_children_iff.1 ht
  obtain ⟨n', hn', hgrow⟩ := h container n hn
  refine Graph.mem_children_iff.2 ⟨n', hn', ?_⟩
  cases hgrow with
  | same => exact hmem
  | message _ _ _ hchildren => exact hchildren.subset hmem
  | package _ _ _ hchildren => exact hchildren.subset hmem
  | service => exact hmem

/-- A package or a message. -/
def Graph.IsContainer (g : Graph) (id : Nat) : Prop :=
  (∃ p, g.node? id = some (.package p)) ∨ ∃ m, g.node? id = some (.message m)

theorem Graph.node?_of_addChild {g : Graph} {parent id : Nat} {t : TypeRef} {n' : Node}
    (h : (g.addChild parent t).node? id = some n') : ∃ n, g.node? id = some n := by
  rw [node?_addChild] at h
  split at h
  · obtain ⟨n, hn, -⟩ := Option.map_eq_some_iff.1 h
    exact ⟨n, hn⟩
  · exact ⟨n', h⟩

theorem Graph.mem_children_addChild {g : Graph} {parent container : Nat} {t s : TypeRef}
    (h : s ∈ (g.addChild parent t).children container) :
    s ∈ g.children container ∨ container = parent ∧ s = t := by
  obtain ⟨n', hn', hmem⟩ := mem_children_iff.1 h
  rw [node?_addChild] at hn'
  split at hn'
  · next hcontainer =>
    obtain ⟨n, hn, rfl⟩ := Option.map_eq_some_iff.1 hn'
    have hsplit : s ∈ n.declarations ∨ s = t := by
      cases n <;> simp_all [Node.withChild, Node.declarations]
    exact hsplit.imp (fun hold => mem_children_iff.2 ⟨n, hn, hold⟩) fun heq => ⟨hcontainer, heq⟩
  · exact .inl (mem_children_iff.2 ⟨n', hn', hmem⟩)

theorem Graph.mem_children_addChild_iff {g : Graph} {parent container : Nat} {t s : TypeRef}
    (hparent : g.IsContainer parent) : s ∈ (g.addChild parent t).children container ↔
      s ∈ g.children container ∨ container = parent ∧ s = t := by
  refine ⟨mem_children_addChild, ?_⟩
  rintro (hold | ⟨rfl, rfl⟩)
  · exact (Graph.Grows.addChild g parent t).children_subset container hold
  · refine mem_children_iff.2 ?_
    rw [node?_addChild, if_pos rfl]
    rcases hparent with ⟨p, hp⟩ | ⟨m, hm⟩
    · exact ⟨_, by rw [hp, Option.map_some], by simp [Node.withChild, Node.declarations]⟩
    · exact ⟨_, by rw [hm, Option.map_some], by simp [Node.withChild, Node.declarations]⟩

/-! ## Declarations and resolution -/

section Resolved

variable {g g' : Graph} {given : TypeRef → Prop} {n n' : Node}

theorem Node.Resolved.declarations_eq (h : n.Resolved g given n') :
    n'.declarations = n.declarations := by
  cases h with
  | same => rfl
  | message _ hchildren => exact hchildren
  | map => rfl

theorem Node.Resolved.isDeclared_eq (h : n.Resolved g given n') : n'.isDeclared = n.isDeclared := by
  cases h <;> rfl

variable (h : g.Resolved given g')
include h

theorem Graph.Resolved.has_iff {t : TypeRef} : g'.Has t ↔ g.Has t := by
  cases t with
  | builtin => exact Iff.rfl
  | node id =>
    show id < g'.size ↔ id < g.size
    rw [h.size]

/-- Resolution leaves declarations where they are. -/
theorem Graph.Resolved.mem_children_iff {container : Nat} {t : TypeRef} :
    t ∈ g'.children container ↔ t ∈ g.children container := by
  simp only [Graph.mem_children_iff]
  constructor
  · rintro ⟨n', hn', hmem⟩
    obtain ⟨n, hn, hres⟩ := h.of_node? hn'
    exact ⟨n, hn, hres.declarations_eq ▸ hmem⟩
  · rintro ⟨n, hn, hmem⟩
    obtain ⟨n', hn', hres⟩ := h.nodes container n hn
    exact ⟨n', hn', hres.declarations_eq ▸ hmem⟩

theorem Graph.Resolved.isDeclared_iff {t : TypeRef} :
    g'.isDeclared t = true ↔ g.isDeclared t = true := by
  cases t with
  | builtin => exact Iff.rfl
  | node id =>
    rw [Graph.isDeclared_iff, Graph.isDeclared_iff]
    constructor
    · rintro ⟨n', hn', hdeclared⟩
      obtain ⟨n, hn, hres⟩ := h.of_node? hn'
      exact ⟨n, hn, hres.isDeclared_eq ▸ hdeclared⟩
    · rintro ⟨n, hn, hdeclared⟩
      obtain ⟨n', hn', hres⟩ := h.nodes id n hn
      exact ⟨n', hn', hres.isDeclared_eq ▸ hdeclared⟩

end Resolved

end ApiProto.Proto

namespace ApiProto.Compile

open Proto Document CompileM

variable {c c' : Compilation} {opened : List Nat}

/-- The types that are declared, and their containers. Inside messages there is nothing else. -/
structure Compilation.Registered (c : Compilation) : Prop where
  inside : ∀ container, ∀ t ∈ c.graph.children container, c.graph.Has t
  declared : ∀ entry ∈ c.registry.log, c.graph.isDeclared (.node entry.2) = true
  plain : ∀ id, c.graph.isDeclared (.node id) = true → Name.IsPlain (c.graph.typeName (.node id))
  children : ∀ container id, c.graph.isDeclared (.node id) = true →
    (.node id ∈ c.graph.children container ↔ (container, id) ∈ c.registry.log)
  inner : ∀ container, ∀ t ∈ c.graph.children container,
    container = c.package ∨ c.graph.isDeclared t = true

/-- If nothing is declared, the declared types stay what they are. -/
theorem Compilation.Registered.of_grows (hr : c.Registered) (hgrows : c.Grows opened c')
    (hlog : c'.registry.log = c.registry.log)
    (hplain : ∀ id n name, c.graph.size ≤ id → c'.graph.node? id = some n → n.isDeclared = true →
      n.ownName? = some name → Name.IsPlain name)
    (hchildren : ∀ container, ∀ t ∈ c'.graph.children container,
      t ∈ c.graph.children container ∨
        container = c.package ∧ c'.graph.Has t ∧ c'.graph.isDeclared t = false) :
    c'.Registered where
  inside container t ht :=
    (hchildren container t ht).elim (fun hold => (hr.inside container t hold).mono hgrows.size_le)
      fun hnew => hnew.2.1
  declared entry hentry := by
    rw [hlog] at hentry
    exact hgrows.nodes.isDeclared (hr.declared entry hentry)
  plain id hid := by
    obtain ⟨n', hn', hdeclared⟩ := Graph.isDeclared_iff.1 hid
    obtain ⟨name, hname⟩ := Node.ownName?_of_isDeclared hdeclared
    rcases Nat.lt_or_ge id c.graph.size with hlt | hge
    · obtain ⟨n, hn⟩ := Graph.node?_isSome hlt
      rw [hgrows.nodes.isDeclared_node hn] at hid
      rw [hgrows.nodes.keepsNames.typeName_eq_of_isDeclared hid]
      exact hr.plain id hid
    · rw [Graph.typeName_of_ownName? hn' hname]
      exact hplain id n' name hge hn' hdeclared hname
  children container id hid := by
    rw [hlog]
    constructor
    · intro hmem
      rcases hchildren container _ hmem with hold | ⟨-, -, hnot⟩
      · obtain ⟨n, hn⟩ := Graph.node?_isSome (hr.inside container _ hold)
        rw [hgrows.nodes.isDeclared_node hn] at hid
        exact (hr.children container id hid).1 hold
      · rw [hid] at hnot
        cases hnot
    · intro hentry
      exact hgrows.nodes.children_subset container
        ((hr.children container id (hr.declared _ hentry)).2 hentry)
  inner container t ht := by
    rw [hgrows.package]
    rcases hchildren container t ht with hold | ⟨heq, -⟩
    · exact (hr.inner container t hold).imp_right fun hdeclared => hgrows.nodes.isDeclared hdeclared
    · exact .inl heq

theorem Compilation.Registered.withNode (hr : c.Registered) {n : Node}
    (hplain : ∀ name, n.isDeclared = true → n.ownName? = some name → Name.IsPlain name)
    (hn : n.declarations = []) : (c.withNode n).Registered := by
  have hgrows : c.Grows [] (c.withNode n) := .withNode c n
  refine hr.of_grows hgrows rfl (fun id n' name hge hn' hdeclared hname => ?_)
    fun container t ht => .inl ?_
  · have hadd : (c.graph.add n).1.node? id = some n' := hn'
    rw [Graph.node?_add] at hadd
    split at hadd
    · obtain rfl := Option.some.inj hadd
      exact hplain name hdeclared hname
    · exact absurd (Graph.lt_size_of_node? hadd) (Nat.not_lt.2 hge)
  · obtain ⟨n', hn', hmem⟩ := Graph.mem_children_iff.1 ht
    have hadd : (c.graph.add n).1.node? container = some n' := hn'
    rw [Graph.node?_add] at hadd
    split at hadd
    · obtain rfl := Option.some.inj hadd
      rw [hn] at hmem
      cases hmem
    · exact Graph.mem_children_iff.2 ⟨n', hadd, hmem⟩

/-- A change of one node that does not touch declarations leaves the declared types as they are. -/
theorem Compilation.Registered.of_map (hr : c.Registered) (hgrows : c.Grows opened c')
    (hlog : c'.registry.log = c.registry.log) {k : Nat} {change : Node → Node}
    (hnode : ∀ id, c'.graph.node? id =
      if id = k then (c.graph.node? id).map change else c.graph.node? id)
    (hchange : ∀ n, c.graph.node? k = some n → (change n).declarations = n.declarations) :
    c'.Registered := by
  have hold : ∀ id n', c'.graph.node? id = some n' →
      ∃ n, c.graph.node? id = some n ∧ n'.declarations = n.declarations := by
    intro id n' hn'
    rw [hnode id] at hn'
    split at hn'
    · next hid =>
      obtain ⟨n, hn, rfl⟩ := Option.map_eq_some_iff.1 hn'
      exact ⟨n, hn, hchange n (hid ▸ hn)⟩
    · exact ⟨n', hn', rfl⟩
  refine hr.of_grows hgrows hlog (fun id n' _ hge hn' _ _ => ?_) fun container t ht => .inl ?_
  · obtain ⟨n, hn, -⟩ := hold id n' hn'
    exact absurd (Graph.lt_size_of_node? hn) (Nat.not_lt.2 hge)
  · obtain ⟨n', hn', hmem⟩ := Graph.mem_children_iff.1 ht
    obtain ⟨n, hn, hsame⟩ := hold container n' hn'
    exact Graph.mem_children_iff.2 ⟨n, hn, hsame ▸ hmem⟩

theorem Compilation.Registered.importFile (hr : c.Registered) (file : String) :
    (c.importFile file).Registered := by
  have hgrows : c.Grows [c.package] (c.importFile file) := .importFile (by simp) file
  refine hr.of_map hgrows rfl (fun id => Graph.node?_addImport c.package file) fun n _ => ?_
  cases n with
  | package p =>
    rw [Node.withImport]
    split <;> rfl
  | _ => rfl

/-- A state in which a node that is there has been replaced, but not its declarations. -/
theorem Compilation.Registered.put (hr : c.Registered) {id : Nat} {n n' : Node}
    (hn : c.graph.node? id = some n) (hgrow : n.Grows n')
    (hsame : n'.declarations = n.declarations) :
    Compilation.Registered { c with graph := c.graph.put id n' } := by
  have hnode : ∀ k, (c.graph.put id n').node? k =
      if k = id then (c.graph.node? k).map fun _ => n' else c.graph.node? k := by
    intro k
    split
    · next hk => rw [hk, hn, Graph.node?_put_self hn, Option.map_some]
    · next hk => exact Graph.node?_put_of_ne hk n'
  have hgrows : c.Grows [id] { c with graph := c.graph.put id n' } := .put (by simp) hn hgrow
  refine hr.of_map hgrows rfl hnode fun m hm => ?_
  obtain rfl := Option.some.inj (hn.symm.trans hm)
  exact hsame

/-- What is no message and no enum becomes a child of the package without being declared. -/
theorem Compilation.Registered.addChild (hr : c.Registered) {t : TypeRef} (ht : c.graph.Has t)
    (hnot : c.graph.isDeclared t = false) :
    Compilation.Registered { c with graph := c.graph.addChild c.package t } := by
  have hgrows : c.Grows [c.package] { c with graph := c.graph.addChild c.package t } :=
    .addChild (by simp) t
  refine hr.of_grows hgrows rfl (fun id n' _ hge hn' _ _ => ?_) fun container s hs => ?_
  · obtain ⟨n, hn⟩ := Graph.node?_of_addChild hn'
    exact absurd (Graph.lt_size_of_node? hn) (Nat.not_lt.2 hge)
  · rcases Graph.mem_children_addChild hs with hold | ⟨hcontainer, rfl⟩
    · exact .inl hold
    · refine .inr ⟨hcontainer, ht.mono hgrows.size_le, ?_⟩
      cases s with
      | builtin => rfl
      | node id =>
        obtain ⟨n, hn⟩ := Graph.node?_isSome ht
        rw [hgrows.nodes.isDeclared_node hn, hnot]

/-- A type that is declared in a container is registered there. -/
theorem Compilation.Registered.declare (hr : c.Registered) (scope : Scope) {parent : Nat}
    (hparent : c.graph.IsContainer parent) (t : TypeRef) : (c.declare scope parent t).Registered := by
  have hgrows : c.Grows [parent] (c.declare scope parent t) := .declare (by simp) t
  unfold Compilation.declare at hgrows ⊢
  rcases Registry.register_cases c.graph c.registry t parent scope with
    ⟨heq, -⟩ | ⟨id, rfl, hdeclared, -, -, ⟨-, heq⟩ | ⟨-, heq⟩⟩ <;> rw [heq] at hgrows ⊢
  · exact hr
  · exact ⟨hr.inside, hr.declared, hr.plain, hr.children, hr.inner⟩
  · have hold : ∀ {k}, (c.graph.addChild parent (.node id)).isDeclared (.node k) = true →
        c.graph.isDeclared (.node k) = true := by
      intro k hk
      obtain ⟨n', hn', -⟩ := Graph.isDeclared_iff.1 hk
      obtain ⟨n, hn⟩ := Graph.node?_of_addChild hn'
      rwa [← hgrows.nodes.isDeclared_node hn]
    obtain ⟨n, hn, -⟩ := Graph.isDeclared_iff.1 hdeclared
    refine ⟨fun container s hs => ?_, fun entry hentry => ?_, fun k hk => ?_,
      fun container k hk => ?_, fun container s hs => ?_⟩
    · rcases Graph.mem_children_addChild hs with hmem | ⟨-, rfl⟩
      · exact (hr.inside container s hmem).mono hgrows.size_le
      · exact Nat.lt_of_lt_of_le (Graph.lt_size_of_node? hn) hgrows.size_le
    · rcases List.mem_append.1 hentry with hmem | hnew
      · exact hgrows.nodes.isDeclared (hr.declared entry hmem)
      · obtain rfl := List.mem_singleton.1 hnew
        exact hgrows.nodes.isDeclared hdeclared
    · show Name.IsPlain ((c.graph.addChild parent (.node id)).typeName (.node k))
      rw [hgrows.nodes.keepsNames.typeName_eq_of_isDeclared (hold hk)]
      exact hr.plain k (hold hk)
    · show _ ↔ (container, k) ∈ c.registry.log ++ [(parent, id)]
      rw [Graph.mem_children_addChild_iff hparent, hr.children container k (hold hk)]
      simp
    · rcases Graph.mem_children_addChild hs with hmem | ⟨-, rfl⟩
      · exact (hr.inner container s hmem).imp_right fun hs => hgrows.nodes.isDeclared hs
      · exact .inr (hgrows.nodes.isDeclared hdeclared)

/-- Resolution keeps the declared types. -/
theorem Compilation.Registered.resolved (hr : c.Registered) (h : c.Resolved c') : c'.Registered where
  inside container t ht := h.graph.has_iff.2 (hr.inside container t (h.graph.mem_children_iff.1 ht))
  declared entry hentry :=
    h.graph.isDeclared_iff.2 (hr.declared entry (by rwa [← h.registry]))
  plain id hid := by
    have hdeclared := h.graph.isDeclared_iff.1 hid
    rw [h.graph.keepsNames.typeName_eq_of_isDeclared hdeclared]
    exact hr.plain id hdeclared
  children container id hid := by
    rw [h.graph.mem_children_iff, hr.children container id (h.graph.isDeclared_iff.1 hid), h.registry]
  inner container t ht := by
    have hpackage : c'.package = c.package := congrArg Registry.package h.registry
    rw [hpackage]
    exact (hr.inner container t (h.graph.mem_children_iff.1 ht)).imp_right h.graph.isDeclared_iff.2

end ApiProto.Compile
