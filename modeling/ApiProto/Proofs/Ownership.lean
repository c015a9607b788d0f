import ApiProto.Proofs.Awaiting
import ApiProto.Proofs.PassedStates
import ApiProto.Proofs.SiblingNames

/-!
# Ownership

While messages are compiled they stand open, one inside the other, and what becomes a child of one
is never one of those that are open. So the children of a message have been finished before it, and
no message comes to contain itself. A container lists each of its children once, and what the
package lists no message lists.

* `Compilation.Owned` — who has whom for a child while something is compiled in a scope.
* `Owned.quiet`, `Owned.declare` — what leaves children alone, and what adds one.
* `ownership` — the discipline of children.
-/

namespace ApiProto.Proto

/-! ## Kinds of children -/

/-- Whether a node can stand in a file. -/
def Node.isListed : Node → Bool
  | .message _ | .enumeration _ | .extension _ | .service _ => true
  | _ => false

/-- A declaration, an extension or a service. -/
def Graph.IsListed (g : Graph) (t : TypeRef) : Prop :=
  ∃ id n, t = .node id ∧ g.node? id = some n ∧ n.isListed = true

variable {g g' : Graph} {id : Nat} {t : TypeRef}

theorem Graph.isListed_of_isDeclared (h : g.isDeclared t = true) : g.IsListed t := by
  cases t with
  | builtin => cases h
  | node id =>
    obtain ⟨n, hn, hdeclared⟩ := isDeclared_iff.1 h
    refine ⟨id, n, rfl, hn, ?_⟩
    cases n with
    | message => rfl
    | enumeration => rfl
    | _ => cases hdeclared

theorem Graph.Grows.isListed (h : g.Grows g') (ht : g.IsListed t) : g'.IsListed t := by
  obtain ⟨id, n, rfl, hn, hlisted⟩ := ht
  obtain ⟨n', hn', hgrow⟩ := h id n hn
  refine ⟨id, n', rfl, hn', ?_⟩
  cases hgrow <;> exact hlisted

theorem Graph.Resolved.isListed {given : TypeRef → Prop} (h : g.Resolved given g')
    (ht : g.IsListed t) : g'.IsListed t := by
  obtain ⟨id, n, rfl, hn, hlisted⟩ := ht
  obtain ⟨n', hn', hres⟩ := h.nodes id n hn
  refine ⟨id, n', rfl, hn', ?_⟩
  cases hres <;> exact hlisted

theorem Graph.Grows.isContainer (h : g.Grows g') (hid : g.IsContainer id) : g'.IsContainer id := by
  rcases hid with ⟨p, hp⟩ | ⟨m, hm⟩
  · obtain ⟨n', hn', hgrow⟩ := h id _ hp
    cases hgrow <;> exact .inl ⟨_, hn'⟩
  · obtain ⟨n', hn', hgrow⟩ := h id _ hm
    cases hgrow <;> exact .inr ⟨_, hn'⟩

theorem Graph.Resolved.isContainer {given : TypeRef → Prop} (h : g.Resolved given g')
    (hid : g.IsContainer id) : g'.IsContainer id := by
  rcases hid with ⟨p, hp⟩ | ⟨m, hm⟩
  · obtain ⟨n', hn', hres⟩ := h.nodes id _ hp
    cases hres
    exact .inl ⟨_, hn'⟩
  · obtain ⟨n', hn', hres⟩ := h.nodes id _ hm
    cases hres <;> exact .inr ⟨_, hn'⟩

theorem Graph.lt_size_of_isContainer (h : g.IsContainer id) : id < g.size := by
  rcases h with ⟨p, hn⟩ | ⟨m, hn⟩ <;> exact lt_size_of_node? hn

/-! ## Lists of children -/

theorem Graph.children_of_node? {n : Node} (hn : g.node? id = some n) :
    g.children id = n.declarations := by
  unfold children
  rw [hn]
  cases n <;> rfl

theorem Graph.children_of_none (hn : g.node? id = none) : g.children id = [] := by
  unfold children
  rw [hn]

/-- A new node without declarations leaves all children where they are. -/
theorem Graph.children_add {n : Node} (hn : n.declarations = []) (id : Nat) :
    (g.add n).1.children id = g.children id := by
  rcases Decidable.em (id = g.size) with rfl | hne
  · have hnone : g.node? g.size = none := Array.getElem?_eq_none (Nat.le_refl _)
    rw [children_of_node? (node?_add_self n), hn, children_of_none hnone]
  · unfold children
    rw [node?_add, if_neg hne]

/-- A change of one node that leaves its declarations alone leaves all children where they are. -/
theorem Graph.children_of_map {k : Nat} {change : Node → Node}
    (hnode : ∀ id, g'.node? id = if id = k then (g.node? id).map change else g.node? id)
    (hchange : ∀ n, g.node? k = some n → (change n).declarations = n.declarations) (id : Nat) :
    g'.children id = g.children id := by
  rcases hn : g.node? id with _ | n
  · have hnone : g'.node? id = none := by rw [hnode, hn]; split <;> rfl
    rw [children_of_none hnone, children_of_none hn]
  · rcases Decidable.em (id = k) with rfl | hne
    · have hsome : g'.node? id = some (change n) := by rw [hnode, if_pos rfl, hn, Option.map_some]
      rw [children_of_node? hsome, children_of_node? hn, hchange n hn]
    · have hsome : g'.node? id = some n := by rw [hnode, if_neg hne, hn]
      rw [children_of_node? hsome, children_of_node? hn]

theorem Graph.children_put {n n' : Node} {k : Nat} (hn : g.node? k = some n)
    (hsame : n'.declarations = n.declarations) (id : Nat) :
    (g.put k n').children id = g.children id := by
  rcases Decidable.em (id = k) with rfl | hne
  · rw [children_of_node? (node?_put_self hn n'), children_of_node? hn, hsame]
  · unfold children
    rw [node?_put_of_ne hne]

theorem Graph.children_addImport (package : Nat) (file : String) (id : Nat) :
    (g.addImport package file).children id = g.children id := by
  refine children_of_map (fun id => node?_addImport package file) (fun n _ => ?_) id
  cases n with
  | package p =>
    rw [Node.withImport]
    split <;> rfl
  | _ => rfl

/-- A new child comes last. -/
theorem Graph.children_addChild {parent : Nat} (hparent : g.IsContainer parent) (t : TypeRef)
    (id : Nat) : (g.addChild parent t).children id =
      if id = parent then g.children id ++ [t] else g.children id := by
  rcases Decidable.em (id = parent) with rfl | hne
  · rw [if_pos rfl]
    have hsome : ∀ {n}, g.node? id = some n →
        (g.addChild id t).node? id = some (n.withChild t) := fun hn => by
      rw [node?_addChild, if_pos rfl, hn, Option.map_some]
    rcases hparent with ⟨p, hn⟩ | ⟨m, hn⟩
    · rw [children_of_node? (hsome hn), children_of_node? hn]
      rfl
    · rw [children_of_node? (hsome hn), children_of_node? hn]
      rfl
  · unfold children
    rw [if_neg hne, node?_addChild, if_neg hne]

theorem Graph.Resolved.children_eq {given : TypeRef → Prop} (h : g.Resolved given g') (id : Nat) :
    g'.children id = g.children id := by
  rcases hn : g.node? id with _ | n
  · have hnone : g'.node? id = none := by
      rcases hn' : g'.node? id with _ | n'
      · rfl
      · obtain ⟨n, hsome, -⟩ := h.of_node? hn'
        cases hn.symm.trans hsome
    rw [children_of_none hnone, children_of_none hn]
  · obtain ⟨n', hn', hres⟩ := h.nodes id n hn
    rw [children_of_node? hn', children_of_node? hn, hres.declarations_eq]

end ApiProto.Proto

namespace ApiProto.Compile

open Proto Document CompileM

variable {scope : Scope} {opened : List Nat} {c c' : Compilation} {id : Nat} {t : TypeRef}

/-! ## Owned states -/

/-- A node that has been offered to the package, or need not be: it is declared there, or its name
has been taken there. -/
def Compilation.Offered (c : Compilation) (id : Nat) : Prop :=
  c.graph.isDeclared (.node id) = true → (c.package, id) ∈ c.registry.log ∨
    Registry.key c.graph [c.package] (c.graph.typeName (.node id)) ∈ c.registry.keys

/-- Who has whom for a child while something is compiled in a scope. -/
structure Compilation.Owned (scope : Scope) (c : Compilation) : Prop where
  closed : c.Closed
  registered : c.Registered
  around : ∃ inner, scope = inner ++ [c.package]
  nodup : scope.Nodup
  containers : ∀ k ∈ scope, c.graph.IsContainer k
  /-- What stands open is no child yet, and no reference stands for it. -/
  unlisted : ∀ k ∈ scope, ∀ entry ∈ c.registry.log, entry.2 ≠ k
  unnamed : ∀ k ∈ scope, ∀ entry ∈ c.definitions, entry.2.unwrap ≠ .node k
  /-- A container becomes a child after it has got its own children. -/
  ordered : c.registry.log.Pairwise fun e e' => e.2 ≠ e'.1
  irreflexive : ∀ entry ∈ c.registry.log, entry.1 ≠ entry.2
  once : ∀ k, (c.graph.children k).Nodup
  exclusive : ∀ k id, (c.package, id) ∈ c.registry.log → (k, id) ∈ c.registry.log → k = c.package
  offered : ∀ entry ∈ c.definitions, ∀ id, entry.2.unwrap = .node id → c.Offered id
  listed : ∀ t ∈ c.graph.children c.package, c.graph.IsListed t

/-- A type that may come out of a schema: it does not stand open, and in the package it has been
offered. -/
def Compilation.Yielded (scope : Scope) (c : Compilation) (t : TypeRef) : Prop :=
  c.graph.Has t ∧ ∀ id, t = .node id → id ∉ scope ∧ (scope = [c.package] → c.Offered id)

/-- A node that is nobody's child yet. -/
structure Compilation.Unowned (scope : Scope) (c : Compilation) (id : Nat) : Prop where
  has : id < c.graph.size
  outside : id ∉ scope
  unlisted : ∀ entry ∈ c.registry.log, entry.2 ≠ id
  unnamed : ∀ entry ∈ c.definitions, entry.2.unwrap ≠ .node id

/-- A node that has been offered stays so. -/
theorem Compilation.Offered.mono (hnames : c.KeepsNames c') (hclosed : c.Closed)
    (hlog : c.registry.log ⊆ c'.registry.log)
    (hdeclared : c'.graph.isDeclared (.node id) = c.graph.isDeclared (.node id))
    (h : c.Offered id) : c'.Offered id := by
  intro hid
  rw [hdeclared] at hid
  obtain ⟨p, hp⟩ := hclosed.package
  have hkey : ∀ name, Registry.key c'.graph [c.package] name =
      Registry.key c.graph [c.package] name := fun name => Registry.key_congr fun x hx => by
    obtain rfl := List.mem_singleton.1 hx
    exact hnames.names.typeName_eq hp rfl
  rw [hnames.package, hnames.names.typeName_eq_of_isDeclared hid, hkey]
  exact (h hid).imp (fun hmem => hlog hmem) fun hmem => hnames.keys hmem

/-- What the package lists is not declared again. -/
theorem declare_of_listed {parent : Nat} (h : (c.package, id) ∈ c.registry.log) :
    c.declare scope parent (.node id) = c := by
  have hlisted : (c.registry.declaredIn c.registry.package).contains id = true :=
    List.contains_iff_mem.2 (mem_declaredIn.2 h)
  have hregister : c.registry.register c.graph (.node id) parent scope =
      (false, c.graph, c.registry) := by
    unfold Registry.register
    dsimp only
    rw [hlisted, Bool.or_true, Bool.true_or, if_pos rfl]
  unfold Compilation.declare
  rw [hregister]

namespace Compilation.Owned

variable (h : c.Owned scope)
include h

theorem package_mem : c.package ∈ scope := by
  obtain ⟨inner, hscope⟩ := h.around
  simp [hscope]

theorem scope_eq_of_head {rest : Scope} (hscope : scope = c.package :: rest) : rest = [] := by
  obtain ⟨inner, heq⟩ := h.around
  have hnodup := h.nodup
  cases inner with
  | nil => exact (List.cons.inj (hscope.symm.trans heq)).2
  | cons first inner =>
    obtain ⟨rfl, -⟩ := List.cons.inj (hscope.symm.trans heq)
    rw [heq] at hnodup
    exact absurd (List.mem_append_right inner (List.mem_singleton.2 rfl))
      (List.nodup_cons.1 hnodup).1

theorem size_not_mem : c.graph.size ∉ scope := fun hmem =>
  Nat.lt_irrefl _ (Graph.lt_size_of_isContainer (h.containers _ hmem))

/-- A change that leaves declarations and definitions alone, and lists nothing twice. -/
theorem of_grows (hgrows : c.Grows opened c') (hlog : c'.registry.log = c.registry.log)
    (hdefinitions : c'.definitions = c.definitions) (hclosed : c'.Closed)
    (hregistered : c'.Registered) (honce : ∀ k, (c'.graph.children k).Nodup)
    (hlisted : ∀ t ∈ c'.graph.children c.package,
      t ∈ c.graph.children c.package ∨ c'.graph.IsListed t) : c'.Owned scope where
  closed := hclosed
  registered := hregistered
  around := hgrows.package ▸ h.around
  nodup := h.nodup
  containers k hk := hgrows.nodes.isContainer (h.containers k hk)
  unlisted := hlog ▸ h.unlisted
  unnamed := hdefinitions ▸ h.unnamed
  ordered := hlog ▸ h.ordered
  irreflexive := hlog ▸ h.irreflexive
  once := honce
  exclusive := by
    rw [hgrows.package, hlog]
    exact h.exclusive
  offered entry hentry id hid := by
    rw [hdefinitions] at hentry
    have hhas : c.graph.Has entry.2.unwrap := h.closed.definitions entry hentry
    rw [hid] at hhas
    obtain ⟨n, hn⟩ := Graph.node?_isSome hhas
    exact (h.offered entry hentry id hid).mono hgrows.keepsNames h.closed
      (hlog ▸ List.Subset.refl _) (hgrows.nodes.isDeclared_node hn)
  listed t ht := by
    rw [hgrows.package] at ht
    exact (hlisted t ht).elim (fun hold => hgrows.nodes.isListed (h.listed t hold)) fun hnew => hnew

/-- A change that leaves children, declarations and definitions alone. -/
theorem quiet (hgrows : c.Grows opened c') (hlog : c'.registry.log = c.registry.log)
    (hdefinitions : c'.definitions = c.definitions)
    (hchildren : ∀ k, c'.graph.children k = c.graph.children k) (hclosed : c'.Closed)
    (hregistered : c'.Registered) : c'.Owned scope :=
  h.of_grows hgrows hlog hdefinitions hclosed hregistered (fun k => hchildren k ▸ h.once k)
    fun _ ht => .inl (hchildren c.package ▸ ht)

/-- A type that does not stand open is declared. In the package it must be new, unless it has been
offered there. -/
theorem declare {parent : Nat} (hparent : parent ∈ scope) (ht : c.graph.Has t)
    (houtside : ∀ id, t = .node id → id ∉ scope)
    (hnew : parent = c.package → ∀ id, t = .node id → (c.package, id) ∉ c.registry.log →
      Registry.key c.graph scope (c.graph.typeName t) ∉ c.registry.keys →
      c.graph.isDeclared t = true → ∀ entry ∈ c.registry.log, entry.2 ≠ id) :
    (c.declare scope parent t).Owned scope := by
  by_cases hlisted : ∃ id, t = .node id ∧ (c.package, id) ∈ c.registry.log
  · obtain ⟨id, rfl, hlisted⟩ := hlisted
    rw [declare_of_listed hlisted]
    exact h
  have hgrows : c.Grows [parent] (c.declare scope parent t) := .declare (by simp) t
  have hclosed : (c.declare scope parent t).Closed := h.closed.declare ht
  have hcontainer := h.containers parent hparent
  have hregistered := h.registered.declare scope hcontainer t
  unfold Compilation.declare at hgrows hclosed hregistered ⊢
  rcases Registry.register_cases c.graph c.registry t parent scope with
    ⟨heq, -⟩ | ⟨id, rfl, hdeclared, -, hkey, ⟨-, heq⟩ | ⟨hnot, heq⟩⟩ <;>
    rw [heq] at hgrows hclosed hregistered ⊢
  · exact h
  · exact h.quiet hgrows rfl rfl (fun _ => rfl) hclosed hregistered
  · have hid : id ∉ scope := houtside id rfl
    have hunlisted : (c.package, id) ∉ c.registry.log := fun hmem => hlisted ⟨id, rfl, hmem⟩
    have hnames := hgrows.keepsNames
    have hmem : ∀ {entry}, entry ∈ c.registry.log ++ [(parent, id)] →
        entry ∈ c.registry.log ∨ entry = (parent, id) := fun hentry =>
      (List.mem_append.1 hentry).imp_right List.mem_singleton.1
    refine ⟨hclosed, hregistered, hgrows.package ▸ h.around, h.nodup, fun k hk => ?_,
      fun k hk entry hentry => ?_, h.unnamed, ?_, fun entry hentry => ?_, fun k => ?_,
      fun k j hj hk => ?_, fun entry hentry j hj => ?_, fun s hs => ?_⟩
    · exact hgrows.nodes.isContainer (h.containers k hk)
    · rcases hmem hentry with hold | rfl
      · exact h.unlisted k hk entry hold
      · rintro rfl
        exact hid hk
    · -- the container stands open, so it is nobody's child
      refine List.pairwise_append.2 ⟨h.ordered, List.pairwise_singleton .., fun e he e' he' => ?_⟩
      obtain rfl := List.mem_singleton.1 he'
      exact h.unlisted parent hparent e he
    · rcases hmem hentry with hold | rfl
      · exact h.irreflexive entry hold
      · intro hsame
        obtain rfl : parent = id := hsame
        exact hid hparent
    · rw [Graph.children_addChild hcontainer]
      split
      · next hk =>
        refine List.nodup_append.2 ⟨h.once k, List.nodup_singleton _, fun s hs s' hs' => ?_⟩
        obtain rfl := List.mem_singleton.1 hs'
        rintro rfl
        exact hnot ((h.registered.children parent id hdeclared).1 (hk ▸ hs))
      · exact h.once k
    · rcases hmem hj with hj | hj
      · rcases hmem hk with hk | hk
        · exact h.exclusive k j hj hk
        · obtain ⟨-, rfl⟩ := Prod.mk.inj hk
          exact absurd hj hunlisted
      · obtain ⟨hpackage, rfl⟩ := Prod.mk.inj hj
        rcases hmem hk with hk | hk
        · exact absurd rfl (hnew hpackage.symm j rfl hunlisted hkey hdeclared _ hk)
        · exact (Prod.mk.inj hk).1.trans hpackage.symm
    · have hhas : c.graph.Has entry.2.unwrap := h.closed.definitions entry hentry
      rw [hj] at hhas
      obtain ⟨n, hn⟩ := Graph.node?_isSome hhas
      exact (h.offered entry hentry j hj).mono hnames h.closed (List.subset_append_left ..)
        (hgrows.nodes.isDeclared_node hn)
    · have hs : s ∈ (c.graph.addChild parent (.node id)).children c.package := hs
      rcases Graph.mem_children_addChild hs with hold | ⟨-, rfl⟩
      · exact hgrows.nodes.isListed (h.listed s hold)
      · exact hgrows.nodes.isListed (Graph.isListed_of_isDeclared hdeclared)

/-- What is declared in the package has been offered there. -/
theorem offered_declare {parent : Nat} (hscope : scope = [c.package]) (hparent : parent ∈ scope)
    (hhas : id < c.graph.size) : (c.declare scope parent (.node id)).Offered id := by
  subst hscope
  obtain rfl := List.mem_singleton.1 hparent
  have hgrows : c.Grows [c.package] (c.declare [c.package] c.package (.node id)) :=
    .declare (by simp) _
  obtain ⟨n, hn⟩ := Graph.node?_isSome hhas
  intro hid
  rw [hgrows.nodes.isDeclared_node hn] at hid
  have hoffered : c.Offered id → (c.declare [c.package] c.package (.node id)).Offered id :=
    fun ho => ho.mono hgrows.keepsNames h.closed hgrows.log.subset (hgrows.nodes.isDeclared_node hn)
  rcases Registry.register_cases c.graph c.registry (.node id) c.package [c.package] with
    ⟨-, hnot | hpoint | ⟨k, heq, hlisted⟩ | hkey⟩ | ⟨k, heq, -, -, -, hdone⟩
  · rw [hid] at hnot
    cases hnot
  · exact absurd hpoint ((h.registered.plain id hid).not_mem (by decide))
  · obtain rfl := TypeRef.node.inj heq
    exact hoffered (fun _ => .inl hlisted) (by rwa [hgrows.nodes.isDeclared_node hn])
  · exact hoffered (fun _ => .inr hkey) (by rwa [hgrows.nodes.isDeclared_node hn])
  · obtain rfl := TypeRef.node.inj heq
    refine .inl ?_
    rw [hgrows.package]
    rcases hdone with ⟨hold, -⟩ | ⟨-, heq⟩
    · exact hgrows.log.subset hold
    · unfold Compilation.declare
      rw [heq]
      exact List.mem_append_right _ (List.mem_singleton.2 rfl)

/-- What comes out of a schema may be declared in the innermost container. -/
theorem declareHere (ht : c.Yielded scope t ∨ ∃ id, t = .node id ∧ c.Unowned scope id) :
    (c.declareHere scope t).Owned scope ∧ (c.declareHere scope t).Yielded scope t := by
  have hhas : c.graph.Has t := by
    rcases ht with ht | ⟨id, rfl, ht⟩
    · exact ht.1
    · exact ht.has
  have houtside : ∀ id, t = .node id → id ∉ scope := by
    rintro id rfl
    rcases ht with ht | ⟨k, heq, ht⟩
    · exact (ht.2 id rfl).1
    · exact TypeRef.node.inj heq ▸ ht.outside
  cases scope with
  | nil => exact absurd h.package_mem List.not_mem_nil
  | cons parent rest =>
    have hgrows : c.Grows [parent] (c.declare (parent :: rest) parent t) := .declare (by simp) t
    refine ⟨h.declare (List.mem_cons_self ..) hhas houtside ?_, hhas.mono hgrows.size_le, ?_⟩
    · rintro rfl id rfl hunlisted hkey hdeclared
      obtain rfl := h.scope_eq_of_head rfl
      rcases ht with ht | ⟨k, heq, ht⟩
      · exact ((ht.2 id rfl).2 rfl hdeclared).elim (absurd · hunlisted) (absurd · hkey)
      · exact TypeRef.node.inj heq ▸ ht.unlisted
    · rintro id rfl
      refine ⟨houtside id rfl, fun hscope => ?_⟩
      refine h.offered_declare (hgrows.package ▸ hscope) (List.mem_cons_self ..) hhas

/-- A new node without declarations. -/
theorem withNode {n : Node} (hmentions : ∀ t ∈ n.mentions, c.graph.Has t)
    (hplain : ∀ name, n.isDeclared = true → n.ownName? = some name → Name.IsPlain name)
    (hn : n.declarations = []) : (c.withNode n).Owned scope :=
  h.quiet (@Compilation.Grows.withNode [] c n) rfl rfl (Graph.children_add hn)
    (h.closed.withNode hmentions) (h.registered.withNode hplain hn)

theorem unowned_size {n : Node} : (c.withNode n).Unowned scope c.graph.size where
  has := by
    show c.graph.size < (c.graph.add n).1.size
    simp
  outside := h.size_not_mem
  unlisted entry hentry := Nat.ne_of_lt (h.closed.log entry hentry)
  unnamed entry hentry heq := by
    have hhas : c.graph.Has entry.2.unwrap := h.closed.definitions entry hentry
    rw [heq] at hhas
    exact Nat.lt_irrefl _ hhas

/-- A new message is opened. -/
theorem enter {name : String} (plain : Name.IsPlain name) (comment : Value) :
    (c.withNode (.message ⟨name, [], [], comment⟩)).Owned (c.graph.size :: scope) := by
  have hnode := h.withNode (n := .message ⟨name, [], [], comment⟩) nofun
    (fun _ _ hname => Option.some.inj hname ▸ plain) rfl
  have hnew : (c.withNode (.message ⟨name, [], [], comment⟩)).Unowned scope c.graph.size :=
    h.unowned_size
  obtain ⟨inner, hscope⟩ := h.around
  refine { hnode with
    around := ⟨c.graph.size :: inner, congrArg (c.graph.size :: ·) hscope⟩
    nodup := List.nodup_cons.2 ⟨hnew.outside, h.nodup⟩
    containers := fun k hk => ?_
    unlisted := fun k hk => ?_
    unnamed := fun k hk => ?_ } <;> rcases List.mem_cons.1 hk with rfl | hk
  · exact .inr ⟨_, Graph.node?_add_self _⟩
  · exact hnode.containers k hk
  · exact hnew.unlisted
  · exact hnode.unlisted k hk
  · exact hnew.unnamed
  · exact hnode.unnamed k hk

/-- A message is finished. -/
theorem leave {message : Nat} (hinner : c'.Owned (message :: scope)) :
    c'.Owned scope ∧ c'.Unowned scope message := by
  have hne : scope ≠ [] := List.ne_nil_of_mem h.package_mem
  obtain ⟨hnot, hnodup⟩ := List.nodup_cons.1 hinner.nodup
  have hmem : ∀ {k}, k ∈ scope → k ∈ message :: scope := List.mem_cons_of_mem _
  refine ⟨{ hinner with
    around := ?_
    nodup := hnodup
    containers := fun k hk => hinner.containers k (hmem hk)
    unlisted := fun k hk => hinner.unlisted k (hmem hk)
    unnamed := fun k hk => hinner.unnamed k (hmem hk) }, ?_, hnot, ?_, ?_⟩
  · obtain ⟨inner, heq⟩ := hinner.around
    cases inner with
    | nil => exact absurd (List.cons.inj heq).2 hne
    | cons first inner => exact ⟨inner, (List.cons.inj heq).2⟩
  · exact Graph.lt_size_of_isContainer (hinner.containers message (List.mem_cons_self ..))
  · exact hinner.unlisted message (List.mem_cons_self ..)
  · exact hinner.unnamed message (List.mem_cons_self ..)

theorem importFile (file : String) : (c.importFile file).Owned scope :=
  h.quiet (@Compilation.Grows.importFile [c.package] c (List.mem_singleton.2 rfl) file) rfl rfl
    (Graph.children_addImport c.package file) (h.closed.importFile file)
    (h.registered.importFile file)

/-- A node is replaced by one with the same declarations. -/
theorem put {k : Nat} {n n' : Node} (hn : c.graph.node? k = some n) (hgrow : n.Grows n')
    (hsame : n'.declarations = n.declarations)
    (hclosed : Compilation.Closed { c with graph := c.graph.put k n' }) :
    Compilation.Owned scope { c with graph := c.graph.put k n' } :=
  h.quiet (@Compilation.Grows.put [k] c k n n' (List.mem_singleton.2 rfl) hn hgrow) rfl rfl
    (Graph.children_put hn hsame) hclosed (h.registered.put hn hgrow hsame)

theorem addField {message : Nat} {f : Proto.Field TypeRef Value} (hf : c.graph.Has f.type)
    (hadd : addField message f c = .ok ((), c')) : c'.Owned scope := by
  have hclosed := h.closed.addField hf hadd
  rcases addField_ok hadd with ⟨-, rfl⟩ | ⟨m, hm, -, -, rfl⟩
  · exact h
  · exact h.put (Graph.node?_of_message? hm)
      (.message rfl rfl (List.prefix_append ..) List.prefix_rfl) rfl hclosed

theorem withRpc {s : Service TypeRef} {rpc : Rpc TypeRef}
    (hs : c.graph.node? c.service = some (.service s)) (hrequest : c.graph.Has rpc.parameter)
    (hresponse : c.graph.Has rpc.response) : (c.withRpc s rpc).Owned scope := by
  refine h.put hs (.service rfl (List.prefix_append ..)) rfl
    (h.closed.put hs (fun t ht => ?_) fun p hp => nomatch hp)
  simp only [Node.mentions, List.flatMap_append, List.flatMap_cons, List.flatMap_nil,
    List.append_nil, List.mem_append, List.mem_cons, List.not_mem_nil, or_false] at ht ⊢
  rcases ht with ht | rfl | rfl
  · exact .inl ht
  · exact .inr hrequest
  · exact .inr hresponse

theorem remember (base : String) {wrapper : Nat} (hw : c.graph.Has (.node wrapper)) :
    (c.remember base wrapper).Owned scope :=
  h.quiet (@Compilation.Grows.remember [] c base wrapper) rfl rfl (fun _ => rfl)
    (h.closed.remember base hw) ⟨h.registered.inside, h.registered.declared, h.registered.plain,
      h.registered.children, h.registered.inner⟩

/-- References must have definitions from now on. -/
theorem requiring : Compilation.Owned scope { c with deferring := false } :=
  { h with
    closed := ⟨h.closed.mentions, h.closed.definitions, h.closed.wrappers, h.closed.log,
      h.closed.package⟩
    registered := ⟨h.registered.inside, h.registered.declared, h.registered.plain,
      h.registered.children, h.registered.inner⟩ }

/-- An extension becomes a child of the package. -/
theorem extending (e : Proto.Extension) :
    (c.withNode (.extension e)).Owned scope ∧ (c.extending e).Owned scope := by
  have hnode := h.withNode (n := .extension e) nofun nofun rfl
  refine ⟨hnode, ?_⟩
  have hcontainer := hnode.containers c.package h.package_mem
  have hchild : (c.withNode (.extension e)).graph.node? c.graph.size = some (.extension e) :=
    Graph.node?_add_self _
  have hnot : (c.withNode (.extension e)).graph.isDeclared (.node c.graph.size) = false :=
    Graph.isDeclared_of_node? hchild
  have hgrows : (c.withNode (.extension e)).Grows [c.package] (c.extending e) :=
    .addChild (List.mem_singleton.2 rfl) _
  refine hnode.of_grows hgrows rfl rfl (h.closed.extending e)
    (hnode.registered.addChild (has_withNode c _) hnot) (fun k => ?_) fun t ht => ?_
  · change Graph.children (Graph.addChild _ c.package (.node c.graph.size)) k |>.Nodup
    rw [Graph.children_addChild hcontainer]
    split
    · refine List.nodup_append.2 ⟨hnode.once k, List.nodup_singleton _, fun s hs s' hs' => ?_⟩
      obtain rfl := List.mem_singleton.1 hs'
      rintro rfl
      rw [show (c.withNode (.extension e)).graph.children k = c.graph.children k from
        Graph.children_add rfl k] at hs
      exact Nat.lt_irrefl _ (h.registered.inside k _ hs)
    · exact hnode.once k
  · refine (Graph.mem_children_addChild ht).imp_right fun ⟨_, heq⟩ => ?_
    obtain ⟨n', hn', hgrow⟩ := hgrows.nodes _ _ hchild
    cases hgrow
    exact ⟨_, _, heq, hn', rfl⟩

theorem defining (ref : String) {d : Definition} (hd : c.Yielded scope d.unwrap)
    (hscope : scope = [c.package]) : (c.defining ref d).Owned scope := by
  have hclosed := h.closed.defining ref hd.1
  unfold Compilation.defining at hclosed ⊢
  split at hclosed <;> rename_i hdefined
  · rw [if_pos hdefined]
    exact h
  · rw [if_neg hdefined]
    have hmem : ∀ {entry}, entry ∈ c.definitions ++ [(ref, d)] →
        entry ∈ c.definitions ∨ entry = (ref, d) := fun hentry =>
      (List.mem_append.1 hentry).imp_right List.mem_singleton.1
    refine { h with
      closed := hclosed
      registered := ⟨h.registered.inside, h.registered.declared, h.registered.plain,
        h.registered.children, h.registered.inner⟩
      unnamed := fun k hk entry hentry => ?_
      offered := fun entry hentry id hid => ?_ }
    · rcases hmem hentry with hold | rfl
      · exact h.unnamed k hk entry hold
      · exact fun heq => (hd.2 k heq).1 hk
    · rcases hmem hentry with hold | rfl
      · exact h.offered entry hold id hid
      · exact (hd.2 id hid).2 hscope

/-- Resolution leaves children where they are. -/
theorem resolved (hresolved : c.Resolved c') : c'.Owned scope := by
  have hlog : c'.registry.log = c.registry.log := congrArg Registry.log hresolved.registry
  have hpackage := hresolved.package_eq
  have hnames := hresolved.keepsNames
  -- what references stand for now, they stood for before, or it is builtin
  have hdefined : ∀ entry ∈ c'.definitions, ∀ id, entry.2.unwrap = .node id →
      ∃ entry ∈ c.definitions, entry.2.unwrap = .node id := by
    intro entry hentry id hid
    obtain ⟨d, hd, t, heq, ht⟩ := hresolved.definitions entry hentry
    have hunwrap : entry.2.unwrap = t := by rw [heq]; cases d <;> rfl
    obtain rfl := hunwrap.symm.trans hid
    rcases ht with hsame | ⟨-, hgiven⟩
    · exact ⟨_, hd, hsame.symm⟩
    · exact (defined_of_given hgiven).resolve_left fun ⟨b, hb⟩ => nomatch hb
  refine ⟨h.closed.resolved hresolved, h.registered.resolved hresolved, hpackage ▸ h.around,
    h.nodup, fun k hk => hresolved.graph.isContainer (h.containers k hk), hlog ▸ h.unlisted,
    fun k hk entry hentry heq => ?_, hlog ▸ h.ordered, hlog ▸ h.irreflexive,
    fun k => hresolved.graph.children_eq k ▸ h.once k, ?_, fun entry hentry id hid => ?_,
    fun t ht => ?_⟩
  · obtain ⟨old, hold, heq⟩ := hdefined entry hentry k heq
    exact h.unnamed k hk old hold heq
  · rw [hpackage, hlog]
    exact h.exclusive
  · obtain ⟨old, hold, heq⟩ := hdefined entry hentry id hid
    refine (h.offered old hold id heq).mono hnames h.closed (hlog ▸ List.Subset.refl _) ?_
    exact Bool.eq_iff_iff.2 hresolved.graph.isDeclared_iff
  · rw [hpackage, hresolved.graph.children_eq] at ht
    exact hresolved.graph.isListed (h.listed t ht)

end Compilation.Owned

/-! ## The discipline of children -/

/-- What a new node mentions is there. -/
theorem Made.mentions {n : Node} (h : Made c.graph.Has n) : ∀ t ∈ n.mentions, c.graph.Has t := by
  intro t ht
  cases h with
  | reference => cases ht
  | map hvalue =>
    simp only [Node.mentions, List.mem_cons, List.not_mem_nil, or_false] at ht
    rcases ht with rfl | rfl
    · trivial
    · exact hvalue
  | enumeration => cases ht
  | message _ hchildren hfields =>
    simp only [Node.mentions, hchildren, List.nil_append] at ht
    obtain ⟨f, hf, rfl⟩ := List.mem_map.1 ht
    exact hfields f hf

theorem Made.plain {n : Node} {Good : TypeRef → Prop} (h : Made Good n) (name : String)
    (hdeclared : n.isDeclared = true) (hname : n.ownName? = some name) : Name.IsPlain name := by
  cases h with
  | reference => cases hdeclared
  | map => cases hdeclared
  | enumeration hplain => exact Option.some.inj hname ▸ hplain
  | message hplain => exact Option.some.inj hname ▸ hplain

theorem Made.declarations_eq {n : Node} {Good : TypeRef → Prop} (h : Made Good n) :
    n.declarations = [] := by
  cases h with
  | message _ hchildren => exact hchildren
  | _ => rfl

/-- What a new node that is no declaration gives may come out of a schema. -/
theorem Compilation.Owned.yielded_size (h : c.Owned scope) {n : Node}
    (hn : n.isDeclared = false) : (c.withNode n).Yielded scope (.node c.graph.size) := by
  refine ⟨has_withNode c n, fun id heq => ?_⟩
  obtain rfl := TypeRef.node.inj heq
  refine ⟨h.size_not_mem, fun _ hdeclared => ?_⟩
  have hnot : (c.withNode n).graph.isDeclared (.node c.graph.size) = n.isDeclared :=
    Graph.isDeclared_of_node? (Graph.node?_add_self n)
  rw [hnot, hn] at hdeclared
  cases hdeclared

theorem Compilation.Owned.yielded_found (h : c.Owned scope) {name : String}
    (hfound : c.registry.lookup c.graph name scope = some (.node id)) :
    c.Yielded scope (.node id) := by
  rcases Registry.lookup_some hfound with ⟨b, heq⟩ | ⟨container, k, heq, hcontainer, hlog, -⟩
  · cases heq
  · refine ⟨h.closed.has_lookup hfound, fun j hj => ?_⟩
    obtain rfl := TypeRef.node.inj heq
    obtain rfl := TypeRef.node.inj hj
    refine ⟨fun hmem => h.unlisted id hmem _ hlog rfl, fun hscope _ => .inl ?_⟩
    obtain rfl := List.mem_singleton.1 (hscope ▸ hcontainer)
    exact hlog

theorem Compilation.Owned.yielded_definition (h : c.Owned scope) {entry : String × Definition}
    (hentry : entry ∈ c.definitions) : c.Yielded scope entry.2.unwrap :=
  ⟨h.closed.definitions entry hentry, fun id hid =>
    ⟨fun hmem => h.unnamed id hmem entry hentry hid, fun _ => h.offered entry hentry id hid⟩⟩

/-- A compilation keeps order among children. -/
def ownership : Discipline where
  Holds scope c := c.Owned scope
  Good c t := c.graph.Has t
  Settled scope c t := c.Yielded scope t
  Fresh scope c id := c.Unowned scope id
  scope h := h.around
  good_of_settled h := h.1
  good_of_fresh h := h.has
  builtin _ _ := ⟨trivial, nofun⟩
  scalar _ _ := ⟨fun _ => ⟨trivial, nofun⟩, trivial, nofun⟩
  found h := h.yielded_found
  definition h := h.yielded_definition
  wrapper h hentry := h.closed.wrappers _ hentry
  withNode h hn := ⟨h.withNode hn.mentions hn.plain hn.declarations_eq,
    fun _ ht => ht.mono (@Compilation.Grows.withNode [] _ _).size_le⟩
  fresh h _ _ := h.unowned_size
  settled h _ hn := h.yielded_size hn
  enter h plain := h.enter plain _
  leave h hinner := h.leave hinner
  declareHere h ht :=
    have hdone := h.declareHere ht
    ⟨hdone.1, fun _ hs => hs.mono
      (@Compilation.Grows.declareHere _ _ _ (List.Subset.refl _) _).size_le, hdone.2⟩
  declareShared h hid := ⟨h.declare h.package_mem hid.has
      (fun _ heq => TypeRef.node.inj heq ▸ hid.outside)
      fun _ _ heq _ _ _ => TypeRef.node.inj heq ▸ hid.unlisted,
    fun _ hs => hs.mono
      (@Compilation.Grows.declare _ _ _ _ (List.mem_singleton.2 rfl) _).size_le⟩
  addField h hf hadd := ⟨h.addField hf hadd, fun _ ht => ht.mono
    (addField_grows (List.mem_singleton.2 rfl) hadd).size_le⟩
  importFile file h :=
    have hgrows := @Compilation.Grows.importFile _ _ (List.mem_singleton.2 rfl) file
    ⟨h.importFile file, fun _ ht => ht.mono hgrows.size_le, fun _ hid =>
      have hhas := Nat.lt_of_lt_of_le hid.has hgrows.size_le
      ⟨hhas, hid.outside, hid.unlisted, hid.unnamed⟩⟩
  remember base h hid := ⟨h.remember base hid.has, fun _ ht => ht,
    hid.has, hid.outside, hid.unlisted, hid.unnamed⟩
  defining ref h hd := h.defining ref hd rfl
  resolved h hresolved := h.resolved hresolved
  deferring h := h.requiring
  extension e h := h.extending e
  rpc h hs hrequest hresponse := h.withRpc hs hrequest hresponse

/-! ## Compilations -/

theorem start_owned (packageName serviceName : String) (options : List (String × String)) :
    (start packageName serviceName options).Owned [0] where
  closed := start_closed packageName serviceName options
  registered := start_registered packageName serviceName options
  around := ⟨[], rfl⟩
  nodup := List.nodup_singleton 0
  containers k hk := by
    obtain rfl := List.mem_singleton.1 hk
    exact .inl ⟨_, rfl⟩
  unlisted _ _ _ hentry := nomatch hentry
  unnamed _ _ _ hentry := nomatch hentry
  ordered := List.Pairwise.nil
  irreflexive _ hentry := nomatch hentry
  once k := by
    rcases hn : (start packageName serviceName options).graph.node? k with _ | n
    · rw [Graph.children_of_none hn]
      exact List.nodup_nil
    · rw [Graph.children_of_node? hn]
      rcases start_node? hn with ⟨-, rfl⟩ | ⟨-, rfl⟩
      · exact List.nodup_singleton _
      · exact List.nodup_nil
  exclusive _ _ hentry := nomatch hentry
  offered _ hentry := nomatch hentry
  listed t ht := by
    obtain rfl := List.mem_singleton.1 ht
    exact ⟨1, _, rfl, rfl, rfl⟩

/-- In all states that a compilation passes there is order among children. -/
theorem owned_of_passes {env : Environment}
    (h : (compileAll.course env).Passes (startOf env) c) : ∃ scope, c.Owned scope := by
  obtain ⟨packageName, serviceName, options, heq⟩ := startOf_is_start env
  have hstart : ownership.Holds [0] (startOf env) := by
    rw [heq]
    exact start_owned packageName serviceName options
  exact (Discipline.compileAll_steady hstart env).1 c h

/-- In all states that a compilation passes, a container lists each of its children once, and what
the package lists no message lists. -/
theorem children_of_passes {env : Environment}
    (h : (compileAll.course env).Passes (startOf env) c) :
    (∀ container, (c.graph.children container).Nodup) ∧
      ∀ container, ∀ t ∈ c.graph.children container,
        t ∈ c.graph.children c.package → container = c.package := by
  obtain ⟨scope, howned⟩ := owned_of_passes h
  have hregistered := howned.registered
  refine ⟨howned.once, fun container t ht hpackage => ?_⟩
  rcases hregistered.inner container t ht with heq | hdeclared
  · exact heq
  · cases t with
    | builtin b => cases hdeclared
    | node id =>
      exact howned.exclusive container id ((hregistered.children _ id hdeclared).1 hpackage)
        ((hregistered.children _ id hdeclared).1 ht)

/-- A schema `A` with a property `x` and, inside its property `y`, another property `x`. -/
def nestedNames : Spec := Spec.ofDefinitions [
  ("A", .object [("x", .object [("n", .scalar "integer")]),
    ("y", .object [("x", .object [("n", .scalar "integer")])])])]

theorem children_of_passes_nestedNames : ∃ c,
    (compileAll.course ⟨⟨false, false, false, false, "pet"⟩, nestedNames⟩).Passes
      (startOf ⟨⟨false, false, false, false, "pet"⟩, nestedNames⟩) c ∧
    c.graph.children c.package = [.node 1, .node 2] ∧
    (∀ container, (c.graph.children container).Nodup) ∧
      ∀ container, ∀ t ∈ c.graph.children container,
        t ∈ c.graph.children c.package → container = c.package := by
  obtain ⟨c, hrun, htest⟩ := compileAll_of_compilesTo
    (show compilesTo ⟨false, false, false, false, "pet"⟩ nestedNames
      (fun c => decide (c.graph.children c.package = [.node 1, .node 2])) = true by decide +kernel)
  have hpasses := passes_of_ok (compileAll.course _) hrun
  exact ⟨c, hpasses, of_decide_eq_true htest, children_of_passes hpasses⟩

/-- The message for the outer property `x` is found again for the inner one, and becomes a child of
both messages. -/
theorem two_containers_nestedNames : ∃ c,
    compileAll ⟨⟨false, false, false, false, "pet"⟩, nestedNames⟩
      (startOf ⟨⟨false, false, false, false, "pet"⟩, nestedNames⟩) = .ok ((), c) ∧
    c.graph.isDeclared (.node 3) = true ∧ .node 3 ∈ c.graph.children 2 ∧
      .node 3 ∈ c.graph.children 4 := by
  obtain ⟨c, hrun, htest⟩ := compileAll_of_compilesTo
    (show compilesTo ⟨false, false, false, false, "pet"⟩ nestedNames
      (fun c => decide (c.graph.isDeclared (.node 3) = true ∧ .node 3 ∈ c.graph.children 2 ∧
        .node 3 ∈ c.graph.children 4)) = true by decide +kernel)
  exact ⟨c, hrun, of_decide_eq_true htest⟩

end ApiProto.Compile
