import ApiProto.Proofs.Phases

/-!
# Growth

A compilation only adds: nodes to the graph, fields and declarations to messages that are still
open, declarations and imports to the package. What is there stays under the same index and name.

* `Node.Grows`, `Graph.Grows`, `Compilation.Grows` — what stays when something is added.
* `node?_addChild`, `node?_addImport`, `register_cases` — the basic changes.
* `Runs.grows`, `Builds.grows` — runs and building only add.
-/

namespace ApiProto.Proto

open Document

/-! ## Nodes -/

/-- What a node may become: declarations, fields, procedures and imports are added at the end. -/
inductive Node.Grows : Node → Node → Prop
  | same (n : Node) : Node.Grows n n
  | message {m m' : Message} : m'.name = m.name → m'.comment = m.comment →
      m.fields <+: m'.fields → m.children <+: m'.children → Node.Grows (.message m) (.message m')
  | package {p p' : Package} : p'.name = p.name → p'.options = p.options →
      p.imports <+: p'.imports → p.children <+: p'.children → Node.Grows (.package p) (.package p')
  | service {s s' : Service TypeRef} : s'.name = s.name → s.rpcs <+: s'.rpcs →
      Node.Grows (.service s) (.service s')

theorem Node.Grows.trans {n₁ n₂ n₃ : Node} (h : n₁.Grows n₂) (h' : n₂.Grows n₃) : n₁.Grows n₃ := by
  cases h with
  | same => exact h'
  | message hn hc hf hch =>
    cases h' with
    | same => exact .message hn hc hf hch
    | message hn' hc' hf' hch' =>
      exact .message (hn'.trans hn) (hc'.trans hc) (hf.trans hf') (hch.trans hch')
  | package hn ho hi hch =>
    cases h' with
    | same => exact .package hn ho hi hch
    | package hn' ho' hi' hch' =>
      exact .package (hn'.trans hn) (ho'.trans ho) (hi.trans hi') (hch.trans hch')
  | service hn hr =>
    cases h' with
    | same => exact .service hn hr
    | service hn' hr' => exact .service (hn'.trans hn) (hr.trans hr')

/-- The name of a node that is no map. -/
def Node.ownName? : Node → Option String
  | .package p => some p.name
  | .message m => some m.name
  | .enumeration e => some e.name
  | .extension e => some e.base
  | .service s => some s.name
  | .reference ref => some ref
  | .builtin b => some b.name
  | .map .. => none

/-- Whether a node is declared under its name. -/
def Node.isDeclared : Node → Bool
  | .message _ | .enumeration _ => true
  | _ => false

/-- A node with one declaration more, if it is a container. -/
def Node.withChild (t : TypeRef) : Node → Node
  | .package p => .package { p with children := p.children ++ [t] }
  | .message m => .message { m with children := m.children ++ [t] }
  | n => n

/-- A node with an import, if it is a package that does not have it. -/
def Node.withImport (file : String) : Node → Node
  | .package p =>
    if p.imports.contains file then .package p
    else .package { p with imports := p.imports ++ [file] }
  | n => n

theorem Node.withImport_package (file : String) (p : Package) :
    ∃ p', (Node.package p).withImport file = .package p' := by
  rcases Decidable.em (p.imports.contains file) with hmem | hnew
  · exact ⟨_, if_pos hmem⟩
  · exact ⟨_, if_neg hnew⟩

theorem Node.grows_withChild (t : TypeRef) (n : Node) : n.Grows (n.withChild t) := by
  cases n with
  | package p => exact .package rfl rfl List.prefix_rfl (List.prefix_append ..)
  | message m => exact .message rfl rfl List.prefix_rfl (List.prefix_append ..)
  | _ => exact .same _

theorem Node.grows_withImport (file : String) (n : Node) : n.Grows (n.withImport file) := by
  cases n with
  | package p =>
    rcases Decidable.em (p.imports.contains file) with hmem | hnew
    · rw [Node.withImport, if_pos hmem]
      exact .same _
    · rw [Node.withImport, if_neg hnew]
      exact .package rfl rfl (List.prefix_append ..) List.prefix_rfl
  | _ => exact .same _

namespace Node.Grows

variable {n n' : Node}

theorem ownName?_eq (h : n.Grows n') : n'.ownName? = n.ownName? := by
  cases h with
  | same => rfl
  | message hn => exact congrArg some hn
  | package hn => exact congrArg some hn
  | service hn => exact congrArg some hn

theorem isDeclared_eq (h : n.Grows n') : n'.isDeclared = n.isDeclared := by
  cases h <;> rfl

end Node.Grows

/-! ## Graphs -/

namespace Graph

variable {g g' : Graph} {id : Nat} {n : Node}

theorem lt_size_of_node? (h : g.node? id = some n) : id < g.size :=
  (Array.getElem?_eq_some_iff.1 h).1

theorem node?_isSome (h : id < g.size) : ∃ n, g.node? id = some n :=
  ⟨_, Array.getElem?_eq_getElem h⟩

theorem node?_add_of_some (h : g.node? id = some n) (n' : Node) :
    (g.add n').1.node? id = some n := by
  rw [node?_add, if_neg (Nat.ne_of_lt (lt_size_of_node? h)), h]

theorem node?_add_self (n : Node) : (g.add n).1.node? g.size = some n := by
  rw [node?_add, if_pos rfl]

theorem node?_put_self (h : g.node? id = some n) (n' : Node) :
    (g.put id n').node? id = some n' := by
  rw [node?_put, if_pos ⟨rfl, lt_size_of_node? h⟩]

theorem node?_put_of_ne {k : Nat} (h : id ≠ k) (n' : Node) :
    (g.put k n').node? id = g.node? id := by
  rw [node?_put, if_neg fun hk => h hk.1.symm]

theorem node?_of_message? {m : Message} (h : g.message? id = some m) :
    g.node? id = some (.message m) := by
  unfold message? at h
  split at h
  · next hn =>
    obtain rfl := Option.some.inj h
    exact hn
  · cases h

theorem message?_of_node? {m : Message} (h : g.node? id = some (.message m)) :
    g.message? id = some m := by
  simp [message?, h]

theorem typeName_of_ownName? (hn : g.node? id = some n) {name : String}
    (hname : n.ownName? = some name) : g.typeName (.node id) = name := by
  unfold typeName
  generalize g.size = depth
  cases depth <;> cases n <;> simp_all [nameWithin, Node.ownName?]

theorem isDeclared_of_node? (hn : g.node? id = some n) :
    g.isDeclared (.node id) = n.isDeclared := by
  simp only [isDeclared, hn]
  cases n <;> rfl

/-- A change of one node, or none: `change` says what becomes of the node. -/
theorem node?_of_put_or_same {k : Nat} {change : Node → Node}
    (h : ∀ n, g.node? k = some n → g' = g.put k (change n) ∨ g' = g ∧ change n = n)
    (hnone : g.node? k = none → g' = g) :
    g'.node? id = if id = k then (g.node? id).map change else g.node? id := by
  split
  · next heq =>
    subst heq
    rcases hk : g.node? id with _ | n
    · rw [hnone hk, hk, Option.map_none]
    · rcases h n hk with rfl | ⟨rfl, hn⟩
      · rw [node?_put_self hk, Option.map_some]
      · rw [hk, Option.map_some, hn]
  · next hne =>
    rcases hk : g.node? k with _ | n
    · rw [hnone hk]
    · rcases h n hk with rfl | ⟨rfl, -⟩
      · rw [node?_put_of_ne hne]
      · rfl

@[simp] theorem size_addChild (parent : Nat) (t : TypeRef) :
    (g.addChild parent t).size = g.size := by
  unfold addChild
  split
  · exact size_put ..
  · exact size_put ..
  · rfl

@[simp] theorem size_addImport (package : Nat) (file : String) :
    (g.addImport package file).size = g.size := by
  unfold addImport
  split
  · split
    · rfl
    · exact size_put ..
  · rfl

/-- A declaration changes its container and nothing else. -/
theorem node?_addChild (parent : Nat) (t : TypeRef) :
    (g.addChild parent t).node? id =
      if id = parent then (g.node? id).map (Node.withChild t) else g.node? id := by
  refine node?_of_put_or_same (fun n hn => ?_) fun hn => ?_
  · unfold addChild
    rw [hn]
    cases n with
    | package p => exact .inl rfl
    | message m => exact .inl rfl
    | _ => exact .inr ⟨rfl, rfl⟩
  · simp [addChild, hn]

/-- An import changes the package and nothing else. -/
theorem node?_addImport (package : Nat) (file : String) :
    (g.addImport package file).node? id =
      if id = package then (g.node? id).map (Node.withImport file) else g.node? id := by
  refine node?_of_put_or_same (fun n hn => ?_) fun hn => ?_
  · unfold addImport package?
    rw [hn]
    cases n with
    | package p =>
      rcases Decidable.em (p.imports.contains file) with hmem | hnew
      · refine .inr ⟨if_pos hmem, ?_⟩
        rw [Node.withImport, if_pos hmem]
      · refine .inl ?_
        rw [Node.withImport, if_neg hnew]
        exact if_neg hnew
    | _ => exact .inr ⟨rfl, rfl⟩
  · simp [addImport, package?, hn]

/-- What has a name keeps it. -/
def KeepsNames (g g' : Graph) : Prop :=
  ∀ id n, g.node? id = some n → ∃ n', g'.node? id = some n' ∧ n'.ownName? = n.ownName?

/-- What stays when something is added to a graph. -/
def Grows (g g' : Graph) : Prop :=
  ∀ id n, g.node? id = some n → ∃ n', g'.node? id = some n' ∧ n.Grows n'

namespace Grows

theorem refl (g : Graph) : g.Grows g := fun _ (n : Node) hn => ⟨n, hn, Node.Grows.same n⟩

theorem trans {g₁ g₂ g₃ : Graph} (h : g₁.Grows g₂) (h' : g₂.Grows g₃) : g₁.Grows g₃ := by
  intro id n hn
  obtain ⟨n', hn', hgrows⟩ := h id n hn
  obtain ⟨n'', hn'', hgrows'⟩ := h' id n' hn'
  exact ⟨n'', hn'', hgrows.trans hgrows'⟩

theorem of_map {k : Nat} {change : Node → Node} (hchange : ∀ n : Node, n.Grows (change n))
    (h : ∀ id, g'.node? id = if id = k then (g.node? id).map change else g.node? id) :
    g.Grows g' := by
  intro id (n : Node) hn
  rw [h id, hn]
  split
  · exact ⟨_, rfl, hchange n⟩
  · exact ⟨_, rfl, Node.Grows.same n⟩

theorem add (g : Graph) (n : Node) : g.Grows (g.add n).1 :=
  fun _ (n' : Node) hn' => ⟨n', node?_add_of_some hn' n, Node.Grows.same n'⟩

theorem addChild (g : Graph) (parent : Nat) (t : TypeRef) : g.Grows (g.addChild parent t) :=
  of_map (Node.grows_withChild t) fun _ => node?_addChild parent t

theorem addImport (g : Graph) (package : Nat) (file : String) :
    g.Grows (g.addImport package file) :=
  of_map (Node.grows_withImport file) fun _ => node?_addImport package file

theorem put (hn : g.node? id = some n) {n' : Node} (h : n.Grows n') : g.Grows (g.put id n') := by
  intro k (m : Node) hm
  rcases Decidable.em (k = id) with rfl | hne
  · obtain rfl : n = m := by simpa [hn] using hm
    exact ⟨n', node?_put_self hn n', h⟩
  · exact ⟨m, by rw [node?_put_of_ne hne, hm], Node.Grows.same m⟩

variable (h : g.Grows g')
include h

theorem size_le : g.size ≤ g'.size := by
  rcases Nat.eq_zero_or_pos g.size with hzero | hpos
  · omega
  · obtain ⟨n, hn⟩ := node?_isSome (show g.size - 1 < g.size by omega)
    obtain ⟨n', hn', -⟩ := h _ n hn
    have := lt_size_of_node? hn'
    omega

theorem message?_of_some {m : Message} (hm : g.message? id = some m) :
    ∃ m', g'.message? id = some m' ∧ m'.name = m.name ∧ m'.comment = m.comment ∧
      m.fields <+: m'.fields ∧ m.children <+: m'.children := by
  obtain ⟨n', hn', hgrows⟩ := h id _ (node?_of_message? hm)
  cases hgrows with
  | same => exact ⟨m, message?_of_node? hn', rfl, rfl, List.prefix_rfl, List.prefix_rfl⟩
  | message hname hcomment hfields hchildren =>
    exact ⟨_, message?_of_node? hn', hname, hcomment, hfields, hchildren⟩

theorem keepsNames : g.KeepsNames g' := by
  intro id n hn
  obtain ⟨n', hn', hgrows⟩ := h id n hn
  exact ⟨n', hn', hgrows.ownName?_eq⟩

theorem isDeclared_node (hn : g.node? id = some n) :
    g'.isDeclared (.node id) = g.isDeclared (.node id) := by
  obtain ⟨n', hn', hgrows⟩ := h id n hn
  rw [isDeclared_of_node? hn, isDeclared_of_node? hn', hgrows.isDeclared_eq]

end Grows

end Graph

/-! ## Registrations -/

theorem mem_declaredIn {r : Registry} {container t : Nat} :
    t ∈ r.declaredIn container ↔ (container, t) ∈ r.log := by
  simp only [Registry.declaredIn, List.mem_filterMap]
  constructor
  · rintro ⟨⟨k, s⟩, hmem, heq⟩
    split at heq
    · next hk =>
      obtain rfl := Option.some.inj heq
      exact hk ▸ hmem
    · cases heq
  · exact fun h => ⟨_, h, if_pos rfl⟩

/-- What becomes of a type that is offered: nothing, for one of several reasons, its name is taken
down, or it is declared. -/
theorem Registry.register_cases (g : Graph) (r : Registry) (t : TypeRef) (parent : Nat)
    (scope : Scope) :
    ((r.register g t parent scope).2 = (g, r) ∧ (g.isDeclared t = false ∨
      '.' ∈ (g.typeName t).toList ∨ (∃ id, t = .node id ∧ (r.package, id) ∈ r.log) ∨
      key g scope (g.typeName t) ∈ r.keys)) ∨
    ∃ id, t = .node id ∧ g.isDeclared t = true ∧ '.' ∉ (g.typeName t).toList ∧
      key g scope (g.typeName t) ∉ r.keys ∧
      (((parent, id) ∈ r.log ∧ (r.register g t parent scope).2 =
          (g, { r with keys := r.keys ++ [key g scope (g.typeName t)] })) ∨
        ((parent, id) ∉ r.log ∧ (r.register g t parent scope).2 =
          (g.addChild parent t,
            ⟨r.package, r.log ++ [(parent, id)], r.keys ++ [key g scope (g.typeName t)]⟩))) := by
  cases t with
  | builtin b => exact .inl ⟨rfl, .inl rfl⟩
  | node id =>
    unfold Registry.register
    dsimp only
    split
    · next hkept =>
      refine .inl ⟨rfl, ?_⟩
      simp only [Bool.or_eq_true, Bool.not_eq_true', List.contains_iff_mem, mem_declaredIn] at hkept
      rcases hkept with ((hnot | hpoint) | hpackage) | hkey
      · exact .inl hnot
      · exact .inr (.inl hpoint)
      · exact .inr (.inr (.inl ⟨id, rfl, hpackage⟩))
      · exact .inr (.inr (.inr hkey))
    · next hfree =>
      simp only [Bool.or_eq_true, Bool.not_eq_true', not_or, List.contains_iff_mem,
        Bool.not_eq_false] at hfree
      obtain ⟨⟨⟨hdeclared, hplain⟩, -⟩, hkey⟩ := hfree
      refine .inr ⟨id, rfl, hdeclared, hplain, hkey, ?_⟩
      split
      · next hmem =>
        exact .inl ⟨mem_declaredIn.1 (List.contains_iff_mem.1 hmem), rfl⟩
      · next hmem =>
        exact .inr ⟨fun hin => hmem (List.contains_iff_mem.2 (mem_declaredIn.2 hin)), rfl⟩

end ApiProto.Proto

namespace ApiProto.Compile

open Proto Document CompileM

/-! ## States -/

/-- What stays when a compilation goes on. Nodes change only if they are open. -/
structure Compilation.Grows (opened : List Nat) (c c' : Compilation) : Prop where
  nodes : c.graph.Grows c'.graph
  closed : ∀ id n, c.graph.node? id = some n → id ∉ opened → c'.graph.node? id = some n
  package : c'.package = c.package
  service : c'.service = c.service
  deferring : c'.deferring = c.deferring
  log : c.registry.log <+: c'.registry.log
  keys : c.registry.keys <+: c'.registry.keys
  definitions : c.definitions <+: c'.definitions
  wrappers : c.wrappers <+: c'.wrappers

namespace Compilation.Grows

variable {opened : List Nat} {c c₁ c' : Compilation}

theorem refl (c : Compilation) : c.Grows opened c :=
  ⟨.refl _, fun _ _ hn _ => hn, rfl, rfl, rfl, List.prefix_rfl, List.prefix_rfl, List.prefix_rfl,
    List.prefix_rfl⟩

theorem trans (h : c.Grows opened c₁) (h' : c₁.Grows opened c') : c.Grows opened c' where
  nodes := h.nodes.trans h'.nodes
  closed id n hn hid := h'.closed id n (h.closed id n hn hid) hid
  package := h'.package.trans h.package
  service := h'.service.trans h.service
  deferring := h'.deferring.trans h.deferring
  log := h.log.trans h'.log
  keys := h.keys.trans h'.keys
  definitions := h.definitions.trans h'.definitions
  wrappers := h.wrappers.trans h'.wrappers

theorem mono {opened' : List Nat} (h : c.Grows opened c') (hsub : opened ⊆ opened') :
    c.Grows opened' c' :=
  { h with closed := fun id n hn hid => h.closed id n hn fun hmem => hid (hsub hmem) }

theorem size_le (h : c.Grows opened c') : c.graph.size ≤ c'.graph.size := h.nodes.size_le

/-- What is new need not count as open. -/
theorem of_cons {id : Nat} (hid : c.graph.size ≤ id) (h : c.Grows (id :: opened) c') :
    c.Grows opened c' :=
  { h with
    closed := fun k n hn hk => h.closed k n hn fun hmem => by
      rcases List.mem_cons.1 hmem with rfl | hmem
      · exact absurd (Graph.lt_size_of_node? hn) (by omega)
      · exact hk hmem }

theorem withNode (c : Compilation) (n : Node) : c.Grows opened (c.withNode n) :=
  { (refl c : c.Grows opened c) with
    nodes := .add c.graph n
    closed := fun _ _ hn _ => Graph.node?_add_of_some hn n }

theorem remember (c : Compilation) (base : String) (wrapper : Nat) :
    c.Grows opened (c.remember base wrapper) :=
  { (refl c : c.Grows opened c) with wrappers := List.prefix_append .. }

theorem importFile (hpackage : c.package ∈ opened) (file : String) :
    c.Grows opened (c.importFile file) :=
  { (refl c : c.Grows opened c) with
    nodes := .addImport c.graph c.package file
    closed := fun id n hn hid => by
      have hne : id ≠ c.package := fun heq => hid (heq ▸ hpackage)
      show (c.graph.addImport c.package file).node? id = some n
      rw [Graph.node?_addImport, if_neg hne, hn] }

theorem importing (hpackage : c.package ∈ opened) (name : String) :
    c.Grows opened (c.importing name) := by
  unfold Compilation.importing
  split
  · exact importFile hpackage _
  · exact refl c

theorem put {id : Nat} {n n' : Node} (hid : id ∈ opened) (hn : c.graph.node? id = some n)
    (hgrow : n.Grows n') : c.Grows opened { c with graph := c.graph.put id n' } :=
  { (refl c : c.Grows opened c) with
    nodes := .put hn hgrow
    closed := fun k m hm hk => by
      have hne : k ≠ id := fun heq => hk (heq ▸ hid)
      exact (Graph.node?_put_of_ne hne n').trans hm }

theorem addChild {parent : Nat} (hparent : parent ∈ opened) (t : TypeRef) :
    c.Grows opened { c with graph := c.graph.addChild parent t } :=
  { (refl c : c.Grows opened c) with
    nodes := .addChild c.graph parent t
    closed := fun k n hn hk => by
      have hne : k ≠ parent := fun heq => hk (heq ▸ hparent)
      show (c.graph.addChild parent t).node? k = some n
      rw [Graph.node?_addChild, if_neg hne, hn] }

theorem declare {scope : Scope} {parent : Nat} (hparent : parent ∈ opened) (t : TypeRef) :
    c.Grows opened (c.declare scope parent t) := by
  unfold Compilation.declare
  rcases Registry.register_cases c.graph c.registry t parent scope with
    ⟨h, -⟩ | ⟨id, -, -, -, -, ⟨-, h⟩ | ⟨-, h⟩⟩ <;> rw [h]
  · exact refl c
  · exact { (refl c : c.Grows opened c) with keys := List.prefix_append .. }
  · exact { (addChild hparent t : c.Grows opened _) with
      log := List.prefix_append ..
      keys := List.prefix_append .. }

theorem declareHere {scope : Scope} (hscope : scope ⊆ opened) (t : TypeRef) :
    c.Grows opened (c.declareHere scope t) := by
  cases scope with
  | nil => exact refl c
  | cons parent rest => exact declare (hscope (List.mem_cons_self ..)) t

end Compilation.Grows

/-! ## Fields -/

/-- A field is added at the end, under a positive number that is not in use. -/
theorem addField_ok {message : Nat} {f : Proto.Field TypeRef Value} {c c' : Compilation}
    (h : addField message f c = .ok ((), c')) :
    (c.graph.message? message = none ∧ c' = c) ∨
      ∃ m, c.graph.message? message = some m ∧ 1 ≤ f.number ∧
        (∀ other ∈ m.fields, other.number ≠ f.number) ∧
        c' = { c with
          graph := c.graph.put message (.message { m with fields := m.fields ++ [f] }) } := by
  unfold addField at h
  rcases hm : c.graph.message? message with _ | m <;> rw [hm] at h
  · exact .inl ⟨rfl, (Prod.mk.inj (Except.ok.inj h)).2.symm⟩
  · dsimp only at h
    unfold Message.addField at h
    split at h
    · cases h
    · next hnumber =>
      rcases hfind : m.fields.find? fun other => other.number == f.number with _ | other <;>
        rw [hfind] at h
      · refine .inr ⟨m, rfl, by omega, fun other hother => ?_,
          (Prod.mk.inj (Except.ok.inj h)).2.symm⟩
        simpa using List.find?_eq_none.1 hfind other hother
      · cases h

theorem addPropertyField_ok {message : Nat} {p : CompiledProperty} {number : Int}
    {c c' : Compilation} (h : addPropertyField message p number c = .ok ((), c')) :
    ∃ c₁, addField message ⟨p.type, Name.fieldName p.name, number, p.repeated, p.comment⟩ c =
        .ok ((), c₁) ∧
      c' = c₁.importing (c₁.graph.typeName (importedType c₁.graph p.type)) := by
  unfold addPropertyField at h
  obtain ⟨_, c₁, hadd, h⟩ := bind_ok_iff.1 h
  simp only [get_bind, nameOf_bind, addImportFor_run, Except.ok.injEq, Prod.mk.injEq,
    true_and] at h
  exact ⟨c₁, hadd, h.symm⟩

theorem addField_grows {opened : List Nat} {message : Nat} {f : Proto.Field TypeRef Value}
    {c c' : Compilation} (hmessage : message ∈ opened)
    (h : addField message f c = .ok ((), c')) : c.Grows opened c' := by
  rcases addField_ok h with ⟨-, rfl⟩ | ⟨m, hm, -, -, rfl⟩
  · exact .refl _
  · exact .put hmessage (Graph.node?_of_message? hm)
      (.message rfl rfl (List.prefix_append ..) List.prefix_rfl)

theorem addFields_grows {opened : List Nat} {message : Nat}
    {fields : List (CompiledProperty × Int)} {c c' : Compilation} (hpackage : c.package ∈ opened)
    (hmessage : message ∈ opened) (h : addFields message fields c = .ok ((), c')) :
    c.Grows opened c' := by
  refine forM_ok_induct (P := fun d => c.Grows opened d) (fun field _ d d' hstep hd => ?_) h (.refl c)
  obtain ⟨d₁, hadd, rfl⟩ := addPropertyField_ok hstep
  have hd₁ := hd.trans (addField_grows hmessage hadd)
  exact hd₁.trans (.importing (hd₁.package ▸ hpackage) _)

/-! ## Runs -/

theorem compileReference_ok {ref : String} {d : Definition} {c c' : Compilation}
    (h : compileReference ref c = .ok (d, c')) :
    (c.definition? ref = some d ∧ c' = c) ∨
      (c.definition? ref = none ∧ c.deferring = true ∧ d = .type (.node c.graph.size) ∧
        c' = c.withNode (.reference ref)) := by
  unfold compileReference at h
  rw [get_bind] at h
  rcases hd : c.definition? ref with _ | d' <;> rw [hd] at h
  · dsimp only at h
    rw [get_bind] at h
    split at h
    · next hdefer =>
      simp only [newNode_bind, pure_run, Except.ok.injEq, Prod.mk.injEq] at h
      exact .inr ⟨rfl, hdefer, h.1.symm, h.2.symm⟩
    · simp at h
  · simp only [pure_run, Except.ok.injEq, Prod.mk.injEq] at h
    exact .inl ⟨congrArg some h.1, h.2.symm⟩

variable {env : Environment} {scope : Scope} {opened : List Nat} {c c' : Compilation}

theorem compileReference_grows {ref : String} {d : Definition}
    (h : compileReference ref c = .ok (d, c')) : c.Grows opened c' := by
  rcases compileReference_ok h with ⟨-, rfl⟩ | ⟨-, -, -, rfl⟩
  · exact .refl _
  · exact .withNode c _

/-- A run only adds, and what it changes besides the containers of its scope is new. -/
theorem Runs.grows {ts : List TypeRef} (h : Runs env scope c ts c') (hpackage : c.package ∈ scope) :
    c.Grows scope c' := by
  induction h with
  | nil => exact .refl _
  | cons _ _ ih ih' =>
    have hfirst := ih hpackage
    exact hfirst.trans (ih' (hfirst.package ▸ hpackage))
  | builtin b _ ih => exact ih hpackage
  | importing name _ ih =>
    have hrun := ih hpackage
    exact hrun.trans (.importing (hrun.package ▸ hpackage) name)
  | reference href => exact compileReference_grows href
  | found => exact .refl _
  | declared _ ih => exact (ih hpackage).trans (.declareHere (List.Subset.refl _) _)
  | enumeration => exact (Compilation.Grows.withNode _ _).trans (.declareHere (List.Subset.refl _) _)
  | map _ ih => exact (ih hpackage).trans (.withNode _ _)
  | objectWrapper rawName field about comment _ ih =>
    exact ((ih hpackage).trans (.withNode _ _)).trans (.declareHere (List.Subset.refl _) _)
  | @sharedWrapper scope c c₁ ref d rawName _ hitem =>
    have href : c.Grows scope c₁ := compileReference_grows hitem
    have hnode := href.trans (.withNode c₁ (.message (listWrapper
      (listWrapperName env.spec c₁ (Name.pascal rawName)) "items" (Name.pascal rawName)
      (.text "") d.unwrap)))
    exact (hnode.trans (.remember _ _ _)).trans (.declare (href.package ▸ hpackage) _)
  | wrapped => exact .refl _
  | @message scope c c₁ c₂ ts rawName comment fields _ _ _ hadd ih =>
    have hnode : c.Grows (c.graph.size :: scope) _ :=
      .withNode c (.message ⟨Name.pascal rawName, [], [], comment⟩)
    have hinner := hnode.trans (ih (List.mem_cons_of_mem _ hpackage))
    have hpackage' : c₁.package ∈ c.graph.size :: scope :=
      hinner.package ▸ List.mem_cons_of_mem _ hpackage
    have hfields := hinner.trans (addFields_grows hpackage' (List.mem_cons_self ..) hadd)
    exact (hfields.of_cons (Nat.le_refl _)).trans (.declareHere (List.Subset.refl _) _)
  | @arrayResponse scope c c₁ item name _ _ ih =>
    have hrun := ih hpackage
    have hnode := hrun.trans (.withNode c₁ (.message (arrayMessage name item)))
    exact (hnode.trans (.importing (hnode.package ▸ hpackage) _)).trans
      (.declareHere (List.Subset.refl _) _)

/-! ## Building -/

theorem defining_grows (ref : String) (d : Definition) : c.Grows opened (c.defining ref d) := by
  unfold Compilation.defining
  split
  · exact .refl c
  · exact { (Compilation.Grows.refl c : c.Grows opened c) with
      definitions := List.prefix_append .. }

theorem importingAll_grows (hpackage : c.package ∈ opened) (names : List String) :
    c.Grows opened (c.importingAll names) := by
  induction names generalizing c with
  | nil => exact .refl c
  | cons name rest ih =>
    have hfirst : c.Grows opened (c.importing name) := .importing hpackage name
    exact hfirst.trans (ih (hfirst.package ▸ hpackage))

theorem extending_grows (hpackage : c.package ∈ opened) (e : Proto.Extension) :
    c.Grows opened (c.extending e) := by
  have hnode : c.Grows opened (c.withNode (.extension e)) := .withNode c _
  exact hnode.trans (.addChild hpackage _)

/-- An import leaves all nodes but packages as they are. -/
theorem node?_importing {id : Nat} {n : Node} (hn : c.graph.node? id = some n)
    (hsame : ∀ file, n.withImport file = n) (name : String) :
    (c.importing name).graph.node? id = some n := by
  unfold Compilation.importing
  split
  · next file _ =>
    show (c.graph.addImport c.package file).node? id = some n
    rw [Graph.node?_addImport, hn, Option.map_some, hsame, ite_self]
  · exact hn

/-- Only packages are changed by an import. -/
theorem node?_of_importing {id : Nat} {n : Node} (hn : ∀ p, n ≠ .package p) {name : String}
    (h : (c.importing name).graph.node? id = some n) : c.graph.node? id = some n := by
  unfold Compilation.importing at h
  split at h
  · next file _ =>
    have hadd : (c.graph.addImport c.package file).node? id = some n := h
    rw [Graph.node?_addImport] at hadd
    split at hadd
    · obtain ⟨n₀, hn₀, rfl⟩ := Option.map_eq_some_iff.1 hadd
      cases n₀ with
      | package p =>
        obtain ⟨p', hp'⟩ := Node.withImport_package file p
        exact absurd hp' (hn p')
      | _ => exact hn₀
    · exact hadd
  · exact h

theorem node?_of_service? {id : Nat} {s : Service TypeRef} {g : Graph}
    (h : g.service? id = some s) : g.node? id = some (.service s) := by
  unfold Graph.service? at h
  split at h
  · next hn =>
    obtain rfl := Option.some.inj h
    exact hn
  · cases h

/-- A procedure is appended to the service, after the imports for its request and response. -/
theorem serving_cases (rpc : Rpc TypeRef) :
    c.serving rpc = c ∨ ∃ s c₁ c₂, c₁ = c.importing (c.graph.typeName rpc.parameter) ∧
      c₂ = c₁.importing (c₁.graph.typeName rpc.response) ∧ c₂.service = c.service ∧
      c₂.graph.node? c.service = some (.service s) ∧
      c.serving rpc = { c₂ with
        graph := c₂.graph.put c.service (.service { s with rpcs := s.rpcs ++ [rpc] }) } := by
  have hservice : ∀ (c : Compilation) (name : String), (c.importing name).service = c.service := by
    intro c name
    unfold Compilation.importing
    split <;> rfl
  unfold Compilation.serving
  rcases hs : c.graph.service? c.service with _ | s
  · exact .inl rfl
  · dsimp only
    split
    · exact .inl rfl
    · have hnode := node?_importing
        (node?_importing (node?_of_service? hs) (fun _ => rfl) (c.graph.typeName rpc.parameter))
        (fun _ => rfl) ((c.importing (c.graph.typeName rpc.parameter)).graph.typeName rpc.response)
      have hkept := (hservice (c.importing (c.graph.typeName rpc.parameter))
        ((c.importing (c.graph.typeName rpc.parameter)).graph.typeName rpc.response)).trans
          (hservice c (c.graph.typeName rpc.parameter))
      refine .inr ⟨s, _, _, rfl, rfl, hkept, hnode, ?_⟩
      rw [hkept]

theorem serving_grows (hpackage : c.package ∈ opened) (hservice : c.service ∈ opened)
    (rpc : Rpc TypeRef) : c.Grows opened (c.serving rpc) := by
  rcases serving_cases (c := c) rpc with h | ⟨s, c₁, c₂, rfl, rfl, -, hnode, h⟩ <;> rw [h]
  · exact .refl c
  · have hparameter : c.Grows opened (c.importing (c.graph.typeName rpc.parameter)) :=
      .importing hpackage _
    have hresponse := hparameter.trans (.importing (hparameter.package ▸ hpackage)
      ((c.importing (c.graph.typeName rpc.parameter)).graph.typeName rpc.response))
    exact hresponse.trans (.put hservice hnode (.service rfl (List.prefix_append ..)))

theorem Builds.grows {package : Nat} (h : Builds env package c c') (hp : c.package = package) :
    c.Grows [package, c.service] c' := by
  induction h with
  | refl => exact .refl c
  | importFile file _ ih => exact ih.trans (.importFile (by simp [ih.package, hp]) file)
  | define ref d _ hrun ih =>
    have hgrows := hrun.grows (by simp [ih.package, hp])
    exact (ih.trans (hgrows.mono (by simp))).trans (defining_grows ref d)
  | extension e _ ih =>
    have himports := ih.trans (importingAll_grows (by simp [ih.package, hp])
      (e.fields.map (·.type) ++ [e.base]))
    exact himports.trans (extending_grows (by simp [himports.package, hp]) e)
  | procedure rpc _ hrun ih =>
    have hgrows := ih.trans ((hrun.grows (by simp [ih.package, hp])).mono (by simp))
    exact hgrows.trans (serving_grows (by simp [hgrows.package, hp]) (by simp [hgrows.service]) rpc)

/-! ## Changes of the graph alone -/

/-- A change of the graph and of nothing else. -/
def Compilation.ChangesGraph (c c' : Compilation) : Prop := ∃ g, c' = { c with graph := g }

namespace Compilation.ChangesGraph

theorem refl (c : Compilation) : c.ChangesGraph c := ⟨c.graph, rfl⟩

theorem trans {c₁ : Compilation} (h : c.ChangesGraph c₁) (h' : c₁.ChangesGraph c') :
    c.ChangesGraph c' := by
  obtain ⟨_, rfl⟩ := h
  obtain ⟨g, rfl⟩ := h'
  exact ⟨g, rfl⟩

theorem registry (h : c.ChangesGraph c') : c'.registry = c.registry := by
  obtain ⟨_, rfl⟩ := h
  rfl

theorem service (h : c.ChangesGraph c') : c'.service = c.service := by
  obtain ⟨_, rfl⟩ := h
  rfl

theorem definitions (h : c.ChangesGraph c') : c'.definitions = c.definitions := by
  obtain ⟨_, rfl⟩ := h
  rfl

theorem wrappers (h : c.ChangesGraph c') : c'.wrappers = c.wrappers := by
  obtain ⟨g, rfl⟩ := h
  rfl

theorem importing (c : Compilation) (name : String) : c.ChangesGraph (c.importing name) := by
  unfold Compilation.importing
  split
  · exact ⟨_, rfl⟩
  · exact .refl c

theorem importingAll (c : Compilation) (names : List String) :
    c.ChangesGraph (c.importingAll names) := by
  induction names generalizing c with
  | nil => exact .refl c
  | cons name rest ih => exact (importing c name).trans (ih _)

theorem extending (c : Compilation) (e : Proto.Extension) : c.ChangesGraph (c.extending e) :=
  ⟨_, rfl⟩

theorem serving (c : Compilation) (rpc : Rpc TypeRef) : c.ChangesGraph (c.serving rpc) := by
  rcases serving_cases (c := c) rpc with h | ⟨s, c₁, c₂, rfl, rfl, -, -, h⟩ <;> rw [h]
  · exact .refl c
  · exact ((importing c _).trans (importing _ _)).trans ⟨_, rfl⟩

theorem addFields {message : Nat} {fields : List (CompiledProperty × Int)}
    (h : addFields message fields c = .ok ((), c')) : c.ChangesGraph c' := by
  refine forM_ok_induct (P := c.ChangesGraph) (fun field _ d d' hstep hd => ?_) h (.refl c)
  obtain ⟨d₁, hadd, rfl⟩ := addPropertyField_ok hstep
  refine hd.trans (ChangesGraph.trans ?_ (importing d₁ _))
  rcases addField_ok hadd with ⟨-, rfl⟩ | ⟨m, -, -, -, rfl⟩
  · exact .refl d₁
  · exact ⟨_, rfl⟩

end Compilation.ChangesGraph

end ApiProto.Compile
