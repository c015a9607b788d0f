import ApiProto.Proofs.Visibility

/-!
# Homes

Every node has a home: the scope in which it has been made. What stands in a message or a map is
visible from there, and a type is only declared in scopes that hold its home. So a name that is
visible from the home of a type is visible from wherever the type is declared.

* `Sound` — a type that may stand in a scope.
* `Homed` — all that stands in a state is sound where it stands.
* `Active` — what is known of the scope in which something is compiled.
-/

namespace ApiProto.Proto

/-- The types that stand in a node: those of fields, values and procedures. -/
def Node.uses : Node → List TypeRef
  | .message m => m.fields.map (·.type)
  | .map _ value => [value]
  | .service s => s.rpcs.flatMap fun rpc => [rpc.parameter, rpc.response]
  | _ => []

/-- The scope in which the types of a node stand, given its home. -/
def Node.place (package id : Nat) (home : Scope) : Node → Scope
  | .message _ => id :: home
  | .service _ => [package]
  | _ => home

theorem Node.Grows.place_eq {n n' : Node} (h : n.Grows n') (package id : Nat) (home : Scope) :
    n'.place package id home = n.place package id home := by
  cases h <;> rfl

theorem Node.subset_place {n : Node} (hn : ∀ s, n ≠ .service s) (package id : Nat) (home : Scope) :
    home ⊆ n.place package id home := by
  cases n with
  | message m => exact List.subset_cons_self _ _
  | service s => exact absurd rfl (hn s)
  | _ => exact List.Subset.refl _

theorem Node.uses_subset_mentions (n : Node) : n.uses ⊆ n.mentions := by
  cases n with
  | message m => exact List.subset_append_right _ _
  | map key value => exact List.subset_cons_self _ _
  | _ => exact List.Subset.refl _

end ApiProto.Proto

namespace ApiProto.Compile

open Proto Document CompileM

/-- A type that may stand in a scope: a message or an enum must be at home in it, and a type of its
name visible from it, unless it is a shared list wrapper. -/
def Sound (home : Nat → Scope) (c : Compilation) (scope : Scope) (t : TypeRef) : Prop :=
  c.graph.Has t ∧ ∀ id, t = .node id → c.graph.IsReference t ∨ home id ⊆ scope ∧
    (c.graph.isDeclared t = true →
      c.Visible scope (c.graph.typeName t) ∨ ∃ base, (base, id) ∈ c.wrappers)

/-- All that stands in a state is sound where it stands. -/
structure Homed (home : Nat → Scope) (c : Compilation) : Prop where
  closed : c.Closed
  registered : c.Registered
  package : home c.package = []
  around : ∀ id, id ≠ c.package → c.package ∈ home id
  uses : ∀ id n, c.graph.node? id = some n → ∀ t ∈ n.uses, Sound home c (n.place c.package id (home id)) t
  edges : ∀ entry ∈ c.registry.log, home entry.2 ⊆ entry.1 :: home entry.1
  definitions : ∀ entry ∈ c.definitions, Sound home c [c.package] entry.2.unwrap
  wrappers : ∀ entry ∈ c.wrappers, home entry.2 = [c.package]

variable {home home' : Nat → Scope} {c c' : Compilation} {scope scope' opened : Scope}

theorem Sound.builtin (home : Nat → Scope) (c : Compilation) (scope : Scope) (b : Builtin) :
    Sound home c scope (.builtin b) :=
  ⟨trivial, fun _ heq => nomatch heq⟩

theorem Sound.subset {t : TypeRef} (h : Sound home c scope t) (hsub : scope ⊆ scope') :
    Sound home c scope' t := by
  refine ⟨h.1, fun id hid => ?_⟩
  rcases h.2 id hid with href | ⟨hhome, hvisible⟩
  · exact .inl href
  · exact .inr ⟨fun x hx => hsub (hhome hx),
      fun hdeclared => (hvisible hdeclared).imp_left fun hv => hv.subset hsub⟩

theorem Sound.of_grows {t : TypeRef} (h : Sound home c scope t) (hr : c.Registered)
    (hgrows : c.Grows opened c') (hhome : ∀ id, id < c.graph.size → home' id = home id) :
    Sound home' c' scope t := by
  refine ⟨h.1.mono hgrows.size_le, fun id hid => ?_⟩
  subst hid
  have hlt : id < c.graph.size := h.1
  obtain ⟨n, hn⟩ := Graph.node?_isSome hlt
  rcases h.2 id rfl with ⟨_, ref, heq, href⟩ | ⟨hsub, hvisible⟩
  · obtain rfl := TypeRef.node.inj heq
    obtain ⟨n', hn', hgrow⟩ := hgrows.nodes id _ href
    cases hgrow
    exact .inl ⟨id, ref, rfl, hn'⟩
  · refine .inr ⟨hhome id hlt ▸ hsub, fun hdeclared => ?_⟩
    rw [hgrows.nodes.isDeclared_node hn] at hdeclared
    rw [hgrows.nodes.keepsNames.typeName_eq_of_isDeclared hdeclared]
    rcases hvisible hdeclared with hv | ⟨base, hmem⟩
    · exact .inl (hv.of_grows hr hgrows)
    · exact .inr ⟨base, hgrows.wrappers.subset hmem⟩

namespace Homed

variable (h : Homed home c)
include h

theorem container_lt {entry : Nat × Nat} (hentry : entry ∈ c.registry.log) :
    entry.1 < c.graph.size := by
  have hmem := (h.registered.children entry.1 entry.2 (h.registered.declared _ hentry)).2 hentry
  rcases hn : c.graph.node? entry.1 with _ | n
  · simp [Graph.children, hn] at hmem
  · exact Graph.lt_size_of_node? hn

/-- A state that has grown has all at home if it does what is new. -/
theorem of_grows (hgrows : c.Grows opened c') (hclosed : c'.Closed) (hregistered : c'.Registered)
    (hhome : ∀ id, id < c.graph.size → home' id = home id)
    (haround : ∀ id, id ≠ c.package → c.package ∈ home' id)
    (huses : ∀ id n', c'.graph.node? id = some n' → ∀ t ∈ n'.uses,
      (∀ n, c.graph.node? id = some n → t ∉ n.uses) → Sound home' c' (n'.place c.package id (home' id)) t)
    (hedges : ∀ entry ∈ c'.registry.log, entry ∉ c.registry.log →
      home' entry.2 ⊆ entry.1 :: home' entry.1)
    (hdefinitions : ∀ entry ∈ c'.definitions, entry ∉ c.definitions →
      Sound home' c' [c.package] entry.2.unwrap)
    (hwrappers : ∀ entry ∈ c'.wrappers, entry ∉ c.wrappers → home' entry.2 = [c.package]) :
    Homed home' c' where
  closed := hclosed
  registered := hregistered
  package := by
    obtain ⟨p, hp⟩ := h.closed.package
    rw [hgrows.package, hhome _ (Graph.lt_size_of_node? hp), h.package]
  around := by
    rw [hgrows.package]
    exact haround
  uses id n' hn' t ht := by
    by_cases hold : ∃ n, c.graph.node? id = some n ∧ t ∈ n.uses
    · obtain ⟨n, hn, hmem⟩ := hold
      obtain ⟨n'', hn'', hgrow⟩ := hgrows.nodes id n hn
      obtain rfl := Option.some.inj (hn'.symm.trans hn'')
      rw [hgrow.place_eq, hgrows.package, hhome id (Graph.lt_size_of_node? hn)]
      exact (h.uses id n hn t hmem).of_grows h.registered hgrows hhome
    · rw [hgrows.package]
      exact huses id n' hn' t ht fun n hn hmem => hold ⟨n, hn, hmem⟩
  edges entry hentry := by
    by_cases hold : entry ∈ c.registry.log
    · rw [hhome _ (h.container_lt hold), hhome _ (h.closed.log entry hold)]
      exact h.edges entry hold
    · exact hedges entry hentry hold
  definitions entry hentry := by
    rw [hgrows.package]
    by_cases hold : entry ∈ c.definitions
    · exact (h.definitions entry hold).of_grows h.registered hgrows hhome
    · exact hdefinitions entry hentry hold
  wrappers entry hentry := by
    rw [hgrows.package]
    by_cases hold : entry ∈ c.wrappers
    · rw [hhome _ (h.closed.wrappers entry hold), h.wrappers entry hold]
    · exact hwrappers entry hentry hold

/-- A state that has only got imports or declarations has all at home. -/
theorem of_same_uses (hgrows : c.Grows opened c') (hclosed : c'.Closed)
    (hregistered : c'.Registered)
    (hsame : ∀ id n', c'.graph.node? id = some n' →
      ∃ n, c.graph.node? id = some n ∧ n'.uses = n.uses)
    (hedges : ∀ entry ∈ c'.registry.log, entry ∉ c.registry.log →
      home entry.2 ⊆ entry.1 :: home entry.1)
    (hdefinitions : c'.definitions = c.definitions) (hwrappers : c'.wrappers = c.wrappers) :
    Homed home c' := by
  refine h.of_grows hgrows hclosed hregistered (fun _ _ => rfl) h.around
    (fun id n' hn' t ht hnew => ?_) hedges (fun entry hmem hnew => ?_) fun entry hmem hnew => ?_
  · obtain ⟨n, hn, huses⟩ := hsame id n' hn'
    exact absurd (huses ▸ ht) (hnew n hn)
  · exact absurd (hdefinitions ▸ hmem) hnew
  · exact absurd (hwrappers ▸ hmem) hnew

theorem importFile (file : String) : Homed home (c.importFile file) := by
  have hgrows : c.Grows [c.package] (c.importFile file) := .importFile (by simp) file
  refine h.of_same_uses hgrows (h.closed.importFile file) (h.registered.importFile file)
    (fun id n' hn' => ?_) (fun _ hmem hnew => absurd hmem hnew) rfl rfl
  have hnode : (c.graph.addImport c.package file).node? id = some n' := hn'
  rw [Graph.node?_addImport] at hnode
  split at hnode
  · obtain ⟨n, hn, rfl⟩ := Option.map_eq_some_iff.1 hnode
    refine ⟨n, hn, ?_⟩
    cases n with
    | package p =>
      rw [Node.withImport]
      split <;> rfl
    | _ => rfl
  · exact ⟨n', hnode, rfl⟩

theorem importing (name : String) : Homed home (c.importing name) := by
  unfold Compilation.importing
  split
  · exact h.importFile _
  · exact h

/-- A type is declared in a container whose scope holds its home. -/
theorem declare (scope : Scope) {parent : Nat} (hparent : c.graph.IsContainer parent) {t : TypeRef}
    (ht : c.graph.Has t)
    (hhome : ∀ id, t = .node id → c.graph.isDeclared t = true → home id ⊆ parent :: home parent) :
    Homed home (c.declare scope parent t) := by
  have hgrows : c.Grows [parent] (c.declare scope parent t) := .declare (by simp) t
  have hclosed : (c.declare scope parent t).Closed := h.closed.declare ht
  have hregistered := h.registered.declare scope hparent t
  unfold Compilation.declare at *
  rcases Registry.register_cases c.graph c.registry t parent scope with
    ⟨heq, -⟩ | ⟨id, hid, hdeclared, -, -, ⟨-, heq⟩ | ⟨-, heq⟩⟩ <;>
    rw [heq] at hgrows hclosed hregistered ⊢
  · exact h
  · exact h.of_same_uses hgrows hclosed hregistered (fun id n' hn' => ⟨n', hn', rfl⟩)
      (fun _ hmem hnew => absurd hmem hnew) rfl rfl
  · refine h.of_same_uses hgrows hclosed hregistered (fun id n' hn' => ?_) (fun entry hmem hnew => ?_)
      rfl rfl
    · have hnode : (c.graph.addChild parent t).node? id = some n' := hn'
      rw [Graph.node?_addChild] at hnode
      split at hnode
      · obtain ⟨n, hn, rfl⟩ := Option.map_eq_some_iff.1 hnode
        exact ⟨n, hn, by cases n <;> rfl⟩
      · exact ⟨n', hnode, rfl⟩
    · rcases List.mem_append.1 hmem with hold | hlast
      · exact absurd hold hnew
      · obtain rfl := List.mem_singleton.1 hlast
        exact hhome id hid hdeclared

end Homed

/-- The homes of nodes, with one for a new node. -/
def settle (home : Nat → Scope) (id : Nat) (scope : Scope) : Nat → Scope :=
  fun k => if k = id then scope else home k

theorem settle_self (home : Nat → Scope) (id : Nat) (scope : Scope) :
    settle home id scope id = scope := if_pos rfl

theorem settle_of_ne {id k : Nat} (h : k ≠ id) : settle home id scope k = home k := if_neg h

theorem settle_of_lt {id k : Nat} (h : k < id) : settle home id scope k = home k :=
  settle_of_ne (Nat.ne_of_lt h)

/-- A node is added in a scope. -/
theorem Homed.withNode (h : Homed home c) (hpackage : c.package ∈ scope) {n : Node}
    (hmentions : ∀ t ∈ n.mentions, c.graph.Has t)
    (hplain : ∀ name, n.isDeclared = true → n.ownName? = some name → Name.IsPlain name)
    (hn : n.declarations = []) (hservice : ∀ s, n ≠ .service s)
    (huses : ∀ t ∈ n.uses, Sound home c scope t) :
    Homed (settle home c.graph.size scope) (c.withNode n) := by
  have hgrows : c.Grows [] (c.withNode n) := .withNode c n
  have hhome : ∀ id, id < c.graph.size → settle home c.graph.size scope id = home id :=
    fun id hid => settle_of_lt hid
  refine h.of_grows hgrows (h.closed.withNode hmentions) (h.registered.withNode hplain hn) hhome
    (fun id hid => ?_) (fun id n' hn' t ht hnew => ?_) (fun _ hmem hnew => absurd hmem hnew)
    (fun _ hmem hnew => absurd hmem hnew) (fun _ hmem hnew => absurd hmem hnew)
  · rcases Decidable.em (id = c.graph.size) with rfl | hne
    · rwa [settle_self]
    · rw [settle_of_ne hne]
      exact h.around id hid
  · have hadd : (c.graph.add n).1.node? id = some n' := hn'
    rw [Graph.node?_add] at hadd
    split at hadd
    · next hid =>
      obtain rfl := Option.some.inj hadd
      rw [hid, settle_self]
      exact ((huses t ht).of_grows h.registered hgrows hhome).subset
        (Node.subset_place hservice _ _ scope)
    · exact absurd ht (hnew n' hadd)

theorem Homed.remember (h : Homed home c) (base : String) {wrapper : Nat}
    (hw : c.graph.Has (.node wrapper)) (hhome : home wrapper = [c.package]) :
    Homed home (c.remember base wrapper) := by
  have hgrows : c.Grows [] (c.remember base wrapper) := .remember c base wrapper
  refine h.of_grows hgrows (h.closed.remember base hw)
    ⟨h.registered.inside, h.registered.declared, h.registered.plain, h.registered.children,
      h.registered.inner⟩
    (fun _ _ => rfl) h.around (fun id n' hn' t ht hnew => absurd ht (hnew n' hn'))
    (fun _ hmem hnew => absurd hmem hnew) (fun _ hmem hnew => absurd hmem hnew)
    (fun entry hmem hnew => ?_)
  rcases List.mem_append.1 hmem with hold | hlast
  · exact absurd hold hnew
  · obtain rfl := List.mem_singleton.1 hlast
    exact hhome

/-- A node gets types that are sound where it stands. -/
theorem Homed.put (h : Homed home c) {id : Nat} {n n' : Node} (hn : c.graph.node? id = some n)
    (hgrow : n.Grows n') (hsame : n'.declarations = n.declarations)
    (hpackage : ∀ p, n ≠ .package p) (hmentions : ∀ t ∈ n'.mentions, t ∈ n.mentions ∨ t ∈ n'.uses)
    (huses : ∀ t ∈ n'.uses, t ∉ n.uses → Sound home c (n.place c.package id (home id)) t) :
    Homed home { c with graph := c.graph.put id n' } := by
  have hgrows : c.Grows [id] { c with graph := c.graph.put id n' } := .put (by simp) hn hgrow
  have hclosed : Compilation.Closed { c with graph := c.graph.put id n' } := by
    refine h.closed.put hn (fun t ht => ?_) fun p hp => absurd hp (hpackage p)
    rcases hmentions t ht with hold | huse
    · exact .inl hold
    · by_cases hmem : t ∈ n.uses
      · exact .inl (n.uses_subset_mentions hmem)
      · exact .inr (huses t huse hmem).1
  refine h.of_grows hgrows hclosed (h.registered.put hn hgrow hsame) (fun _ _ => rfl) h.around
    (fun k m hm t ht hnew => ?_) (fun _ hmem hnew => absurd hmem hnew)
    (fun _ hmem hnew => absurd hmem hnew) (fun _ hmem hnew => absurd hmem hnew)
  rcases Decidable.em (k = id) with rfl | hne
  · obtain rfl := Option.some.inj ((Graph.node?_put_self hn n').symm.trans hm)
    rw [hgrow.place_eq]
    exact (huses t ht (hnew n hn)).of_grows h.registered hgrows fun _ _ => rfl
  · exact absurd ht (hnew m ((Graph.node?_put_of_ne hne n').symm.trans hm))

theorem Homed.addField (h : Homed home c) {message : Nat} {f : Proto.Field TypeRef Value}
    (hf : Sound home c (message :: home message) f.type)
    (hadd : addField message f c = .ok ((), c')) : Homed home c' := by
  rcases addField_ok hadd with ⟨-, rfl⟩ | ⟨m, hm, -, -, rfl⟩
  · exact h
  · refine h.put (Graph.node?_of_message? hm)
      (.message rfl rfl (List.prefix_append ..) List.prefix_rfl) rfl (by simp) (fun t ht => ?_)
      fun t ht hnew => ?_
    · exact (List.mem_append.1 ht).imp_left (List.mem_append_left _)
    · simp only [Node.uses, List.map_append, List.mem_append, List.map_cons, List.map_nil,
        List.mem_singleton] at ht hnew
      obtain rfl := ht.resolve_left hnew
      exact hf

theorem Homed.addFields (h : Homed home c) {message : Nat}
    {fields : List (CompiledProperty × Int)}
    (hf : ∀ field ∈ fields, Sound home c (message :: home message) field.1.type)
    (hadd : addFields message fields c = .ok ((), c')) : Homed home c' := by
  refine (forM_ok_induct (P := fun d => Homed home d ∧ c.Grows [message, c.package] d)
    (fun field hfield d d' hstep hd => ?_) hadd ⟨h, .refl c⟩).1
  obtain ⟨d₁, hadd, rfl⟩ := addPropertyField_ok hstep
  have hgrows : d.Grows [message, c.package] d₁ := addField_grows (by simp) hadd
  have hsound := (hf field hfield).of_grows h.registered hd.2 fun _ _ => rfl
  have himport : d₁.Grows [message, c.package] (d₁.importing _) :=
    .importing (by simp [hgrows.package, hd.2.package])
      (d₁.graph.typeName (importedType d₁.graph field.1.type))
  exact ⟨(hd.1.addField hsound hadd).importing _, (hd.2.trans hgrows).trans himport⟩

theorem Homed.defining (h : Homed home c) (ref : String) {d : Definition}
    (hd : Sound home c [c.package] d.unwrap) : Homed home (c.defining ref d) := by
  have hgrows : c.Grows [] (c.defining ref d) := defining_grows ref d
  have hclosed := h.closed.defining ref hd.1
  unfold Compilation.defining at *
  split
  · exact h
  · next hnone =>
    rw [if_neg hnone] at hgrows hclosed
    refine h.of_grows hgrows hclosed
      ⟨h.registered.inside, h.registered.declared, h.registered.plain, h.registered.children,
      h.registered.inner⟩
      (fun _ _ => rfl) h.around (fun id n' hn' t ht hnew => absurd ht (hnew n' hn'))
      (fun _ hmem hnew => absurd hmem hnew) (fun entry hmem hnew => ?_)
      (fun _ hmem hnew => absurd hmem hnew)
    rcases List.mem_append.1 hmem with hold | hlast
    · exact absurd hold hnew
    · obtain rfl := List.mem_singleton.1 hlast
      exact hd.of_grows h.registered hgrows fun _ _ => rfl

theorem Homed.importingAll (h : Homed home c) (names : List String) :
    Homed home (c.importingAll names) := by
  induction names generalizing c with
  | nil => exact h
  | cons name rest ih => exact ih (h.importing name)

end ApiProto.Compile
