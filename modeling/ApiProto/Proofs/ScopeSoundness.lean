import ApiProto.Proofs.Homes

/-!
# Soundness of scopes

What is compiled in a scope is sound there: if it is a message or an enum, a type of its name can be
found from the scope, unless it is a shared list wrapper.

* `Active` — what is known of the scope in which something is compiled.
* `Onward` — a way on from a state, with one lemma for each kind of type that is made.
* `Runs.sound`, `Builds.homed` — runs and building keep all at home.
-/

namespace ApiProto.Compile

open Proto Document CompileM
open Compilation (ChangesGraph)

variable {home home' : Nat → Scope} {c c' : Compilation} {scope opened : Scope}

/-! ## Active scopes -/

/-- A scope in which something is compiled: its containers stand in one another, and the keys of
declarations are those of visible types, or of types in containers of the scope. -/
structure Active (home : Nat → Scope) (c : Compilation) (scope : Scope) : Prop where
  package : [c.package] <:+ scope
  homes : ∀ x outer, x :: outer <:+ scope → home x = outer
  messages : ∀ x ∈ scope, x ≠ c.package → ∃ m, c.graph.node? x = some (.message m)
  taken : Taken c scope
  entered : Entered c scope scope

namespace Active

variable (ha : Active home c scope)
include ha

theorem package_mem : c.package ∈ scope := ha.package.subset (List.mem_singleton.2 rfl)

theorem cons_home_subset {x : Nat} (hx : x ∈ scope) : x :: home x ⊆ scope := by
  obtain ⟨before, outer, rfl⟩ := List.append_of_mem hx
  have hsuffix : x :: outer <:+ before ++ x :: outer := List.suffix_append ..
  rw [ha.homes x outer hsuffix]
  exact hsuffix.subset

theorem container (hc : c.Closed) {x : Nat} (hx : x ∈ scope) : c.graph.IsContainer x := by
  rcases Decidable.em (x = c.package) with rfl | hne
  · exact .inl hc.package
  · exact .inr (ha.messages x hx hne)

theorem named (hc : c.Closed) {x : Nat} (hx : x ∈ scope) : c.graph.Named x := by
  rcases ha.container hc hx with ⟨p, hp⟩ | ⟨m, hm⟩
  · exact ⟨_, _, hp, rfl⟩
  · exact ⟨_, _, hm, rfl⟩

variable (h : Homed home c)
include h

theorem sharp_not_mem {x : Nat} {outer : Scope} (hx : x :: outer <:+ scope) (houter : outer ≠ []) :
    '#' ∉ (c.graph.typeName (.node x)).toList := by
  have hne : x ≠ c.package := by
    rintro rfl
    exact houter ((ha.homes _ outer hx).symm.trans h.package)
  obtain ⟨m, hm⟩ := ha.messages x (hx.subset (List.mem_cons_self ..)) hne
  have hdeclared : c.graph.isDeclared (.node x) = true :=
    Graph.isDeclared_iff.2 ⟨_, hm, rfl⟩
  exact (h.registered.plain x hdeclared).not_mem (by decide)

/-- A scope stays active while nothing is offered. -/
theorem of_grows (hgrows : c.Grows opened c') (hkeys : c'.registry.keys = c.registry.keys)
    (hhome : ∀ id, id < c.graph.size → home' id = home id) : Active home' c' scope where
  package := by
    rw [hgrows.package]
    exact ha.package
  homes x outer hx := by
    obtain ⟨n, _, hn, -⟩ := ha.named h.closed (hx.subset (List.mem_cons_self ..))
    rw [hhome x (Graph.lt_size_of_node? hn), ha.homes x outer hx]
  messages x hx hne := by
    obtain ⟨m, hm⟩ := ha.messages x hx (hgrows.package ▸ hne)
    obtain ⟨n', hn', hgrow⟩ := hgrows.nodes x _ hm
    cases hgrow with
    | same => exact ⟨m, hn'⟩
    | message => exact ⟨_, hn'⟩
  taken := ha.taken.of_grows h.registered hgrows (fun _ hx => ha.named h.closed hx) hkeys
  entered := ha.entered.of_grows h.registered hgrows (List.suffix_refl _)
    (fun _ hx => ha.named h.closed hx) hkeys

theorem declare {parent : Nat} (hparent : parent ∈ scope) (t : TypeRef) :
    Active home (c.declare scope parent t) scope := by
  have hgrows : c.Grows scope (c.declare scope parent t) := .declare hparent t
  have hnamed : ∀ x ∈ scope, c.graph.Named x := fun x hx => ha.named h.closed hx
  refine ⟨?_, ha.homes, fun x hx hne => ?_, ?_, ?_⟩
  · rw [hgrows.package]
    exact ha.package
  · obtain ⟨m, hm⟩ := ha.messages x hx (hgrows.package ▸ hne)
    obtain ⟨n', hn', hgrow⟩ := hgrows.nodes x _ hm
    cases hgrow with
    | same => exact ⟨m, hn'⟩
    | message => exact ⟨_, hn'⟩
  · exact ha.taken.declare h.registered hparent ha.package_mem hnamed t
  · exact ha.entered.declare h.registered hparent (List.suffix_refl _) hnamed
      (fun x outer hx houter => ha.sharp_not_mem h hx houter) t

/-- A type that has been offered in its home is sound there. -/
theorem sound_declare {parent id : Nat} (hparent : parent ∈ scope) (hid : id < c.graph.size)
    (hhome : home id ⊆ scope) :
    Sound home (c.declare scope parent (.node id)) scope (.node id) := by
  have hgrows : c.Grows scope (c.declare scope parent (.node id)) := .declare hparent _
  refine ⟨Nat.lt_of_lt_of_le hid hgrows.size_le, fun k hk => .inr ⟨?_, fun hdeclared => .inl ?_⟩⟩
  · obtain rfl := TypeRef.node.inj hk
    exact hhome
  · obtain ⟨n, hn⟩ := Graph.node?_isSome hid
    rw [hgrows.nodes.isDeclared_node hn] at hdeclared
    rw [hgrows.nodes.keepsNames.typeName_eq_of_isDeclared hdeclared]
    exact visible_declare h.registered hparent ha.package_mem ha.taken hdeclared

/-- A message whose name is free is entered: nothing has been offered inside it. -/
theorem enter {name : String} (comment : Value)
    (hfree : c.registry.lookup c.graph name scope = none) (hname : '#' ∉ name.toList) :
    Active (settle home c.graph.size scope) (c.withNode (.message ⟨name, [], [], comment⟩))
      (c.graph.size :: scope) := by
  have hgrows : c.Grows [] (c.withNode (.message ⟨name, [], [], comment⟩)) := .withNode c _
  have hactive := ha.of_grows h hgrows rfl fun id hid =>
    (settle_of_lt hid : settle home c.graph.size scope id = home id)
  have hne : scope ≠ [] := List.ne_nil_of_mem ha.package_mem
  have hnode : (c.withNode (.message ⟨name, [], [], comment⟩)).graph.node? c.graph.size =
      some (.message ⟨name, [], [], comment⟩) := Graph.node?_add_self _
  have hmessage : (c.withNode (.message ⟨name, [], [], comment⟩)).graph.typeName
      (.node c.graph.size) = name := Graph.typeName_of_ownName? hnode rfl
  -- a key from inside the message would make its name visible outside
  have hfresh : ∀ rest : String, Registry.key (c.withNode (.message ⟨name, [], [], comment⟩)).graph
      (c.graph.size :: scope) rest ∉ c.registry.keys := by
    intro rest hkey
    rw [Registry.key_cons hne, hmessage,
      key_eq_of_grows hgrows fun x hx => ha.named h.closed hx] at hkey
    rcases ha.entered scope (List.suffix_refl _) hne name rest hname hkey with hvisible | ⟨x, hx, -⟩
    · exact not_visible_of_lookup hfree hvisible
    · exact absurd hx.length_le (by simp)
  refine ⟨hactive.package.trans (List.suffix_cons ..), fun x outer hx => ?_, fun x hx hxne => ?_,
    fun outer houter houterne name' hname' hkey => ?_,
    fun outer houter houterne name' rest hname' hkey => ?_⟩
  · rcases List.suffix_cons_iff.1 hx with heq | hx
    · obtain ⟨rfl, rfl⟩ := List.cons.inj heq
      exact settle_self ..
    · exact hactive.homes x outer hx
  · rcases List.mem_cons.1 hx with rfl | hx
    · exact ⟨_, hnode⟩
    · exact hactive.messages x hx hxne
  · rcases List.suffix_cons_iff.1 houter with rfl | houter
    · exact absurd hkey (hfresh name')
    · exact hactive.taken outer houter houterne name' hname' hkey
  · rcases List.suffix_cons_iff.1 houter with rfl | houter
    · refine absurd hkey ?_
      have hsplit : ∀ g : Graph, Registry.key g (c.graph.size :: scope) name' ++ "#" ++ rest =
          Registry.key g (c.graph.size :: scope) (name' ++ "#" ++ rest) := by
        intro g
        rw [Registry.key_cons hne, Registry.key_cons hne]
        simp only [String.append_assoc]
      rw [hsplit]
      exact hfresh _
    · exact (hactive.entered outer houter houterne name' rest hname' hkey).imp_right
        fun ⟨x, hx, hxname⟩ => ⟨x, hx.trans (List.suffix_cons ..), hxname⟩

end Active

/-- A message that has been compiled is offered where it stands, and its scope is left. -/
theorem Active.leave {m : Nat} (ha : Active home c (m :: scope)) (h : Homed home c)
    (hpackage : [c.package] <:+ scope) : Homed home (c.declareHere scope (.node m)) ∧
      Active home (c.declareHere scope (.node m)) scope ∧
      Sound home (c.declareHere scope (.node m)) scope (.node m) := by
  have hsuffix : scope <:+ m :: scope := List.suffix_cons ..
  have hhome : home m = scope := ha.homes m scope (List.suffix_refl _)
  obtain ⟨msg, hm⟩ : ∃ msg, c.graph.node? m = some (.message msg) := by
    refine ha.messages m (List.mem_cons_self ..) ?_
    rintro rfl
    rw [h.package] at hhome
    subst hhome
    exact absurd hpackage.length_le (by simp)
  have hlt := Graph.lt_size_of_node? hm
  have hdeclared : c.graph.isDeclared (.node m) = true := Graph.isDeclared_iff.2 ⟨_, hm, rfl⟩
  have htaken : Taken c scope := fun outer houter => ha.taken outer (houter.trans hsuffix)
  have hentered : Entered c scope (m :: scope) := fun outer houter =>
    ha.entered outer (houter.trans hsuffix)
  have hpackage_mem : c.package ∈ scope := hpackage.subset (List.mem_singleton.2 rfl)
  have hnamed : ∀ x ∈ scope, c.graph.Named x := fun x hx => ha.named h.closed (hsuffix.subset hx)
  obtain ⟨parent, outer, rfl⟩ := List.exists_cons_of_ne_nil (List.ne_nil_of_mem hpackage_mem)
  have hparent : parent ∈ parent :: outer := List.mem_cons_self ..
  have hgrows : c.Grows (parent :: outer) (c.declare (parent :: outer) parent (.node m)) :=
    .declare hparent _
  have hvisible := visible_declare h.registered hparent hpackage_mem htaken hdeclared
  have hentered' := hentered.declare h.registered hparent hsuffix
    (fun x hx => ha.named h.closed hx) (fun x outer hx hne => ha.sharp_not_mem h hx hne) (.node m)
  have hname := hgrows.nodes.keepsNames.typeName_eq_of_isDeclared hdeclared
  refine ⟨h.declare _ (ha.container h.closed (hsuffix.subset hparent)) hlt fun id hid _ => ?_,
    ⟨?_, fun x rest hx => ha.homes x rest (hx.trans hsuffix), fun x hx hne => ?_,
      htaken.declare h.registered hparent hpackage_mem hnamed (.node m),
      fun around haround hne name rest hsharp hkey => ?_⟩,
    Nat.lt_of_lt_of_le hlt hgrows.size_le, fun id hid => .inr ⟨?_, fun _ => .inl ?_⟩⟩
  · obtain rfl := TypeRef.node.inj hid
    rw [hhome, ha.homes parent outer hsuffix]
    exact List.Subset.refl _
  · rw [Compilation.declareHere, hgrows.package]
    exact hpackage
  · obtain ⟨msg', hm'⟩ := ha.messages x (hsuffix.subset hx) (hgrows.package ▸ hne)
    obtain ⟨n', hn', hgrow⟩ := hgrows.nodes x _ hm'
    cases hgrow with
    | same => exact ⟨_, hn'⟩
    | message => exact ⟨_, hn'⟩
  · rcases hentered' around haround hne name rest hsharp hkey with hv | ⟨x, hx, hxname⟩
    · exact .inl hv
    · rcases List.suffix_cons_iff.1 hx with heq | hx
      · obtain ⟨rfl, rfl⟩ := List.cons.inj heq
        rw [← hxname, hname]
        exact .inl hvisible
      · exact .inr ⟨x, hx, hxname⟩
  · obtain rfl := TypeRef.node.inj hid
    exact hhome ▸ List.Subset.refl _
  · rw [Compilation.declareHere, hname]
    exact hvisible

/-! ## Ways on -/

/-- A way on from a state in a scope, on which homes stay what they are. -/
structure Onward (home : Nat → Scope) (c : Compilation) (scope : Scope) (home' : Nat → Scope)
    (c' : Compilation) : Prop where
  grows : c.Grows scope c'
  homes : ∀ id, id < c.graph.size → home' id = home id
  homed : Homed home' c'
  active : Active home' c' scope

namespace Onward

variable {home₁ : Nat → Scope} {c₁ : Compilation}

theorem trans (h : Onward home c scope home₁ c₁) (h' : Onward home₁ c₁ scope home' c') :
    Onward home c scope home' c' where
  grows := h.grows.trans h'.grows
  homes id hid := (h'.homes id (Nat.lt_of_lt_of_le hid h.grows.size_le)).trans (h.homes id hid)
  homed := h'.homed
  active := h'.active

/-- What is sound stays so on the way. -/
theorem sound (h : Onward home c scope home' c') (hc : Homed home c) {around : Scope} {t : TypeRef}
    (ht : Sound home c around t) : Sound home' c' around t :=
  ht.of_grows hc.registered h.grows h.homes

variable (h : Homed home c) (ha : Active home c scope)
include h ha

theorem refl : Onward home c scope home c := ⟨.refl c, fun _ _ => rfl, h, ha⟩

theorem importing (name : String) : Onward home c scope home (c.importing name) := by
  have hgrows : c.Grows scope (c.importing name) := .importing ha.package_mem name
  refine ⟨hgrows, fun _ _ => rfl, h.importing name, ha.of_grows h hgrows ?_ fun _ _ => rfl⟩
  rw [(ChangesGraph.importing _ _).registry]

theorem remember (base : String) {wrapper : Nat} (hw : c.graph.Has (.node wrapper))
    (hhome : home wrapper = [c.package]) : Onward home c scope home (c.remember base wrapper) := by
  have hgrows : c.Grows scope (c.remember base wrapper) := .remember c base wrapper
  exact ⟨hgrows, fun _ _ => rfl, h.remember base hw hhome, ha.of_grows h hgrows rfl fun _ _ => rfl⟩

theorem withNode {around : Scope} (haround : c.package ∈ around) {n : Node}
    (hmentions : ∀ t ∈ n.mentions, c.graph.Has t)
    (hplain : ∀ name, n.isDeclared = true → n.ownName? = some name → Name.IsPlain name)
    (hn : n.declarations = []) (hservice : ∀ s, n ≠ .service s)
    (huses : ∀ t ∈ n.uses, Sound home c around t) :
    Onward home c scope (settle home c.graph.size around) (c.withNode n) := by
  have hgrows : c.Grows scope (c.withNode n) := .withNode c n
  have hhome : ∀ id, id < c.graph.size → settle home c.graph.size around id = home id :=
    fun id hid => settle_of_lt hid
  exact ⟨hgrows, hhome, h.withNode haround hmentions hplain hn hservice huses,
    ha.of_grows h hgrows rfl hhome⟩

theorem declare {parent : Nat} (hparent : parent ∈ scope) {t : TypeRef} (ht : c.graph.Has t)
    (hhome : ∀ id, t = .node id → c.graph.isDeclared t = true → home id ⊆ parent :: home parent) :
    Onward home c scope home (c.declare scope parent t) :=
  ⟨.declare hparent t, fun _ _ => rfl, h.declare scope (ha.container h.closed hparent) ht hhome,
    ha.declare h hparent t⟩

theorem declareHere {t : TypeRef} (ht : c.graph.Has t)
    (hhome : ∀ id, t = .node id → c.graph.isDeclared t = true → home id ⊆ scope) :
    Onward home c scope home (c.declareHere scope t) := by
  obtain ⟨parent, outer, rfl⟩ := List.exists_cons_of_ne_nil (List.ne_nil_of_mem ha.package_mem)
  refine .declare h ha (List.mem_cons_self ..) ht ?_
  rwa [ha.homes parent outer (List.suffix_refl _)]

/-- A type that is at home in a scope is sound there once it has been declared. -/
theorem sound_declareHere {id : Nat} (hid : id < c.graph.size) (hhome : home id ⊆ scope) :
    Onward home c scope home (c.declareHere scope (.node id)) ∧
      Sound home (c.declareHere scope (.node id)) scope (.node id) := by
  refine ⟨.declareHere h ha hid fun k hk _ => TypeRef.node.inj hk ▸ hhome, ?_⟩
  obtain ⟨parent, outer, rfl⟩ := List.exists_cons_of_ne_nil (List.ne_nil_of_mem ha.package_mem)
  exact ha.sound_declare h (List.mem_cons_self ..) hid hhome

/-- A type is made in a scope and declared there. -/
theorem create {n : Node} (hmentions : ∀ t ∈ n.mentions, c.graph.Has t)
    (hplain : ∀ name, n.isDeclared = true → n.ownName? = some name → Name.IsPlain name)
    (hn : n.declarations = []) (hservice : ∀ s, n ≠ .service s)
    (huses : ∀ t ∈ n.uses, Sound home c scope t) :
    ∃ home', Onward home c scope home' ((c.withNode n).declareHere scope (.node c.graph.size)) ∧
      Sound home' ((c.withNode n).declareHere scope (.node c.graph.size)) scope
        (.node c.graph.size) := by
  have h₁ := Onward.withNode h ha ha.package_mem hmentions hplain hn hservice huses
  obtain ⟨h₂, hsound⟩ := Onward.sound_declareHere h₁.homed h₁.active (has_withNode c n)
    (by rw [settle_self]; exact List.Subset.refl _)
  exact ⟨_, h₁.trans h₂, hsound⟩

end Onward

theorem Homed.definition (h : Homed home c) {ref : String} {d : Definition}
    (hd : c.definition? ref = some d) : Sound home c [c.package] d.unwrap := by
  unfold Compilation.definition? at hd
  split at hd
  · obtain rfl := Option.some.inj hd
    exact .builtin ..
  · obtain ⟨before, after, heq, -⟩ := List.lookup_eq_some_iff.1 hd
    exact h.definitions (ref, d) (by simp [heq])

/-- A reference gives what it stands for, which is at home in the package, or stands for itself. -/
theorem compileReference_sound (h : Homed home c) (ha : Active home c scope) {ref : String}
    {d : Definition} (href : compileReference ref c = .ok (d, c')) :
    ∃ home', Onward home c scope home' c' ∧ Sound home' c' [c.package] d.unwrap := by
  rcases compileReference_ok href with ⟨hd, rfl⟩ | ⟨-, -, rfl, rfl⟩
  · exact ⟨home, .refl h ha, h.definition hd⟩
  · refine ⟨_, .withNode h ha ha.package_mem (by simp [Node.mentions]) (by simp [Node.isDeclared])
      rfl (by simp) (by simp [Node.uses]), has_withNode c _, fun id hid => .inl ?_⟩
    exact ⟨_, _, rfl, Graph.node?_add_self _⟩

/-- A shared list wrapper may stand in every scope. -/
theorem Homed.sound_wrapper (h : Homed home c) (hpackage : c.package ∈ scope)
    {entry : String × Nat} (hentry : entry ∈ c.wrappers) :
    Sound home c scope (.node entry.2) := by
  refine ⟨h.closed.wrappers entry hentry, fun id hid => .inr ⟨?_, fun _ => .inr ⟨entry.1, ?_⟩⟩⟩ <;>
    obtain rfl := TypeRef.node.inj hid
  · rw [h.wrappers entry hentry]
    simpa using hpackage
  · exact hentry

/-! ## Types that are made -/

variable {env : Environment}

/-- A map stands in the scope in which it is made, and is declared nowhere. -/
theorem Onward.map (h : Homed home c) (ha : Active home c scope) {value : TypeRef}
    (hvalue : Sound home c scope value) :
    ∃ home', Onward home c scope home' (c.withNode (.map (.builtin .string) value)) ∧
      Sound home' (c.withNode (.map (.builtin .string) value)) scope (.node c.graph.size) := by
  have honward := Onward.withNode h ha ha.package_mem
    (n := .map (.builtin .string) value) (by simpa [Node.mentions, Graph.Has] using hvalue.1)
    (by simp [Node.isDeclared]) rfl (by simp) (by simpa [Node.uses] using hvalue)
  refine ⟨_, honward, has_withNode c _, fun id hid => .inr ⟨?_, fun hdeclared => ?_⟩⟩
  · obtain rfl := TypeRef.node.inj hid
    rw [settle_self]
    exact List.Subset.refl _
  · have hmap : (c.graph.add (.map (.builtin .string) value)).1.isDeclared
        (.node c.graph.size) = false := Graph.isDeclared_of_node? (Graph.node?_add_self _)
    exact absurd (hmap.symm.trans hdeclared) (by simp)

/-- A shared list wrapper is at home in the package, and remembered before it is declared. -/
theorem Onward.sharedWrapper (h : Homed home c) (ha : Active home c scope) {item : TypeRef}
    (hitem : Sound home c [c.package] item) (env : Environment) (rawName : String) :
    let wrapped := c.withNode (.message (listWrapper
      (listWrapperName env.spec c (Name.pascal rawName)) "items" (Name.pascal rawName) (.text "")
      item))
    let shared := (wrapped.remember (Name.pascal rawName) c.graph.size).declare scope c.package
      (.node c.graph.size)
    ∃ home', Onward home c scope home' shared ∧ Sound home' shared scope (.node c.graph.size) := by
  intro wrapped shared
  have h₁ : Onward home c scope (settle home c.graph.size [c.package]) wrapped :=
    Onward.withNode h ha (List.mem_singleton.2 rfl)
      (by simpa [Node.mentions, listWrapper] using hitem.1)
      (fun name _ hname => Option.some.inj hname ▸
        listWrapperName_plain (Name.pascal_plain rawName) env.spec c) rfl (by simp)
      (by simpa [Node.uses, listWrapper] using hitem)
  have h₂ := Onward.remember h₁.homed h₁.active (Name.pascal rawName) (has_withNode c _)
    (settle_self ..)
  have h₃ := Onward.declare h₂.homed h₂.active h₂.active.package_mem
    (t := .node c.graph.size) (has_withNode c _) fun id hid _ => by
      obtain rfl := TypeRef.node.inj hid
      rw [settle_self]
      exact List.cons_subset.2 ⟨List.mem_cons_self .., List.nil_subset _⟩
  have hentry : (Name.pascal rawName, c.graph.size) ∈ shared.wrappers :=
    h₃.grows.wrappers.subset (List.mem_append_right _ (List.mem_singleton.2 rfl))
  exact ⟨_, (h₁.trans h₂).trans h₃, h₃.homed.sound_wrapper h₃.active.package_mem hentry⟩

/-- The message of a response that is an array is declared once what it lists has been imported. -/
theorem Onward.arrayResponse (h : Homed home c) (ha : Active home c scope) {item : TypeRef}
    (hitem : Sound home c scope item) {name : String} (hplain : Name.IsPlain name) :
    let made := c.withNode (.message (arrayMessage name item))
    let declared := (made.importing (made.graph.typeName item)).declareHere scope
      (.node c.graph.size)
    ∃ home', Onward home c scope home' declared ∧
      Sound home' declared scope (.node c.graph.size) := by
  intro made declared
  have h₁ : Onward home c scope (settle home c.graph.size scope) made :=
    Onward.withNode h ha ha.package_mem (by simpa [Node.mentions, arrayMessage] using hitem.1)
      (fun own _ hname => Option.some.inj hname ▸ hplain) rfl (by simp)
      (by simpa [Node.uses, arrayMessage] using hitem)
  have h₂ := Onward.importing h₁.homed h₁.active (made.graph.typeName item)
  obtain ⟨h₃, hsound⟩ := Onward.sound_declareHere h₂.homed h₂.active
    (Nat.lt_of_lt_of_le (has_withNode c _) h₂.grows.size_le)
    (by rw [settle_self]; exact List.Subset.refl _)
  exact ⟨_, (h₁.trans h₂).trans h₃, hsound⟩

/-- A message is entered, its fields are added, and it is left again, if what is compiled inside it
is sound there. -/
theorem Onward.message (h : Homed home c) (ha : Active home c scope) {c₁ c₂ : Compilation}
    {ts : List TypeRef} {rawName : String} {comment : Value}
    {fields : List (CompiledProperty × Int)}
    (hfree : c.registry.lookup c.graph (Name.pascal rawName) scope = none)
    (hinside : ∀ {home : Nat → Scope},
      Homed home (c.withNode (.message ⟨Name.pascal rawName, [], [], comment⟩)) →
      Active home (c.withNode (.message ⟨Name.pascal rawName, [], [], comment⟩))
        (c.graph.size :: scope) →
      ∃ home', Onward home (c.withNode (.message ⟨Name.pascal rawName, [], [], comment⟩))
        (c.graph.size :: scope) home' c₁ ∧ ∀ t ∈ ts, Sound home' c₁ (c.graph.size :: scope) t)
    (htypes : ∀ field ∈ fields, field.1.type ∈ ts)
    (hadd : addFields c.graph.size fields c₁ = .ok ((), c₂))
    (hgrows : c.Grows scope (c₂.declareHere scope (.node c.graph.size))) :
    ∃ home', Onward home c scope home' (c₂.declareHere scope (.node c.graph.size)) ∧
      Sound home' (c₂.declareHere scope (.node c.graph.size)) scope (.node c.graph.size) := by
  have hname := Name.pascal_plain rawName
  have hnode : Homed (settle home c.graph.size scope)
      (c.withNode (.message ⟨Name.pascal rawName, [], [], comment⟩)) :=
    h.withNode ha.package_mem (by simp [Node.mentions])
      (fun name _ heq => Option.some.inj heq ▸ hname) rfl (by simp) (by simp [Node.uses])
  obtain ⟨home₁, h₁, hts⟩ := hinside hnode (ha.enter h comment hfree (hname.not_mem (by decide)))
  have hhome : home₁ c.graph.size = scope :=
    h₁.active.homes c.graph.size scope (List.suffix_refl _)
  have hfields : Homed home₁ c₂ := h₁.homed.addFields
    (fun field hfield => hhome ▸ hts _ (htypes field hfield)) hadd
  have hadded := addFields_grows h₁.active.package_mem (List.mem_cons_self ..) hadd
  have hactive : Active home₁ c₂ (c.graph.size :: scope) :=
    h₁.active.of_grows h₁.homed hadded (by rw [(ChangesGraph.addFields hadd).registry])
      fun _ _ => rfl
  obtain ⟨hhomed, hleft, hsound⟩ := hactive.leave hfields (by
    rw [(h₁.grows.trans hadded).package]
    exact ha.package)
  refine ⟨home₁, ⟨hgrows, fun id hid => ?_, hhomed, hleft⟩, hsound⟩
  have hlt : id < (c.withNode (.message ⟨Name.pascal rawName, [], [], comment⟩)).graph.size :=
    Nat.lt_of_lt_of_le hid (@Compilation.Grows.withNode [] c _).size_le
  exact (h₁.homes id hlt).trans (settle_of_lt hid)

/-! ## Runs -/

/-- What comes out of a run in a scope is sound there. -/
theorem Runs.sound {ts : List TypeRef} (h : Runs env scope c ts c') {home : Nat → Scope}
    (hc : Homed home c) (ha : Active home c scope) :
    ∃ home', Onward home c scope home' c' ∧ ∀ t ∈ ts, Sound home' c' scope t := by
  induction h generalizing home with
  | nil => exact ⟨home, .refl hc ha, by simp⟩
  | cons _ _ ih ih' =>
    obtain ⟨home₁, h₁, hfirst⟩ := ih hc ha
    obtain ⟨home₂, h₂, hrest⟩ := ih' h₁.homed h₁.active
    refine ⟨home₂, h₁.trans h₂, fun t ht => ?_⟩
    rcases List.mem_cons.1 ht with rfl | ht
    · exact h₂.sound h₁.homed (hfirst t (by simp))
    · exact hrest t ht
  | builtin b _ ih =>
    obtain ⟨home₁, h₁, -⟩ := ih hc ha
    exact ⟨home₁, h₁, by simpa using Sound.builtin home₁ _ _ b⟩
  | importing name _ ih =>
    obtain ⟨home₁, h₁, hts⟩ := ih hc ha
    have h₂ := Onward.importing h₁.homed h₁.active name
    exact ⟨home₁, h₁.trans h₂, fun t ht => h₂.sound h₁.homed (hts t ht)⟩
  | reference href =>
    obtain ⟨home₁, h₁, hd⟩ := compileReference_sound hc ha href
    refine ⟨home₁, h₁, fun t ht => ?_⟩
    obtain rfl := List.mem_singleton.1 ht
    exact hd.subset ha.package.subset
  | @found scope c t name hfound =>
    refine ⟨home, .refl hc ha, fun s hs => ?_⟩
    obtain rfl := List.mem_singleton.1 hs
    rcases Registry.lookup_some hfound with ⟨b, rfl⟩ | ⟨container, id, rfl, hmem, hlog, hname⟩
    · exact .builtin ..
    · refine ⟨hc.closed.log _ hlog, fun k hk =>
        .inr ⟨?_, fun _ => .inl ⟨container, hmem, id, hlog, rfl⟩⟩⟩
      obtain rfl := TypeRef.node.inj hk
      exact fun x hx => ha.cons_home_subset hmem (hc.edges _ hlog hx)
  | @declared scope c c₁ t _ ih =>
    obtain ⟨home₁, h₁, hts⟩ := ih hc ha
    have ht := hts t (by simp)
    -- a reference is not declared, whatever its home
    have h₂ := Onward.declareHere h₁.homed h₁.active ht.1 fun id hid hdeclared => by
      rcases ht.2 id hid with href | ⟨hsub, -⟩
      · exact absurd href (Graph.not_isReference_of_isDeclared hdeclared)
      · exact hsub
    refine ⟨home₁, h₁.trans h₂, fun s hs => ?_⟩
    obtain rfl := List.mem_singleton.1 hs
    exact h₂.sound h₁.homed ht
  | @enumeration scope c rawName elements =>
    obtain ⟨home', h', hsound⟩ := Onward.create hc ha
      (n := .enumeration ⟨Name.pascal rawName, elements, ""⟩) (by simp [Node.mentions])
      (fun name _ hname => Option.some.inj hname ▸ Name.pascal_plain rawName) rfl (by simp)
      (by simp [Node.uses])
    exact ⟨home', h', by simpa using hsound⟩
  | @map scope c c₁ value _ ih =>
    obtain ⟨home₁, h₁, hts⟩ := ih hc ha
    obtain ⟨home₂, h₂, hsound⟩ := Onward.map h₁.homed h₁.active (hts value (by simp))
    exact ⟨home₂, h₁.trans h₂, by simpa using hsound⟩
  | @objectWrapper scope c c₁ item rawName field about comment _ ih =>
    obtain ⟨home₁, h₁, hts⟩ := ih hc ha
    have hitem := hts item (by simp)
    have hplain : Name.IsPlain (withoutMessage (Name.pascal rawName) ++ "List") :=
      ((Name.pascal_plain rawName).withoutEnd _).append (by decide)
    obtain ⟨home₂, h₂, hsound⟩ := Onward.create h₁.homed h₁.active
      (n := .message (listWrapper _ field about comment item))
      (by simpa [Node.mentions, listWrapper] using hitem.1)
      (fun name _ hname => Option.some.inj hname ▸ hplain) rfl (by simp)
      (by simpa [Node.uses, listWrapper] using hitem)
    exact ⟨home₂, h₁.trans h₂, by simpa using hsound⟩
  | @sharedWrapper scope c c₁ ref d rawName _ href =>
    obtain ⟨home₁, h₁, hd⟩ := compileReference_sound hc ha href
    rw [← h₁.grows.package] at hd
    obtain ⟨home₂, h₂, hsound⟩ := Onward.sharedWrapper h₁.homed h₁.active hd env rawName
    exact ⟨home₂, h₁.trans h₂, by simpa using hsound⟩
  | @wrapped scope c base wrapper hw =>
    refine ⟨home, .refl hc ha, fun t ht => ?_⟩
    obtain rfl := List.mem_singleton.1 ht
    obtain ⟨before, after, heq, -⟩ := List.lookup_eq_some_iff.1 hw
    have hentry : (base, wrapper) ∈ c.wrappers := by simp [heq]
    exact hc.sound_wrapper ha.package_mem hentry
  | message rawName comment fields hfree hrun htypes hadd ih =>
    have hgrows :=
      Runs.grows (.message rawName comment fields hfree hrun htypes hadd) ha.package_mem
    obtain ⟨home', h', hsound⟩ := Onward.message hc ha hfree ih htypes hadd hgrows
    exact ⟨home', h', by simpa using hsound⟩
  | @arrayResponse scope c c₁ item name hplain _ ih =>
    obtain ⟨home₁, h₁, hts⟩ := ih hc ha
    obtain ⟨home₂, h₂, hsound⟩ :=
      Onward.arrayResponse h₁.homed h₁.active (hts item (by simp)) hplain
    exact ⟨home₂, h₁.trans h₂, by simpa using hsound⟩

end ApiProto.Compile
