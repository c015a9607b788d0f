import ApiProto.Proofs.CompilationCourse
import ApiProto.Proofs.InnerSchemas

/-!
# Wrapped scalars

When scalars are to be wrapped, the fields for the properties of an object have wrapper messages in
the place of scalars. What a reference stands for is not wrapped, and neither are the items of a list
that stand for a shared parameter, or for what is defined later.

* `TypeRef.IsBare` — the scalars that have wrapper messages.
* `Schema.LeadsToReference`, `Definition.IsGiven` — schemas that end in a reference, and what is not
  compiled from a schema itself.
* `compilePropertyType_bare` — the type of a property.
* `LeftBare`, `fields_boxed` — which fields keep scalars for their types.
-/

namespace ApiProto.Proto

/-! ## Bare scalars -/

/-- A scalar that has a wrapper message. -/
def TypeRef.IsBare (t : TypeRef) : Prop := ∃ b : Builtin, t = .builtin b ∧ b.boxed ≠ b

theorem Builtin.boxed_boxed (b : Builtin) : b.boxed.boxed = b.boxed := by
  have hall : ∀ entry ∈ wrappers, entry.2.boxed = entry.2 := by decide
  rcases hb : wrappers.lookup b with _ | v
  · have hself : b.boxed = b := by rw [boxed, hb, Option.getD_none]
    rw [hself, hself]
  · have hv : b.boxed = v := by rw [boxed, hb, Option.getD_some]
    obtain ⟨before, after, heq, -⟩ := List.lookup_eq_some_iff.1 hb
    rw [hv]
    exact hall (b, v) (by simp [heq])

theorem TypeRef.not_isBare_node (id : Nat) : ¬ (TypeRef.node id).IsBare := nofun

theorem TypeRef.not_isBare_builtin {b : Builtin} (h : b.boxed = b) :
    ¬ (TypeRef.builtin b).IsBare := by
  rintro ⟨b', heq, hne⟩
  obtain rfl := TypeRef.builtin.inj heq
  exact hne h

theorem not_isBare_boxed (t : TypeRef) : ¬ (Compile.boxed t).IsBare := by
  cases t with
  | builtin b => exact TypeRef.not_isBare_builtin b.boxed_boxed
  | node id => exact TypeRef.not_isBare_node id

end ApiProto.Proto

namespace ApiProto.Name

/-! ## Names of types for properties -/

theorem isLower_toUpper (a : Char) : a.toUpper.isLower = false := by
  unfold Char.toUpper
  split
  · next hlower =>
    have hlo : 97 ≤ a.val.toNat := hlower.1
    have hhi : a.val.toNat ≤ 122 := hlower.2
    have hoffset : ('A'.val - 'a'.val).toNat = 4294967264 := by decide
    have hval : (a.val + ('A'.val - 'a'.val)).toNat = a.val.toNat - 32 := by
      rw [UInt32.toNat_add, hoffset]
      omega
    refine Bool.eq_false_iff.2 fun hcase => ?_
    have hle : 97 ≤ (a.val + ('A'.val - 'a'.val)).toNat :=
      of_decide_eq_true (Bool.and_eq_true_iff.1 hcase).1
    omega
  · next hlower =>
    refine Bool.eq_false_iff.2 fun hcase => hlower ?_
    obtain ⟨hlo, hhi⟩ := Bool.and_eq_true_iff.1 hcase
    exact ⟨of_decide_eq_true hlo, of_decide_eq_true hhi⟩

theorem isLower_head?_pascalFrom (cs : List Char) : ∀ a ∈ (pascalFrom true cs).head?,
    a.isLower = false := by
  induction cs with
  | nil => nofun
  | cons c rest ih =>
    unfold pascalFrom
    split
    · intro a ha
      obtain rfl := Option.some.inj ha
      exact isLower_toUpper c
    · exact ih

/-- The names of types for properties are not reserved. -/
theorem not_reserved_message {key name : String}
    (h : name = key ++ "Message" ∨ name = pascal (key ++ "Message")) :
    Proto.reservedTypes.lookup name = none := by
  refine List.lookup_eq_none_iff.2 fun entry hentry => bne_iff_ne.2 ?_
  rintro rfl
  rcases h with h | h
  · have hall : ∀ entry ∈ Proto.reservedTypes, entry.1.toList.getLast? ≠ some 'e' := by
      decide +kernel
    apply hall entry hentry
    rw [h, String.toList_append]
    simp
  · have hall : ∀ entry ∈ Proto.reservedTypes,
        entry.1.toList.head?.any Char.isLower = true := by
      decide +kernel
    obtain ⟨a, ha, hlower⟩ := (Option.any_eq_true _ _).1 (hall entry hentry)
    rw [h, pascal, String.toList_ofList] at ha
    have hnot := isLower_head?_pascalFrom _ a ha
    rw [hlower] at hnot
    cases hnot

end ApiProto.Name

namespace ApiProto.Compile

open Proto Document CompileM

variable {env : Environment} {g : Graph} {opened : List Nat} {scope : Scope}
  {c c₁ c' : Compilation} {name : String} {comment : Value} {s : Schema} {d : Definition}

/-! ## Schemas that lead to references -/

/-- A schema that is a reference, or a list of items that lead to one. -/
inductive LeadsToReference : Schema → Prop
  | reference {s : Schema} : s.ref.isEmpty = false → LeadsToReference s
  | items {s items : Schema} : s.denull.types = ["array"] → s.items = some items →
      LeadsToReference items → LeadsToReference s

/-- A shared parameter, or what stands for a definition that is still to come. -/
def Definition.IsGiven (g : Graph) (d : Definition) : Prop :=
  (∀ t, d ≠ .type t) ∨ g.IsReference d.unwrap

theorem not_isReference_builtin (b : Builtin) : ¬ g.IsReference (.builtin b) := nofun

theorem not_isReference_of_node? {id : Nat} {n : Node} (hn : g.node? id = some n)
    (h : ∀ ref, n ≠ .reference ref) : ¬ g.IsReference (.node id) := by
  rintro ⟨k, ref, heq, hn'⟩
  obtain rfl := TypeRef.node.inj heq
  exact h ref (Option.some.inj (hn.symm.trans hn'))

theorem not_isReference_boxed {t : TypeRef} (h : ¬ g.IsReference t) : ¬ g.IsReference (boxed t) := by
  cases t with
  | builtin b => exact not_isReference_builtin _
  | node id => exact h

theorem not_isReference_withFormat {t : TypeRef} (h : ¬ g.IsReference t) (format : String) :
    ¬ g.IsReference (withFormat format t) := by
  cases t with
  | builtin b => exact not_isReference_builtin _
  | node id => exact h

/-- A type that is visible under a name is no reference. -/
theorem not_isReference_of_lookup (hready : c.Ready scope) (hgrows : c.graph.Grows g)
    {t : TypeRef} (h : c.registry.lookup c.graph name scope = some t) : ¬ g.IsReference t := by
  rcases Registry.lookup_some h with ⟨b, rfl⟩ | ⟨container, id, rfl, -, hlog, -⟩
  · exact not_isReference_builtin _
  · exact Graph.not_isReference_of_isDeclared (isDeclared_of_grows hgrows (hready.log _ hlog))

/-- Induction along the items of lists. -/
theorem induct_items {P : Schema → Prop} (step : ∀ s, (∀ i, s.items = some i → P i) → P s)
    (s : Schema) : P s :=
  step s fun i hi =>
    have := sizeOf_items hi
    induct_items step i
termination_by sizeOf s

/-- A type that fits a schema is no reference, unless the schema leads to one. -/
theorem leadsToReference_of_fits {t : TypeRef} (hready : c.Ready scope)
    (hgrows : c.graph.Grows g) (h : Fits env g scope name s c t) (href : g.IsReference t) :
    LeadsToReference s := by
  induction s using induct_items generalizing name t with | step s ih
  cases h with
  | reference hs => exact .reference hs
  | found name _ _ hfound =>
    have hnot := not_isReference_of_lookup hready hgrows hfound
    exact absurd href (not_isReference_withFormat hnot s.format)
  | anew _ _ _ hanew =>
    cases hanew with
    | several | struct | scalar | null => exact absurd href (not_isReference_builtin _)
    | message _ _ _ hn => exact absurd href (not_isReference_of_node? hn nofun)
    | map _ _ _ _ hn => exact absurd href (not_isReference_of_node? hn nofun)
    | enumeration _ _ _ hn => exact absurd href (not_isReference_of_node? hn nofun)
    | @array _ _ _ _ items _ htypes hitems hfits =>
      have hitems : s.items = some items := s.denull_items ▸ hitems
      exact .items htypes hitems (ih items hitems hfits href)

/-- A schema that gives a shared parameter leads to a reference. -/
theorem leadsToReference_of_parameter
    (h : compileSchema env s scope name comment c = .ok (d, c')) (hd : ∀ t, d ≠ .type t) :
    LeadsToReference s := by
  induction s using induct_items generalizing name comment c' with | step s ih
  rcases compileSchema_cases h with hs | ⟨-, ⟨_, _, -, -, rfl, -⟩ | ⟨-, -, hnew⟩⟩
  · exact .reference hs
  · exact absurd rfl (hd _)
  · rcases compileNew_type_or_items hnew with ⟨t, rfl⟩ | ⟨harray, action, c₁, haction, hrun⟩
    · exact absurd rfl (hd t)
    · have htypes : s.denull.types = ["array"] := by
        refine eq_singleton_of_mem (fun hseveral => ?_) harray
        unfold compileNew at hnew
        rw [if_pos hseveral] at hnew
        obtain ⟨t, c₂, -, hpure⟩ := bind_ok_iff.1 hnew
        exact hd t (Prod.mk.inj (Except.ok.inj hpure)).1.symm
      obtain ⟨items, hitems, rfl⟩ := Option.map_eq_some_iff.1 haction
      have hitems : s.items = some items := s.denull_items ▸ hitems
      exact .items htypes hitems (ih items hitems hrun)

/-- What comes out for a schema is compiled from it, unless it leads to a reference. -/
theorem leadsToReference_of_isGiven (hopen : Opening opened scope c) (hready : c.Ready scope)
    (h : compileSchema env s scope name comment c = .ok (d, c')) (hd : d.IsGiven c'.graph) :
    LeadsToReference s := by
  rcases hd with hne | href
  · exact leadsToReference_of_parameter h hne
  · have hgrows := (compileSchema_runs env s _ _ _ _ _ _ h).grows hopen.package
    have hfits := (compileSchema_fits env s).whole c'.graph opened _ _ _ _ _ _ h hopen
      (settles_of_grown (.refl c'))
    exact leadsToReference_of_fits hready hgrows.nodes hfits href

/-! ## Properties -/

theorem compileMultiType_not_isBare {t : TypeRef} (h : compileMultiType s c = .ok (t, c')) :
    ¬ t.IsBare := by
  generalize hm : compileMultiType s = m at h
  unfold compileMultiType at hm
  split at hm
  · split at hm
    · subst hm
      obtain rfl := (Prod.mk.inj (Except.ok.inj h)).1
      exact TypeRef.not_isBare_builtin (Builtin.boxed_boxed _)
    · subst hm
      simp at h
  · subst hm
    obtain rfl := (Prod.mk.inj (Except.ok.inj h)).1
    exact TypeRef.not_isBare_builtin (by decide)

/-- A type for an object under the name of a property is no scalar. -/
theorem not_isBare_of_fits {key : String} {p : Schema} {t : TypeRef} (href : p.ref.isEmpty = true)
    (hobject : isObject p.denull) (h : Fits env g scope (key ++ "Message") p c t) :
    ¬ t.IsBare := by
  cases h with
  | reference hnot => exact nomatch href.symm.trans hnot
  | found name _ hname hfound =>
    unfold Registry.lookup at hfound
    rw [Name.not_reserved_message hname] at hfound
    obtain ⟨container, -, hfound⟩ := List.exists_of_findSome?_eq_some hfound
    obtain ⟨id, -, rfl⟩ := Option.map_eq_some_iff.1 hfound
    exact TypeRef.not_isBare_node id
  | anew _ _ _ hanew =>
    cases hanew with
    | several b hseveral => exact absurd hobject.1 (Nat.not_le.2 hseveral)
    | message => exact TypeRef.not_isBare_node _
    | map => exact TypeRef.not_isBare_node _
    | enumeration => exact TypeRef.not_isBare_node _
    | struct => exact TypeRef.not_isBare_builtin (by decide)
    | null => exact TypeRef.not_isBare_builtin (by decide)
    | array htypes => exact absurd (by simp [htypes]) hobject.not_array
    | @scalar _ _ _ _ type _ htypes hscalar =>
      exfalso
      rcases hobject.2 with hnone | hmem
      · exact nomatch htypes.symm.trans hnone
      · rw [htypes] at hmem
        obtain rfl := List.mem_singleton.1 hmem
        exact absurd hscalar (by decide)

/-- What may keep a scalar for the type of a property: the property is a reference, or it is a list
of items that lead to one, and what has come out for them is not compiled from them. -/
inductive LeftBare (env : Environment) (scope : Scope) (key : String) (p : Schema) : Prop
  | reference : p.ref.isEmpty = false → LeftBare env scope key p
  | items {items : Schema} {c c' : Compilation} {d : Definition} : p.denull.types = ["array"] →
      p.items = some items → LeadsToReference items →
      compileSchema env items scope (key ++ "Message") (.text "") c = .ok (d, c') →
      d.IsGiven c'.graph → LeftBare env scope key p

/-- What comes out for a schema that is neither a reference nor a list is compiled from it. -/
theorem not_isGiven_of_not_array (hopen : Opening opened scope c) (hready : c.Ready scope)
    (href : s.ref.isEmpty = true) (harray : "array" ∉ s.denull.types)
    (h : compileSchema env s scope name comment c = .ok (d, c')) : ¬ d.IsGiven c'.graph := by
  intro hgiven
  cases leadsToReference_of_isGiven hopen hready h hgiven with
  | reference hnot => exact nomatch href.symm.trans hnot
  | items htypes => exact harray (by simp [htypes])

/-- What is compiled from a schema is neither a scalar nor a reference once it is wrapped. -/
theorem wrapped_of_not_isGiven (h : ¬ d.IsGiven g) {f : TypeRef → TypeRef}
    (hf : ∀ t, ¬ g.IsReference t → ¬ g.IsReference (f t)) :
    ¬ (d.mapType fun t => boxed (f t)).unwrap.IsBare ∧
      ¬ g.IsReference (d.mapType fun t => boxed (f t)).unwrap := by
  cases d with
  | parameter => exact absurd (.inl nofun) h
  | type t =>
    have ht : ¬ g.IsReference t := fun hnot => h (.inr hnot)
    exact ⟨not_isBare_boxed _, not_isReference_boxed (hf t ht)⟩

/-- The type of a property is neither a scalar nor does it stand for what is still to come, but for
references. -/
theorem compilePropertyType_bare (hwrap : env.options.wrapPrimitives = true)
    (hopen : Opening opened scope c) (hready : c.Ready scope) {key : String} {p : Schema}
    (h : compilePropertyType env scope key (part env p) c = .ok (d, c')) :
    LeftBare env scope key p ∨ ¬ d.unwrap.IsBare ∧ ¬ c'.graph.IsReference d.unwrap := by
  rcases Bool.eq_false_or_eq_true p.ref.isEmpty with href | href
  swap
  · exact .inl (.reference href)
  have hitems : (part env p).items = p.items.map (compileSchema env) := compileItems_eq_map env p
  have hboxes : boxes env = boxed := funext fun t => if_pos hwrap
  cases compilePropertyType_cases h with
  | several _ ht =>
    obtain ⟨-, b, rfl⟩ := compileMultiType_ok ht
    exact .inr ⟨compileMultiType_not_isBare ht, not_isReference_builtin b⟩
  | object hobject hd =>
    have hfits := (compileSchema_fits env p).whole c'.graph opened _ _ _ _ _ _ hd hopen
      (settles_of_grown (.refl c'))
    have hgiven := not_isGiven_of_not_array hopen hready href hobject.not_array hd
    exact .inr ⟨not_isBare_of_fits href hobject hfits, fun hnot => hgiven (.inr hnot)⟩
  | @array _ d' _ htypes haction hd =>
    obtain ⟨items, hi, rfl⟩ := Option.map_eq_some_iff.1 (hitems.symm.trans haction)
    rw [hboxes]
    by_cases hgiven : d'.IsGiven c'.graph
    · exact .inl (.items htypes hi (leadsToReference_of_isGiven hopen hready hd hgiven) hd hgiven)
    · exact .inr (wrapped_of_not_isGiven hgiven fun _ ht => ht)
  | named _ _ hfound =>
    rw [hboxes]
    refine .inr ⟨not_isBare_boxed _, not_isReference_boxed (not_isReference_withFormat ?_ _)⟩
    exact not_isReference_of_lookup hready (.refl _) hfound
  | unnamed _ harray _ _ hd =>
    rw [hboxes]
    exact .inr (wrapped_of_not_isGiven (not_isGiven_of_not_array hopen hready href harray hd)
      fun _ ht => not_isReference_withFormat ht _)
  | enumeration _ _ _ _ ht =>
    obtain ⟨rfl, rfl⟩ := compileEnum_ok ht
    exact .inr ⟨TypeRef.not_isBare_node _,
      not_isReference_of_node? (Graph.node?_add_self _) nofun⟩

/-! ## Fields -/

/-- The type of a property is there when it has been compiled. -/
theorem has_of_compilePropertyType {key : String} {p : Schema} (hopen : Opening opened scope c)
    (h : compilePropertyType env scope key (part env p) c = .ok (d, c')) :
    c'.graph.Has d.unwrap := by
  rcases compilePropertyType_ok (part_runs env p) h with hruns | ⟨rawName, elements, rfl, rfl⟩
  · exact (hruns.closed hopen.package hopen.closed).2 _ (List.mem_singleton.2 rfl)
  · exact has_withNode c _

/-- A field that has a scalar for its type in the end. -/
theorem leftBare_of_field (hwrap : env.options.wrapPrimitives = true)
    (hstands : Stands g opened scope c c') {key : String} {p : Schema}
    {property : CompiledProperty} (h : compileProperty env scope key (part env p) c =
      .ok (property, c')) {number : Int} {f : Proto.Field TypeRef Value}
    (hf : (property.field number).Becomes g f) (hbare : f.type.IsBare) :
    LeftBare env scope key p := by
  obtain ⟨d, c₁, hd, htype, rfl, -⟩ := compileProperty_ok h
  have hinner := hstands.inner (.declareHere hstands.opening.scope d.unwrap)
  rcases compilePropertyType_bare hwrap hstands.opening hstands.ready hd with
    hleft | ⟨hnotBare, hnotReference⟩
  · exact hleft
  · exfalso
    obtain ⟨t, rfl, ht⟩ := hf
    rcases ht with heq | href
    · obtain rfl : t = d.unwrap := heq.trans htype
      exact hnotBare hbare
    · refine hnotReference (hinner.isReference (has_of_compilePropertyType hstands.opening hd) ?_)
      rw [← htype]
      exact href

/-- The fields for the properties that are compiled in a scope. -/
theorem leftBare_of_fields (hwrap : env.options.wrapPrimitives = true)
    (hstands : Stands g opened scope c c') {properties : List (String × Schema)}
    {compiled : List CompiledProperty} {numbers : List Int}
    {fields : List (Proto.Field TypeRef Value)}
    (h : ((partList env properties).mapM fun (key, p) =>
      within ("failed to compile property " ++ key) (compileProperty env scope key p)) c =
        .ok (compiled, c')) (hlength : numbers.length = compiled.length)
    (hfields : List.Forall₂ (Field.Becomes g)
      ((compiled.zip numbers).map fun (p, number) => p.field number) fields) :
    List.Forall₂ (fun entry f => f.type.IsBare → LeftBare env scope entry.1 entry.2) properties
      fields := by
  induction properties generalizing c compiled numbers fields with
  | nil =>
    obtain ⟨rfl, rfl⟩ := Prod.mk.inj (Except.ok.inj h)
    obtain rfl := List.forall₂_nil_left_iff.1 hfields
    exact .nil
  | cons entry rest ih =>
    obtain ⟨key, p⟩ := entry
    rw [partList, List.mapM_cons] at h
    obtain ⟨property, c₁, hfirst, h⟩ := bind_ok_iff.1 h
    obtain ⟨others, c₂, hrest, h⟩ := bind_ok_iff.1 h
    obtain ⟨rfl, rfl⟩ : property :: others = compiled ∧ c₂ = c' := by simpa using h
    obtain ⟨number, numbers, rfl⟩ := List.exists_cons_of_length_eq_add_one hlength
    obtain ⟨f, fields, hf, hothers, rfl⟩ := List.forall₂_cons_left_iff.1 hfields
    have hfirst := within_ok_iff.1 hfirst
    have hproperty := compileProperty_runs (part_runs env p) hfirst
    have hopen := hstands.opening.of_runs hproperty
    have hruns : Runs env scope c₁ (others.map (·.type)) c₂ :=
      mapM_compileProperty_runs (partList_runs env _) hrest
    have hnow : Stands g opened scope c c₁ :=
      ⟨hstands.opening, hstands.ready, hopen.settles_of_runs hruns hstands.settles, hstands.kept⟩
    have hlater : Stands g opened scope c₁ c₂ :=
      ⟨hopen, hproperty.ready hstands.ready, hstands.settles, hstands.kept⟩
    exact .cons (leftBare_of_field hwrap hnow hfirst hf)
      (ih hlater hrest (Nat.succ.inj hlength) hothers)

/-- When scalars are wrapped, an object that is compiled to a new message, in whatever place and
however deep inside it, gets no field with a scalar for its type, but for references and for lists of
items that lead to references. -/
theorem fields_boxed {options : Options} {spec : Spec} {o : Output}
    (h : compile options spec = .ok o) (hwrap : options.wrapPrimitives = true) :
    (∀ place : Place, place.In ⟨options, spec⟩ → ∃ name comment s c d c',
      Compiles ⟨options, spec⟩ place name s c d c' ∧
      CompilesWithin ⟨options, spec⟩ [o.package] name comment s c d c') ∧
    ∀ scope name comment s c d c', CompilesWithin ⟨options, spec⟩ scope name comment s c d c' →
      Anew scope name s c → isObject s.denull → s.additional = none →
      d = .type (.node c.graph.size) ∧ ∃ m, o.graph.message? c.graph.size = some m ∧
        List.Forall₂ (fun entry f => f.type.IsBare →
            LeftBare ⟨options, spec⟩ (c.graph.size :: scope) entry.1 entry.2)
          (sortEntries s.properties) m.fields := by
  obtain ⟨c₂, hrun, rfl⟩ := compile_ok_iff.1 h
  have hphases := (compileAll_ok_iff.1 hrun).1
  refine ⟨fun place hplace => ?_, ?_⟩
  · obtain ⟨name, s, c, d, c', hcompiles⟩ := exists_compiles hphases hplace
    obtain ⟨comment, hwithin⟩ := hcompiles.within
    rw [← package_of_compileAll hrun] at hwithin
    exact ⟨name, comment, s, c, d, c', hcompiles, hwithin⟩
  · intro scope name comment s c d c' hs hanew hobject hadditional
    obtain ⟨opened, hstands⟩ := hs.stands hphases
    obtain ⟨hd, compiled, c₁, numbers, m, hcompiled, hinside, hlength, hm, hfields⟩ :=
      hstands.message hs.run hanew hobject hadditional
    exact ⟨hd, m, hm, leftBare_of_fields hwrap hinside hcompiled hlength hfields⟩

/-- A cat has a name, and an age that is a reference to a named scalar. -/
def cat : Schema :=
  .object [("age", .reference "#/definitions/Age"), ("name", .scalar "string")]

def agedCats : Spec := .ofDefinitions [("Age", .scalar "integer"), ("Cat", cat)]

/-- The cat is compiled after its age, and no type of its name is visible then. -/
theorem anew_cat {s : Schema} (h : Compiles ⟨⟨false, false, false, true, "pet"⟩, agedCats⟩
      (.definition "Cat" cat) name s c d c') : name = "Cat" ∧ s = cat ∧ Anew [0] "Cat" cat c := by
  cases h with
  | definition hcomes hd =>
    obtain ⟨before, after, heq, hbefore⟩ := hcomes
    have hsorted : sortEntries agedCats.definitions =
        [("Age", .scalar "integer"), ("Cat", cat)] := rfl
    rw [hsorted] at heq
    obtain rfl : before = [("Age", .scalar "integer")] := by
      rcases before with _ | ⟨first, _ | ⟨second, rest⟩⟩
      · exact absurd (congrArg Prod.fst (List.cons.inj heq).1) (by decide)
      · rw [(List.cons.inj heq).1]
      · have hlength := congrArg List.length heq
        simp at hlength
    obtain ⟨_, hage, hnil⟩ := forM_ok_cons.1 hbefore
    obtain rfl := forM_ok_nil.1 hnil
    have hfree : (compileDefinition ⟨⟨false, false, false, true, "pet"⟩, agedCats⟩ [0]
          ("Age", .scalar "integer") (announced ⟨⟨false, false, false, true, "pet"⟩, agedCats⟩)).map
        (fun r => r.2.registry.lookup r.2.graph "Cat" [0]) = .ok none := by decide +kernel
    have hage : compileDefinition ⟨⟨false, false, false, true, "pet"⟩, agedCats⟩ [0]
        ("Age", .scalar "integer") (announced ⟨⟨false, false, false, true, "pet"⟩, agedCats⟩) =
          .ok ((), c) := hage
    rw [hage] at hfree
    have hpascal : Name.pascal "Cat" = "Cat" := by decide +kernel
    exact ⟨hpascal, rfl, rfl, Except.ok.inj hfree, hpascal ▸ Except.ok.inj hfree⟩

theorem fields_boxed_agedCats : ∃ o c m,
    compile ⟨false, false, false, true, "pet"⟩ agedCats = .ok o ∧
    o.graph.message? c = some m ∧
    List.Forall₂ (fun entry f => f.type.IsBare →
        LeftBare ⟨⟨false, false, false, true, "pet"⟩, agedCats⟩ [c, o.package] entry.1 entry.2)
      [("age", .reference "#/definitions/Age"), ("name", .scalar "string")] m.fields := by
  obtain ⟨c₂, hrun, -⟩ := compileAll_of_compilesTo
    (show compilesTo ⟨false, false, false, true, "pet"⟩ agedCats (fun _ => true) = true by
      decide +kernel)
  have hcompile := compile_ok_iff.2 ⟨c₂, hrun, rfl⟩
  have hpackage : c₂.package = 0 := (package_of_compileAll hrun).trans rfl
  obtain ⟨hplaces, hfields⟩ := fields_boxed hcompile rfl
  obtain ⟨name, comment, s, c, d, c', hcompiles, hwithin⟩ :=
    hplaces (.definition "Cat" cat) (List.mem_cons_of_mem _ (List.mem_singleton.2 rfl))
  obtain ⟨rfl, rfl, hanew⟩ := anew_cat hcompiles
  rw [← hpackage] at hanew
  obtain ⟨-, m, hm, hforall⟩ :=
    hfields [c₂.package] "Cat" comment cat c d c' hwithin hanew ⟨Nat.le_refl 1, .inr (by decide)⟩ rfl
  exact ⟨_, c.graph.size, m, hcompile, hm, hforall⟩

/-- Whether a message of the package has a field of a given name and type. -/
def hasField (message field : String) (t : TypeRef) (c : Compilation) : Bool :=
  (c.graph.children c.package).any fun child => match child with
    | .node id => match c.graph.message? id with
      | some m => m.name == message && m.fields.any fun f => f.name == field && f.type == t
      | none => false
    | .builtin _ => false

/-- The age of the cat is not wrapped. -/
theorem not_boxed_agedCats : ∃ o, compile ⟨false, false, false, true, "pet"⟩ agedCats = .ok o ∧
    ∃ id m f, .node id ∈ o.graph.children o.package ∧ o.graph.message? id = some m ∧
      m.name = "Cat" ∧ f ∈ m.fields ∧ f.name = "age" ∧ f.type = .builtin .int32 ∧ f.type.IsBare := by
  obtain ⟨c, hcompile, htest⟩ := compile_of_compilesTo
    (show compilesTo ⟨false, false, false, true, "pet"⟩ agedCats
      (hasField "Cat" "age" (.builtin .int32)) = true by decide +kernel)
  refine ⟨_, hcompile, ?_⟩
  obtain ⟨child, hchild, htest⟩ := List.any_eq_true.1 htest
  cases child with
  | builtin => cases htest
  | node id =>
    dsimp only at htest
    rcases hm : c.graph.message? id with _ | m <;> rw [hm] at htest
    · cases htest
    · obtain ⟨hname, hfield⟩ := Bool.and_eq_true_iff.1 htest
      obtain ⟨f, hf, htest⟩ := List.any_eq_true.1 hfield
      obtain ⟨hfname, htype⟩ := Bool.and_eq_true_iff.1 htest
      have htype : f.type = .builtin .int32 := eq_of_beq htype
      exact ⟨id, m, f, hchild, hm, eq_of_beq hname, hf, eq_of_beq hfname, htype,
        _, htype, by decide⟩

end ApiProto.Compile
