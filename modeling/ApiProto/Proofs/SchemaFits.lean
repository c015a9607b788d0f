import ApiProto.Proofs.Fits

/-!
# Compiling schemas to types that fit

* `ActionFits`, `PartFits` — ways to compile schemas that give types that fit.
* `compileMessage_fields` — what becomes of the properties of an object.
* `compileMessage_fits`, `compileMapValue_fits`, `compilePropertyType_fits`, … — one lemma for each
  step.
* `compileSchema_fits` — compiling a schema gives a type that fits it.
-/

namespace ApiProto.Document

/-! ## Types of schemas -/

section Types

variable (s : Schema)

/-- Dropping `null` changes nothing but the types. -/
theorem Schema.denull_eq : ∃ types, s.denull = { s with types := types } := by
  cases s
  unfold denull
  split
  · exact ⟨_, rfl⟩
  · split <;> exact ⟨_, rfl⟩

@[simp] theorem Schema.denull_format : s.denull.format = s.format := by
  obtain ⟨types, h⟩ := s.denull_eq
  rw [h]

@[simp] theorem Schema.denull_choices : s.denull.choices = s.choices := by
  obtain ⟨types, h⟩ := s.denull_eq
  rw [h]

@[simp] theorem Schema.denull_properties : s.denull.properties = s.properties := by
  obtain ⟨types, h⟩ := s.denull_eq
  rw [h]

@[simp] theorem Schema.denull_items : s.denull.items = s.items := by
  obtain ⟨types, h⟩ := s.denull_eq
  rw [h]

@[simp] theorem Schema.denull_additional : s.denull.additional = s.additional := by
  obtain ⟨types, h⟩ := s.denull_eq
  rw [h]

end Types

end ApiProto.Document

namespace ApiProto.Compile

open Proto Document CompileM

variable {env : Environment} {g : Graph} {opened : List Nat} {scope : Scope} {c c₁ c' : Compilation}

/-! ## States in which something is compiled -/

/-- A state in which something is compiled in a scope, while some nodes are open. -/
structure Opening (opened : List Nat) (scope : Scope) (c : Compilation) : Prop where
  closed : c.Closed
  package : c.package ∈ scope
  scope : scope ⊆ opened
  old : ∀ x ∈ opened, x < c.graph.size

namespace Opening

variable (h : Opening opened scope c)
include h

theorem size_not_mem : c.graph.size ∉ opened := fun hmem => Nat.lt_irrefl _ (h.old _ hmem)

theorem of_runs {ts : List TypeRef} (hruns : Runs env scope c ts c') : Opening opened scope c' := by
  have hgrows := hruns.grows h.package
  exact ⟨(hruns.closed h.package h.closed).1, by rw [hgrows.package]; exact h.package, h.scope,
    fun x hx => Nat.lt_of_lt_of_le (h.old x hx) hgrows.size_le⟩

/-- A message is entered. -/
theorem enter (name : String) (comment : Value) :
    Opening (c.graph.size :: opened) (c.graph.size :: scope)
      (c.withNode (.message ⟨name, [], [], comment⟩)) := by
  have hgrows : c.Grows [] (c.withNode (.message ⟨name, [], [], comment⟩)) := .withNode c _
  refine ⟨h.closed.withNode (by simp [Node.mentions]), List.mem_cons_of_mem _ h.package,
    List.cons_subset_cons _ h.scope, fun x hx => ?_⟩
  rcases List.mem_cons.1 hx with rfl | hx
  · exact has_withNode c _
  · exact Nat.lt_of_lt_of_le (h.old x hx) hgrows.size_le

theorem settles_of_runs {ts : List TypeRef} (hruns : Runs env scope c ts c')
    (hsettles : c'.graph.Settles opened g) : c.graph.Settles opened g :=
  settles_of_grows ((hruns.grows h.package).mono h.scope) hsettles

end Opening

/-- A way to compile a schema of which all results fit. -/
def ActionFits (env : Environment) (s : Schema) (a : Action) : Prop :=
  ∀ g opened scope rawName comment c d c', a scope rawName comment c = .ok (d, c') →
    Opening opened scope c → c'.graph.Settles opened g → Fits env g scope rawName s c d.unwrap

/-- A schema inside another one that is compiled to types that fit, and so are its items. -/
structure PartFits (env : Environment) (s : Schema) : Prop where
  whole : ActionFits env s (compileSchema env s)
  items : ∀ items, s.items = some items → ActionFits env items (compileSchema env items)

theorem part_runs (env : Environment) (s : Schema) : PartRuns env (part env s) :=
  ⟨compileSchema_runs env s, compileItems_runs env s⟩

/-! ## Scalars and enums -/

theorem compileMultiType_ok {s : Schema} {t : TypeRef} (h : compileMultiType s c = .ok (t, c')) :
    c = c' ∧ ∃ b, t = .builtin b := by
  have hbuiltin : ∀ b : Builtin, (pure (.builtin b) : CompileM TypeRef) c = .ok (t, c') →
      c = c' ∧ ∃ b, t = .builtin b := by
    intro b h
    obtain ⟨rfl, rfl⟩ : .builtin b = t ∧ c = c' := by simpa using h
    exact ⟨rfl, b, rfl⟩
  generalize hm : compileMultiType s = m at h
  unfold compileMultiType at hm
  split at hm
  · split at hm
    · subst hm
      exact hbuiltin _ h
    · subst hm
      simp at h
  · subst hm
    exact hbuiltin _ h

/-- The primitive types are reserved names. -/
theorem exists_reserved {type : String} (h : type ∈ scalarTypes) :
    ∃ b, reservedTypes.lookup type = some b := by
  have hall : ∀ type ∈ scalarTypes, (reservedTypes.lookup type).isSome = true := by decide
  exact Option.isSome_iff_exists.1 (hall type h)

theorem lookup_reserved {type : String} {b : Builtin} (h : reservedTypes.lookup type = some b) :
    c.registry.lookup c.graph type scope = some (.builtin b) := by
  unfold Registry.lookup
  rw [h]

/-- A new enum has an element for each choice. -/
theorem compileEnum_fits {name : String} {choices : List String} {t : TypeRef}
    (h : compileEnum env scope name choices c = .ok (t, c₁)) (hopen : Opening opened scope c)
    (hsettles : c₁.graph.Settles opened g) :
    t = .node c.graph.size ∧ IsEnum env g c scope name choices c.graph.size := by
  obtain ⟨rfl, rfl⟩ := compileEnum_ok h
  exact ⟨rfl, hsettles.enumeration hopen.size_not_mem (Graph.node?_add_self _)⟩

/-! ## Maps -/

theorem objectListWrapper_fits {name rawField : String} {comment itemComment : Value}
    {items : Schema} {t : TypeRef} (hitems : ActionFits env items (compileSchema env items))
    (h : objectListWrapper scope (Name.pascal name) rawField comment (compileSchema env items)
      itemComment c = .ok (t, c')) (hopen : Opening opened scope c)
    (hsettles : c'.graph.Settles opened g) :
    ∃ id m f item, t = .node id ∧ c.graph.size ≤ id ∧ g.node? id = some (.message m) ∧
      m.fields = [f] ∧ f.repeated = true ∧ Fits env g scope (Name.pascal name) items c item ∧
      g.Becomes item f.type := by
  obtain ⟨d, c₁, c₂, hitem, rfl, rfl, rfl⟩ := objectListWrapper_ok h
  have hruns : Runs env scope c [d.unwrap] (c₁.declareHere scope d.unwrap) :=
    .declared (compileSchema_runs env items _ _ _ _ _ _ hitem)
  have hopen₁ := hopen.of_runs hruns
  have hnode := settles_of_declareHere hopen.scope hsettles
  have hdeclared := settles_of_declareHere hopen.scope (settles_of_withNode hnode)
  obtain ⟨m, hm, -, hfields⟩ := hnode.message hopen₁.size_not_mem (Graph.node?_add_self _)
  obtain ⟨f, fields, hf, hnone, hcons⟩ := List.forall₂_cons_left_iff.1 hfields
  obtain rfl := List.forall₂_nil_left_iff.1 hnone
  obtain ⟨t, rfl, ht⟩ := hf
  exact ⟨_, m, _, d.unwrap, rfl, (hruns.grows hopen.package).size_le, hm, hcons, rfl,
    hitems _ _ _ _ _ _ _ _ hitem hopen hdeclared, ht⟩

theorem isMap_true {t : TypeRef} (h : isMap t c = .ok (true, c')) :
    ∃ id n, t = .node id ∧ c.graph.node? id = some n ∧ n.isMap = true := by
  cases t with
  | builtin b => cases h
  | node id =>
    obtain ⟨hmap, -⟩ := Prod.mk.inj (Except.ok.inj h)
    rcases hn : c.graph.node? id with _ | n <;> rw [hn] at hmap
    · cases hmap
    · exact ⟨id, n, rfl, hn, by cases n <;> first | rfl | cases hmap⟩

theorem isMap_false {id : Nat} {n : Node} (h : isMap (.node id) c = .ok (false, c'))
    (hn : c.graph.node? id = some n) : n.isMap = false := by
  obtain ⟨hmap, -⟩ := Prod.mk.inj (Except.ok.inj h)
  rw [hn] at hmap
  cases n <;> first | rfl | cases hmap

/-- The type of the values of a map is no map. -/
theorem compileMapValue_fits {rawName rawField : String} {p : Schema} (hp : PartFits env p)
    {t : TypeRef}
    (h : MapValue env scope (Name.pascal rawName) rawField (part env p) c t c')
    (hopen : Opening opened scope c) (hsettles : c'.graph.Settles opened g) :
    ValueFits env g scope (Name.pascal rawName) p c t := by
  cases h with
  | reference href => exact .reference href
  | listOfReference href harray hi _ hitem => exact .listOfReference href harray hi hitem
  | listOfObjects href harray hi haction hitem hproperties hlist =>
    obtain rfl := Option.some.inj ((part_items env hi).symm.trans haction)
    obtain ⟨id, m, f, item, rfl, hsize, hm, hfields, hrepeated, hfits, hbecomes⟩ :=
      objectListWrapper_fits (hp.items _ hi) hlist hopen hsettles
    exact .listOfObjects href harray hi hitem hproperties hsize hm hfields hrepeated hfits hbecomes
  | list href harray hlist =>
    exact .list href harray fun i hi => hlist i _ hi (part_items env hi)
  | nested href harray hd hn =>
    have hopen₁ := hopen.of_runs (compileSchema_runs env p _ _ _ _ _ _ hd)
    have h₁ := settles_of_importing (hopen₁.scope hopen₁.package) hsettles
    obtain ⟨id, n, heq, hmap, hisMap⟩ := isMap_true hn
    obtain ⟨n', hn', hisMap'⟩ := h₁.maps id n hmap
    have hfits := hp.whole _ _ _ _ _ _ _ _ hd hopen h₁
    rw [heq] at hfits
    rw [hisMap] at hisMap'
    cases n' with
    | map key value => exact .nested href harray hfits hn'
    | _ => cases hisMap'
  | value href harray hd hn =>
    have hrun := compileSchema_runs env p _ _ _ _ _ _ hd
    refine .value href harray (hp.whole _ _ _ _ _ _ _ _ hd hopen hsettles)
      fun id key value heq hmap => ?_
    rw [heq] at hn
    have hhas := (hrun.closed hopen.package hopen.closed).2 _ (List.mem_singleton.2 rfl)
    rw [heq] at hhas
    obtain ⟨n, hid⟩ := Graph.node?_isSome hhas
    obtain ⟨n', hn', hisMap⟩ := hsettles.maps id n hid
    obtain rfl := Option.some.inj (hn'.symm.trans hmap)
    rw [isMap_false hn hid] at hisMap
    cases hisMap

theorem compileMap_fits {rawName rawField : String} {p : Schema} (hp : PartFits env p) {t : TypeRef}
    (h : compileMap env scope (Name.pascal rawName) rawField (part env p) c = .ok (t, c'))
    (hopen : Opening opened scope c) (hsettles : c'.graph.Settles opened g) :
    ∃ id value value', t = .node id ∧ c.graph.size ≤ id ∧
      g.node? id = some (.map (.builtin .string) value') ∧
      ValueFits env g scope (Name.pascal rawName) p c value ∧ g.Becomes value value' := by
  obtain ⟨value, c₁, hv, rfl, rfl⟩ := compileMap_ok h
  have hruns : Runs env scope c [value] c₁ := compileMapValue_runs (part_runs env p) hv
  have hopen₁ := hopen.of_runs hruns
  obtain ⟨value', hmap, hbecomes⟩ := hsettles.map hopen₁.size_not_mem (Graph.node?_add_self _)
  exact ⟨_, value, value', rfl, (hruns.grows hopen.package).size_le, hmap,
    compileMapValue_fits hp hv hopen (settles_of_withNode hsettles), hbecomes⟩

/-! ## Properties -/

theorem compileMessage_type {name : String} {comment : Value} {properties : List (String × Part)}
    {d : Definition} (h : compileMessage env scope name comment properties c = .ok (d, c')) :
    d = .type (.node c.graph.size) := by
  unfold compileMessage at h
  rw [newNode_bind] at h
  obtain ⟨_, c₁, -, h⟩ := bind_ok_iff.1 h
  simp only [declareDefinition_bind, pure_run, Except.ok.injEq, Prod.mk.injEq] at h
  exact h.1.symm

theorem compileSchema_reference {s : Schema} {rawName : String} {comment : Value} {d : Definition}
    (hs : s.ref.isEmpty = false) (h : compileSchema env s scope rawName comment c = .ok (d, c')) :
    compileReferenceValue s.ref c = .ok (d, c') := by
  rw [compileSchema_eq] at h
  unfold compileWith at h
  dsimp only at h
  rw [if_pos (by simp [hs])] at h
  exact within_ok_iff.1 h

/-- A schema stands for what its reference names, for a visible type of its name, or for a new
type. -/
theorem compileSchema_cases {s : Schema} {rawName : String} {comment : Value} {d : Definition}
    (h : compileSchema env s scope rawName comment c = .ok (d, c')) :
    s.ref.isEmpty = false ∨ s.ref.isEmpty = true ∧
      ((∃ name t, (name = rawName ∨ name = Name.pascal rawName) ∧
          c.registry.lookup c.graph name scope = some t ∧ d = .type (withFormat s.format t) ∧
          c = c') ∨
        c.registry.lookup c.graph rawName scope = none ∧
          c.registry.lookup c.graph (Name.pascal rawName) scope = none ∧
          compileNew env s.denull scope rawName (Name.pascal rawName) comment
            (s.denull.items.map (compileSchema env)) (s.denull.additional.map (part env))
            (partList env s.denull.properties) c = .ok (d, c')) := by
  rw [compileSchema_eq] at h
  unfold compileWith at h
  dsimp only at h
  split at h
  · next href => exact .inl (by simpa using href)
  · next href =>
    refine .inr ⟨by simpa using href, ?_⟩
    rw [lookupType_bind] at h
    rcases hraw : c.registry.lookup c.graph rawName scope with _ | t <;> rw [hraw] at h
    · dsimp only at h
      rw [lookupType_bind] at h
      rcases hname : c.registry.lookup c.graph (Name.pascal rawName) scope with _ | t <;>
        rw [hname] at h
      · exact .inr ⟨rfl, rfl, by simpa using h⟩
      · obtain ⟨rfl, rfl⟩ : .type (withFormat s.denull.format t) = d ∧ c = c' := by simpa using h
        exact .inl ⟨_, t, .inr rfl, hname, by simp, rfl⟩
    · obtain ⟨rfl, rfl⟩ : .type (withFormat s.denull.format t) = d ∧ c = c' := by simpa using h
      exact .inl ⟨_, t, .inl rfl, hraw, by simp, rfl⟩

/-- A schema without reference gives a type, or what its items give. -/
theorem compileNew_type_or_items {s : Schema} {rawName name : String} {comment : Value}
    {items : Option Action} {additional : Option Part} {properties : List (String × Part)}
    {d : Definition}
    (h : compileNew env s scope rawName name comment items additional properties c = .ok (d, c')) :
    (∃ t, d = .type t) ∨ "array" ∈ s.types ∧ ∃ action c₁, items = some action ∧
      action scope name (.text "") c = .ok (d, c₁) := by
  cases compileNew_cases h with
  | message _ _ hmessage => exact .inl ⟨_, compileMessage_type hmessage⟩
  | parameters htypes hi hd => exact .inr ⟨by simp [htypes], _, _, hi, hd⟩
  | _ => exact .inl ⟨_, rfl⟩

/-- Only lists give shared parameters. -/
theorem compileNew_type {s : Schema} {rawName name : String} {comment : Value}
    {items : Option Action} {additional : Option Part} {properties : List (String × Part)}
    {d : Definition} (harray : "array" ∉ s.types)
    (h : compileNew env s scope rawName name comment items additional properties c = .ok (d, c')) :
    ∃ t, d = .type t :=
  (compileNew_type_or_items h).resolve_right fun hitems => harray hitems.1

/-- A schema that is no list and no reference does not give a shared parameter. -/
theorem compileSchema_type {s : Schema} {rawName : String} {comment : Value} {d : Definition}
    (href : s.ref.isEmpty = true) (harray : "array" ∉ s.denull.types)
    (h : compileSchema env s scope rawName comment c = .ok (d, c')) : ∃ t, d = .type t := by
  rcases compileSchema_cases h with hnot | ⟨-, ⟨_, _, -, -, hd, -⟩ | ⟨-, -, hnew⟩⟩
  · rw [href] at hnot
    cases hnot
  · exact ⟨_, hd⟩
  · exact compileNew_type harray hnew

theorem compilePropertyType_fits {key : String} {s : Schema} (hs : PartFits env s) {d : Definition}
    (h : compilePropertyType env scope key (part env s) c = .ok (d, c'))
    (hopen : Opening opened scope c) (hsettles : c'.graph.Settles opened g) :
    PropertyFits env g scope key s c d.unwrap := by
  have hitems : (part env s).items = s.items.map (compileSchema env) := compileItems_eq_map env s
  have hschema : (part env s).schema = s := rfl
  rcases Bool.eq_false_or_eq_true s.ref.isEmpty with href | href
  swap
  · exact .reference href
  cases compilePropertyType_cases h with
  | several hseveral ht =>
    obtain ⟨-, b, rfl⟩ := compileMultiType_ok ht
    exact .several b hseveral
  | object hobject hd => exact .object hobject (hs.whole _ _ _ _ _ _ _ _ hd hopen hsettles)
  | @array _ d' _ htypes haction hd =>
    obtain ⟨items, hi, rfl⟩ := Option.map_eq_some_iff.1 (hitems.symm.trans haction)
    cases d' with
    | type t => exact .array htypes hi (hs.items items hi _ _ _ _ _ _ _ _ hd hopen hsettles)
    | parameter t name number repeated => exact .arrayOfParameter htypes hi hd
  | @named type t htypes hchoices hfound =>
    rw [hschema, s.denull_choices] at hchoices
    rw [hschema, s.denull_format]
    rcases Decidable.em (type ∈ scalarTypes) with hscalar | hscalar
    · obtain ⟨b, hb⟩ := exists_reserved hscalar
      obtain rfl := Option.some.inj ((lookup_reserved hb).symm.trans hfound)
      exact .scalar htypes hscalar hchoices hb
    · exact .named htypes hscalar hchoices hfound
  | @unnamed type _ _ htypes harray hchoices hfound hd =>
    rw [hschema, s.denull_choices] at hchoices
    rw [hschema, s.denull_format]
    have hscalar : type ∉ scalarTypes := fun hscalar => by
      obtain ⟨b, hb⟩ := exists_reserved hscalar
      cases (lookup_reserved hb).symm.trans hfound
    obtain ⟨t, rfl⟩ := compileSchema_type href harray hd
    exact .unnamed htypes hscalar hchoices hfound (hs.whole _ _ _ _ _ _ _ _ hd hopen hsettles)
  | enumeration htypes hnotObject hnotArray hchoices ht =>
    obtain ⟨rfl, henum⟩ := compileEnum_fits ht hopen hsettles
    rw [hschema, s.denull_choices] at henum hchoices
    exact .enumeration htypes hnotObject hnotArray hchoices henum

/-! ## Messages -/

/-- The fields of a message fit, whatever has become of them since its properties were compiled. -/
theorem mapM_compileProperty_fits {properties : List (String × Schema)}
    (hp : ∀ entry ∈ properties, PartFits env entry.2) {compiled : List CompiledProperty}
    {numbers : List Int} {fields : List (Proto.Field TypeRef Value)}
    (h : ((partList env properties).mapM fun (key, p) =>
      within ("failed to compile property " ++ key) (compileProperty env scope key p)) c =
        .ok (compiled, c')) (hopen : Opening opened scope c) (hsettles : c'.graph.Settles opened g)
    (hlength : numbers.length = compiled.length)
    (hfields : List.Forall₂ (Field.Becomes g)
      ((compiled.zip numbers).map fun (p, number) => p.field number) fields) :
    FieldsFit env g scope properties c fields := by
  induction properties generalizing c compiled numbers fields with
  | nil =>
    obtain ⟨rfl, rfl⟩ := Prod.mk.inj (Except.ok.inj h)
    obtain rfl := List.forall₂_nil_left_iff.1 hfields
    exact .nil
  | cons entry rest ih =>
    obtain ⟨key, s⟩ := entry
    rw [partList, List.mapM_cons] at h
    obtain ⟨p, c₁, hfirst, h⟩ := bind_ok_iff.1 h
    obtain ⟨others, c₂, hrest, h⟩ := bind_ok_iff.1 h
    obtain ⟨rfl, rfl⟩ : p :: others = compiled ∧ c₂ = c' := by simpa using h
    obtain ⟨number, numbers, rfl⟩ := List.exists_cons_of_length_eq_add_one hlength
    obtain ⟨f, fields, hf, hothers, rfl⟩ := List.forall₂_cons_left_iff.1 hfields
    have hfirst := within_ok_iff.1 hfirst
    have hruns : Runs env scope c₁ (others.map (·.type)) c₂ :=
      mapM_compileProperty_runs (partList_runs env _) hrest
    have hopen₁ := hopen.of_runs (compileProperty_runs (part_runs env s) hfirst)
    have hsettles₁ := hopen₁.settles_of_runs hruns hsettles
    obtain ⟨d, c₃, hd, htype, rfl, -⟩ := compileProperty_ok hfirst
    have hproperty := compilePropertyType_fits (hp _ (List.mem_cons_self ..)) hd hopen
      (settles_of_declareHere hopen.scope hsettles₁)
    rw [← htype] at hproperty
    exact .cons number hfirst hproperty hf
      (ih (fun e he => hp e (List.mem_cons_of_mem _ he)) hrest hopen₁
        (Nat.succ.inj hlength) hothers)

theorem assignNumbers_length {message : String} {fields : List (String × Int)} {numbers : List Int}
    (h : assignNumbers message fields = .ok numbers) : numbers.length = fields.length := by
  unfold assignNumbers at h
  dsimp only at h
  split at h
  · cases h
  · obtain rfl := Except.ok.inj h
    simp

/-- The properties of an object are compiled inside a new message and numbered, and what becomes of
them are the fields of the message. -/
theorem compileMessage_fields {name : String} {comment : Value}
    {properties : List (String × Schema)} {d : Definition}
    (h : compileMessage env scope name comment (partList env properties) c = .ok (d, c'))
    (hopen : Opening opened scope c) (hsettles : c'.graph.Settles opened g) :
    ∃ compiled c₁ numbers m,
      ((partList env (sortEntries properties)).mapM fun (key, p) =>
        within ("failed to compile property " ++ key)
          (compileProperty env (c.graph.size :: scope) key p))
        (c.withNode (.message ⟨name, [], [], comment⟩)) = .ok (compiled, c₁) ∧
      c₁.graph.Settles (c.graph.size :: opened) g ∧
      assignNumbers name (compiled.map fun p => (Name.fieldName p.name, p.number)) = .ok numbers ∧
      g.node? c.graph.size = some (.message m) ∧ m.name = name ∧
      List.Forall₂ (Field.Becomes g)
        ((compiled.zip numbers).map fun (p, number) => p.field number) m.fields := by
  obtain ⟨-, compiled, c₁, numbers, c₂, hcompiled, hnumbers, hadd, rfl⟩ := compileMessage_ok h
  have hinside := hopen.enter name comment
  have hruns : Runs env (c.graph.size :: scope) _ (compiled.map (·.type)) c₁ :=
    mapM_compileProperty_runs (partList_runs env _) hcompiled
  have hstart : (c.withNode (.message ⟨name, [], [], comment⟩)).graph.message? c.graph.size =
      some ⟨name, [], [], comment⟩ := Graph.message?_of_node? (Graph.node?_add_self _)
  have hgrows := hruns.grows hinside.package
  obtain ⟨m₁, hm₁, hname₁, -, -, -⟩ := hgrows.nodes.message?_of_some hstart
  obtain ⟨_, hm, hnone⟩ := hruns.keepsFields _ _ hstart
  obtain rfl := Option.some.inj (hm₁.symm.trans hm)
  obtain ⟨m₂, hm₂, hname₂, hfields₂⟩ := addFields_message hm₁ hadd
  have hsettles₂ := settles_of_declareHere hopen.scope hsettles
  obtain ⟨m, hm, hname, hfields⟩ :=
    hsettles₂.message hopen.size_not_mem (Graph.node?_of_message? hm₂)
  rw [hfields₂, hnone, List.nil_append] at hfields
  have hpackage : c₁.package ∈ c.graph.size :: opened := by
    rw [hgrows.package]
    exact hinside.scope hinside.package
  have hsettles₁ := settles_of_grows (addFields_grows hpackage (List.mem_cons_self ..) hadd)
    (hsettles₂.mono (List.subset_cons_self ..))
  exact ⟨compiled, c₁, numbers, m, hcompiled, hsettles₁, hnumbers, hm,
    hname.trans (hname₂.trans hname₁), hfields⟩

/-- An object becomes a new message with a field for each property. -/
theorem compileMessage_fits {name : String} {comment : Value} {properties : List (String × Schema)}
    (hp : ∀ entry ∈ properties, PartFits env entry.2) {d : Definition}
    (h : compileMessage env scope name comment (partList env properties) c = .ok (d, c'))
    (hopen : Opening opened scope c) (hsettles : c'.graph.Settles opened g) :
    ∃ m, g.node? c.graph.size = some (.message m) ∧ m.name = name ∧
      FieldsFit env g (c.graph.size :: scope) (sortEntries properties)
        (c.withNode (.message ⟨name, [], [], comment⟩)) m.fields := by
  obtain ⟨compiled, c₁, numbers, m, hcompiled, hsettles₁, hnumbers, hm, hname, hfields⟩ :=
    compileMessage_fields h hopen hsettles
  refine ⟨m, hm, hname, ?_⟩
  exact mapM_compileProperty_fits (fun e he => hp e (mem_sortEntries.1 he)) hcompiled
    (hopen.enter name comment) hsettles₁
    ((assignNumbers_length hnumbers).trans (List.length_map ..)) hfields

/-! ## Schemas -/

/-- A schema without reference whose name is not visible becomes a new type. -/
theorem compileNew_fits {s : Schema} {rawName : String} {comment : Value}
    (hitems : ∀ items, s.items = some items → ActionFits env items (compileSchema env items))
    (hadditional : ∀ p, s.additional = some p → PartFits env p)
    (hp : ∀ entry ∈ s.properties, PartFits env entry.2) {d : Definition}
    (h : compileNew env s scope rawName (Name.pascal rawName) comment
      (s.items.map (compileSchema env)) (s.additional.map (part env)) (partList env s.properties) c =
        .ok (d, c')) (hopen : Opening opened scope c) (hsettles : c'.graph.Settles opened g) :
    FitsAnew env g scope rawName s c d.unwrap := by
  cases compileNew_cases h with
  | several hseveral ht =>
    obtain ⟨-, b, rfl⟩ := compileMultiType_ok ht
    exact .several b hseveral
  | message hobject hadd hmessage =>
    obtain rfl := compileMessage_type hmessage
    obtain ⟨m, hm, hname, hfields⟩ := compileMessage_fits hp hmessage hopen hsettles
    exact .message comment hobject (Option.map_eq_none_iff.1 hadd) hm hname hfields
  | struct hobject hadd hopenSchema =>
    obtain ⟨p, hsome, rfl⟩ := Option.map_eq_some_iff.1 hadd
    exact .struct hobject hsome hopenSchema
  | map hobject hadd hopenSchema ht =>
    obtain ⟨p, hsome, rfl⟩ := Option.map_eq_some_iff.1 hadd
    obtain ⟨id, value, value', rfl, hsize, hmap, hvalue, hbecomes⟩ :=
      compileMap_fits (hadditional p hsome) ht hopen hsettles
    exact .map hobject hsome hopenSchema hsize hmap hvalue hbecomes
  | parameters htypes hi hd =>
    obtain ⟨i, hsome, rfl⟩ := Option.map_eq_some_iff.1 hi
    exact .array htypes hsome (hitems i hsome _ _ _ _ _ _ _ _ hd hopen hsettles)
  | list htypes hi hd =>
    obtain ⟨i, hsome, rfl⟩ := Option.map_eq_some_iff.1 hi
    have hsettles₁ := settles_of_declareHere hopen.scope hsettles
    exact .array htypes hsome (hitems i hsome _ _ _ _ _ _ _ _ hd hopen hsettles₁)
  | scalar htypes hscalar hchoices hfound =>
    obtain ⟨b, hb⟩ := exists_reserved hscalar
    obtain rfl := Option.some.inj ((lookup_reserved hb).symm.trans hfound)
    exact .scalar htypes hscalar hchoices hb
  | enumeration htypes hscalar hchoices ht =>
    obtain ⟨rfl, henum⟩ :=
      compileEnum_fits ht hopen (settles_of_declareHere hopen.scope hsettles)
    exact .enumeration htypes hscalar hchoices henum
  | null hnull => exact .null hnull

theorem compileSchema_fits_of_parts {s : Schema}
    (hitems : ∀ items, s.items = some items → ActionFits env items (compileSchema env items))
    (hadditional : ∀ p, s.additional = some p → PartFits env p)
    (hp : ∀ entry ∈ s.properties, PartFits env entry.2) :
    ActionFits env s (compileSchema env s) := by
  intro g opened scope rawName comment c d c' h hopen hsettles
  rcases compileSchema_cases h with
    href | ⟨href, ⟨name, t, hname, hfound, rfl, rfl⟩ | ⟨hraw, hname, hnew⟩⟩
  · exact .reference href
  · exact .found name href hname hfound
  · refine .anew href hraw hname (compileNew_fits ?_ ?_ ?_ hnew hopen hsettles)
    · rwa [s.denull_items]
    · rwa [s.denull_additional]
    · rwa [s.denull_properties]

mutual

/-- Compiling a schema, and those inside it, gives types that fit. -/
theorem compileSchema_fits (env : Environment) : ∀ s : Schema, PartFits env s
  | ⟨_, _, _, _, _, properties, items, additional, _, _⟩ => by
    have hitems := compileOption_fits env items
    have hadditional := compileOption_fits env additional
    have hproperties := compileList_fits env properties
    exact ⟨compileSchema_fits_of_parts (fun i hi => (hitems i hi).whole) hadditional hproperties,
      fun i hi => (hitems i hi).whole⟩
termination_by structural s => s

theorem compileOption_fits (env : Environment) : ∀ (o : Option Schema) (s : Schema),
    o = some s → PartFits env s
  | some s, s', h => by
    have hs := compileSchema_fits env s
    rwa [← Option.some.inj h]
termination_by structural o => o

theorem compileList_fits (env : Environment) : ∀ (l : List (String × Schema)),
    ∀ entry ∈ l, PartFits env entry.2
  | (key, s) :: rest, entry, h => by
    have hs := compileSchema_fits env s
    have hrest := compileList_fits env rest
    rcases List.mem_cons.1 h with rfl | h
    · exact hs
    · exact hrest entry h
termination_by structural l => l

end

end ApiProto.Compile
