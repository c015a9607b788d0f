import ApiProto.Proofs.Agreement
import ApiProto.Proofs.Reordering
import ApiProto.Proofs.Step

/-!
# Compiling schemas alike

A schema is compiled in the same way whatever the order of its properties and of the entries of the
description: properties are sorted by name, and of the description only names that are reserved are
looked at. Of the options, one says whether scalars get wrapper messages; the other one is only about
the elements of enums.

* `Environment.Akin` — two environments in which schemas are compiled in the same way.
* `PartAgree` — two inner schemas that are compiled in the same way.
* `compileSchema_agree` — reordered schemas are compiled in the same way.
* `compileSchema_agree_self` — so is the same schema in two environments.
-/

namespace ApiProto.Document

/-- Two schemas of which the same can be told without going into their parts. -/
structure Schema.SameHead (i i' : Schema) : Prop where
  ref_eq : i'.ref = i.ref
  description_eq : i'.description = i.description
  isEmpty_eq : i'.properties.isEmpty = i.properties.isEmpty

/-- Two schemas that can differ in the contents of their parts: in properties, if there are any, in
the parts of items, and in the schema of values. -/
inductive Schema.Resembles : Schema → Schema → Prop
  | mk {s : Schema} {properties : List (String × Schema)} {items additional : Option Schema} :
      properties.isEmpty = s.properties.isEmpty → Option.Rel Schema.SameHead s.items items →
      Schema.Resembles s
        { s with properties := properties, items := items, additional := additional }

namespace Schema.Resembles

variable {s s' : Schema}

theorem refl (s : Schema) : s.Resembles s := by
  have hitems : Option.Rel SameHead s.items s.items := by
    rcases s.items with _ | i
    · exact .none
    · exact .some ⟨rfl, rfl, rfl⟩
  cases s
  exact .mk rfl hitems

theorem ref_eq (h : s.Resembles s') : s'.ref = s.ref := by
  cases h
  rfl

theorem denull (h : s.Resembles s') : s.denull.Resembles s'.denull := by
  obtain ⟨hp, hi⟩ := h
  unfold Schema.denull
  dsimp only
  split
  · exact .mk hp hi
  · split
    · exact .mk (s := { s with types := _ }) hp hi
    · exact .mk (s := { s with types := _ }) hp hi
    · exact .mk hp hi

end Schema.Resembles

theorem Schema.Reordered.resembles {s s' : Schema} (h : s.Reordered s') : s.Resembles s' := by
  cases h with
  | @mk s properties items additional hp hi ha =>
    have hitems : Option.Rel SameHead s.items items := by
      generalize s.items = sub at hi ⊢
      cases hi with
      | none => exact .none
      | some hs =>
        cases hs with
        | mk hp _ _ => exact .some ⟨rfl, rfl, hp.isEmpty_eq⟩
    exact .mk hp.isEmpty_eq hitems

end ApiProto.Document

namespace ApiProto.Compile

open Proto Document CompileM

/-! ## Environments -/

/-- Two environments with the same options and reordered descriptions. -/
structure Environment.Reordered (env env' : Environment) : Prop where
  options : env'.options = env.options
  spec : Spec.Reordered env.spec env'.spec

/-- An enum of listed values, which start with the name of the enum or stand alone. -/
def enumerationOf (named : Bool) (name : String) (choices : List String) : Enumeration :=
  ⟨Name.pascal name, choices.map fun choice =>
    Name.enumValueName
      (if named || Name.allDigits choice.toList then name ++ "_" ++ choice else choice), ""⟩

/-- Two environments in which schemas are compiled in the same way, but for the elements of enums. -/
structure Environment.Akin (like : Likeness) (env env' : Environment) : Prop where
  wrapPrimitives : env'.options.wrapPrimitives = env.options.wrapPrimitives
  reserved : (reservedNames env.spec).Perm (reservedNames env'.spec)
  enumeration : ∀ nested name choices, like.alike
    (.enumeration (enumerationOf (nested || env.options.prefixEnums) name choices))
    (.enumeration (enumerationOf (nested || env'.options.prefixEnums) name choices))

theorem reservedNames_perm {spec spec' : Spec} (h : Spec.Reordered spec spec') :
    (reservedNames spec).Perm (reservedNames spec') := by
  have hkeys : ∀ {α : Type} (l : List (String × α)),
      (l.map fun entry => Name.pascal entry.1) = (l.map (·.1)).map Name.pascal := by
    intro α l
    rw [List.map_map]
    rfl
  simp only [reservedNames, hkeys]
  exact (h.definitions.keys_perm.map _).append (h.parameters.keys_perm.map _)

variable {like : Likeness}

theorem Environment.Reordered.akin {env env' : Environment} (h : env.Reordered env') :
    env.Akin like env' where
  wrapPrimitives := by rw [h.options]
  reserved := reservedNames_perm h.spec
  enumeration nested name choices := by
    rw [h.options]
    exact like.fixed _ rfl

section Names

variable {env env' : Environment} (h : env.Akin like env')
include h

theorem listWrapperName_eq {c c' : Compilation} (hc : c.Alike like c') (base : String) :
    listWrapperName env'.spec c' base = listWrapperName env.spec c base := by
  have hcontains : ∀ name, (reservedNames env'.spec).contains name =
      (reservedNames env.spec).contains name := fun _ => h.reserved.symm.contains_eq
  have hlookup : ∀ name, c.registry.lookup c'.graph name [c.package] =
      c.registry.lookup c.graph name [c.package] := fun name => hc.graph.lookup_eq _ name _
  simp only [listWrapperName, hcontains, h.reserved.length_eq.symm, hlookup, hc.registry_eq,
    hc.package_eq]

theorem compileEnum_agree (scope : Scope) (name : String) (choices : List String) :
    Agree like Eq (compileEnum env scope name choices) (compileEnum env' scope name choices) := by
  refine .read fun c c' hc => ?_
  rw [hc.package_eq]
  exact .bind_eq (newNode_agree (h.enumeration _ name choices)) fun _ => .pure rfl

end Names

/-! ## Maps -/

variable (like) in
/-- Two ways to compile a schema that agree at every place. -/
def ActionAgree (a a' : Action) : Prop :=
  ∀ scope name comment, Agree like Eq (a scope name comment) (a' scope name comment)

variable (like) in
/-- Two inner schemas that resemble each other and are compiled in the same way. -/
structure PartAgree (p p' : Part) : Prop where
  schema : Schema.Resembles p.schema p'.schema
  whole : ActionAgree like p.whole p'.whole
  items : Option.Rel (ActionAgree like) p.items p'.items

section Steps

variable {env env' : Environment} (h : env.Akin like env')
include h

theorem refListWrapper_agree (scope : Scope) (ref : Value) :
    Agree like Eq (refListWrapper env scope ref) (refListWrapper env' scope ref) := by
  refine .bind_eq (.result _) fun ref => ?_
  refine .read fun c c' hc => ?_
  rw [hc.wrappers_eq]
  split
  · exact .pure rfl
  · refine .bind_eq (compileReference_agree ref) fun item => ?_
    refine .read fun c c' hc => ?_
    rw [listWrapperName_eq h hc]
    refine .bind_eq (newNode_agree_self rfl) fun wrapper => ?_
    refine .bind_eq (.modify fun c c' hc => ?_) fun _ => ?_
    · exact { hc with wrappers_eq := by rw [hc.wrappers_eq] }
    · refine .read fun c c' hc => ?_
      rw [hc.package_eq]
      exact .bind_eq (declareIn_agree _ _ _) fun _ => .pure rfl

omit h in
theorem objectListWrapper_agree (scope : Scope) (name rawName : String) (comment : Value)
    {items items' : Action} (hitems : ActionAgree like items items') (itemComment : Value) :
    Agree like Eq (objectListWrapper scope name rawName comment items itemComment)
      (objectListWrapper scope name rawName comment items' itemComment) := by
  unfold objectListWrapper
  refine .bind_eq (hitems scope name itemComment) fun item => ?_
  refine .bind_eq (declareDefinition_agree _ _) fun _ => ?_
  refine .bind_eq (nameOf_agree _) fun about => ?_
  refine .bind_eq (newNode_agree_self rfl) fun wrapper => ?_
  exact .bind_eq (declareDefinition_agree _ _) fun _ => .pure rfl

theorem compileMapValue_agree (scope : Scope) (name rawName : String) {p p' : Part}
    (hp : PartAgree like p p') :
    Agree like Eq (compileMapValue env scope name rawName p)
      (compileMapValue env' scope name rawName p') := by
  obtain ⟨s, whole, items⟩ := p
  obtain ⟨s', whole', items'⟩ := p'
  obtain ⟨hschema, hwhole, hitems⟩ := hp
  have hlist : Agree like Eq
      (do addImportFor Builtin.listValue.name; return TypeRef.builtin .listValue)
      (do addImportFor Builtin.listValue.name; return TypeRef.builtin .listValue) :=
    .bind_eq (addImportFor_agree _) fun _ => .pure rfl
  cases hschema with
  | mk hprops hsub =>
    unfold compileMapValue
    refine .ite .rfl (fun _ => ?_) fun _ => .ite .rfl (fun _ => ?_) fun _ => ?_
    · exact .bind_eq (compileReferenceValue_agree _) fun _ => .pure rfl
    · dsimp only at hsub ⊢
      generalize s.items = sub at hsub ⊢
      cases hsub with
      | none => exact hlist
      | some hs =>
        cases hitems with
        | none => exact hlist
        | some haction =>
          dsimp only
          rw [hs.ref_eq, hs.isEmpty_eq, hs.description_eq]
          refine .ite .rfl (fun _ => ?_) fun _ => .ite .rfl (fun _ => ?_) fun _ => hlist
          · exact refListWrapper_agree h _ _
          · exact objectListWrapper_agree _ _ _ _ haction _
    · refine .bind_eq (hwhole _ _ _) fun d => ?_
      refine .bind_eq (isMap_agree _) fun nested => ?_
      refine .ite .rfl (fun _ => ?_) fun _ => .pure rfl
      exact .bind_eq (addImportFor_agree _) fun _ => .pure rfl

theorem compileMap_agree (scope : Scope) (name rawName : String) {p p' : Part}
    (hp : PartAgree like p p') :
    Agree like Eq (compileMap env scope name rawName p)
      (compileMap env' scope name rawName p') :=
  .bind_eq (compileMapValue_agree h scope name rawName hp) fun _ =>
    .bind_eq (newNode_agree_self rfl) fun _ => .pure rfl

/-! ## Messages -/

theorem compilePropertyType_agree (scope : Scope) (name : String) {p p' : Part}
    (hp : PartAgree like p p') :
    Agree like Eq (compilePropertyType env scope name p)
      (compilePropertyType env' scope name p') := by
  obtain ⟨s, whole, items⟩ := p
  obtain ⟨s', whole', items'⟩ := p'
  obtain ⟨hschema, hwhole, hitems⟩ := hp
  have hdenull := hschema.denull
  unfold compilePropertyType
  dsimp only at hdenull ⊢
  rw [h.wrapPrimitives]
  generalize s.denull = t at hdenull ⊢
  generalize s'.denull = t' at hdenull ⊢
  cases hdenull with
  | mk _ _ =>
    refine .ite .rfl (fun _ => ?_) fun _ => .ite .rfl (fun _ => ?_) fun _ =>
      .ite .rfl (fun _ => ?_) fun _ => .ite .rfl (fun _ => ?_) fun _ => ?_
    · exact .bind_eq (compileMultiType_agree _) fun _ => .pure rfl
    · exact hwhole _ _ _
    · cases hitems with
      | none => exact .failWith _
      | some haction => exact .bind_eq (haction _ _ _) fun _ => .pure rfl
    · refine .bind_eq (lookupType_agree _ _) fun found => ?_
      cases found with
      | some t => exact .pure rfl
      | none => exact .bind_eq (hwhole _ _ _) fun _ => .pure rfl
    · refine .bind_eq (nameOf_agree _) fun owner => ?_
      refine .bind_eq (compileEnum_agree h _ _ _) fun t => .pure rfl

theorem compileProperty_agree (scope : Scope) (name : String) {p p' : Part}
    (hp : PartAgree like p p') :
    Agree like Eq (compileProperty env scope name p) (compileProperty env' scope name p') := by
  have htype := compilePropertyType_agree h scope name hp
  obtain ⟨s, whole, items⟩ := p
  obtain ⟨s', whole', items'⟩ := p'
  obtain ⟨hschema, -, -⟩ := hp
  have hdenull := hschema.denull
  unfold compileProperty
  dsimp only at hdenull ⊢
  generalize s.denull = t at hdenull ⊢
  generalize s'.denull = t' at hdenull ⊢
  cases hdenull with
  | mk _ _ =>
    cases hschema with
    | mk _ _ =>
      have hdeclare : ∀ field : CompiledProperty, Agree like Eq
          (do declareDefinition scope (.type field.type); return field)
          (do declareDefinition scope (.type field.type); return field) := fun _ =>
        .bind_eq (declareDefinition_agree _ _) fun _ => .pure rfl
      refine .bind_eq htype fun d => ?_
      cases d with
      | parameter t name number repeated => exact .bind_eq (.pure rfl) hdeclare
      | type t =>
        refine .ite .rfl (fun _ => ?_) fun _ => ?_
        · exact .bind_eq (.pure rfl) fun _ => .bind_eq (.pure rfl) hdeclare
        · exact .bind_eq (.result _) fun _ => .bind_eq (.pure rfl) hdeclare

theorem compileProperties_agree (scope : Scope) (message : Nat) (name : String)
    {properties properties' : List (String × Part)}
    (hp : Entrywise (PartAgree like) (sortEntries properties) (sortEntries properties')) :
    Agree like Eq (compileProperties env scope message name properties)
      (compileProperties env' scope message name properties') := by
  refine .bind (R := List.Forall₂ Eq) (.mapM hp.forall₂ fun x y hxy => ?_) fun compiled _ heq => ?_
  · obtain ⟨key, p⟩ := x
    obtain ⟨key', p'⟩ := y
    obtain ⟨rfl, hpart⟩ := hxy
    exact .within _ (compileProperty_agree h scope key hpart)
  · obtain rfl := List.forall₂_eq_eq_eq ▸ heq
    split
    · exact fun _ _ _ => rfl
    · refine .forM (P := Eq) (List.forall₂_eq_eq_eq ▸ rfl) fun x y hxy => ?_
      subst hxy
      exact addPropertyField_agree _ _ _

theorem compileMessage_agree (scope : Scope) (name : String) (comment : Value)
    {properties properties' : List (String × Part)}
    (hp : Entrywise (PartAgree like) (sortEntries properties) (sortEntries properties')) :
    Agree like Eq (compileMessage env scope name comment properties)
      (compileMessage env' scope name comment properties') := by
  refine .bind_eq (newNode_agree_self rfl) fun message => ?_
  refine .bind_eq (.within _ (compileProperties_agree h _ message name hp)) fun _ => ?_
  exact .bind_eq (declareDefinition_agree _ _) fun _ => .pure rfl

/-! ## Schemas -/

variable {s s' : Schema} {items items' : Option Action} {additional additional' : Option Part}
  {properties properties' : List (String × Part)}

theorem compileNew_agree (hs : Schema.Resembles s s')
    (hitems : Option.Rel (ActionAgree like) items items')
    (hadditional : Option.Rel (PartAgree like) additional additional')
    (hp : Entrywise (PartAgree like) (sortEntries properties) (sortEntries properties'))
    (scope : Scope) (rawName name : String) (comment : Value) :
    Agree like Eq
      (compileNew env s scope rawName name comment items additional properties)
      (compileNew env' s' scope rawName name comment items' additional' properties') := by
  unfold compileNew
  cases hs with
  | mk _ _ =>
    refine .ite .rfl (fun _ => ?_) fun _ => .ite .rfl (fun _ => ?_) fun _ =>
      .ite .rfl (fun _ => ?_) fun _ => .ite .rfl (fun _ => .ite .rfl (fun _ => ?_) fun _ => ?_)
        fun _ => .ite .rfl (fun _ => .pure rfl) fun _ => .failWith _
    · exact .bind_eq (compileMultiType_agree _) fun _ => .pure rfl
    · cases hadditional with
      | none => exact compileMessage_agree h scope name comment hp
      | @some p p' hpart =>
        refine .ite ?_ (fun _ => ?_) fun _ => ?_
        · obtain ⟨t, _, _⟩ := p
          obtain ⟨t', _, _⟩ := p'
          obtain ⟨hschema, -, -⟩ := hpart
          cases hschema with
          | mk hprops _ =>
            simp only [isOpen, hprops]
        · exact .bind_eq (addImportFor_agree _) fun _ => .pure rfl
        · exact .bind_eq (compileMap_agree h scope name _ hpart) fun _ => .pure rfl
    · cases hitems with
      | none => exact .failWith _
      | some haction =>
        refine .bind_eq (haction _ _ _) fun d => ?_
        exact .bind_eq (declareDefinition_agree _ _) fun _ => .pure rfl
    · refine .bind_eq (lookupType_agree _ _) fun found => ?_
      cases found with
      | some t => exact .pure rfl
      | none => exact .failWith _
    · refine .bind_eq (compileEnum_agree h _ _ _) fun t => ?_
      exact .bind_eq (declareDefinition_agree _ _) fun _ => .pure rfl

theorem compileWith_agree (hs : Schema.Resembles s s')
    (hitems : Option.Rel (ActionAgree like) items items')
    (hadditional : Option.Rel (PartAgree like) additional additional')
    (hp : Entrywise (PartAgree like) (sortEntries properties) (sortEntries properties')) :
    ActionAgree like (compileWith env s items additional properties)
      (compileWith env' s' items' additional' properties') := by
  intro scope rawName comment
  have hdenull := hs.denull
  have hnew := fun {t t' : Schema} (ht : Schema.Resembles t t') =>
    compileNew_agree h ht hitems hadditional hp scope rawName (Name.pascal rawName) comment
  unfold compileWith
  generalize s.denull = t at hdenull ⊢
  generalize s'.denull = t' at hdenull ⊢
  refine .ite ?_ (fun _ => ?_) fun _ => ?_
  · rw [hs.ref_eq]
  · rw [hs.ref_eq]
    exact .within _ (compileReferenceValue_agree _)
  · have hnew := hnew hdenull
    cases hdenull with
    | mk _ _ =>
      refine .bind_eq (lookupType_agree _ _) fun found => ?_
      cases found with
      | some t => exact .pure rfl
      | none =>
        refine .bind_eq (lookupType_agree _ _) fun found => ?_
        cases found with
        | some t => exact .pure rfl
        | none => exact hnew

end Steps

section Schemas

variable {env env' : Environment}

mutual

/-- Reordered schemas are compiled in the same way. -/
theorem compileSchema_agree (h : env.Akin like env') {s s' : Schema} : Schema.Reordered s s' →
    ActionAgree like (compileSchema env s) (compileSchema env' s')
  | .mk (s := s) hp hi ha => by
    have hitems := compileOption_agree h hi
    have hadditional := partOption_agree h ha
    have hparts := partList_agree h hp
    have hresembles := (Schema.Reordered.mk hp hi ha).resembles
    cases s
    exact compileWith_agree h hresembles hitems hadditional hparts.sortEntries

theorem compileItems_agree (h : env.Akin like env') {s s' : Schema} : Schema.Reordered s s' →
    Option.Rel (ActionAgree like) (compileItems env s) (compileItems env' s')
  | .mk (s := s) _ hi _ => by
    have hitems := compileOption_agree h hi
    cases s
    exact hitems

theorem compileOption_agree (h : env.Akin like env') {o o' : Option Schema} :
    Option.Rel Schema.Reordered o o' →
    Option.Rel (ActionAgree like) (compileOption env o) (compileOption env' o')
  | .none => .none
  | .some hs => .some (compileSchema_agree h hs)

theorem partOption_agree (h : env.Akin like env') {o o' : Option Schema} :
    Option.Rel Schema.Reordered o o' →
    Option.Rel (PartAgree like) (partOption env o) (partOption env' o')
  | .none => .none
  | .some (a := s) (b := s') hs => by
    have hpart : PartAgree like ⟨s, compileSchema env s, compileItems env s⟩
        ⟨s', compileSchema env' s', compileItems env' s'⟩ :=
      ⟨hs.resembles, compileSchema_agree h hs, compileItems_agree h hs⟩
    exact .some hpart

theorem partList_agree (h : env.Akin like env') {l l' : List (String × Schema)} :
    Reordered Schema.Reordered l l' →
    Reordered (PartAgree like) (partList env l) (partList env' l')
  | .nil => .nil
  | .cons key (a := s) (b := s') hnot hs hrest => by
    have hpart : PartAgree like ⟨s, compileSchema env s, compileItems env s⟩
        ⟨s', compileSchema env' s', compileItems env' s'⟩ :=
      ⟨hs.resembles, compileSchema_agree h hs, compileItems_agree h hs⟩
    have hrest := partList_agree h hrest
    simp only [partList_eq_map, List.map_append, List.map_cons] at hrest ⊢
    refine .cons key ?_ hpart hrest
    simpa using hnot

end

mutual

/-- A schema is compiled in the same way in both environments. -/
theorem compileSchema_agree_self (h : env.Akin like env') : ∀ s : Schema,
    ActionAgree like (compileSchema env s) (compileSchema env' s)
  | ⟨_, _, _, _, _, properties, items, additional, _, _⟩ =>
    compileWith_agree h (.refl _) (compileOption_agree_self h items)
      (partOption_agree_self h additional) (partList_agree_self h properties).sortEntries

theorem compileItems_agree_self (h : env.Akin like env') : ∀ s : Schema,
    Option.Rel (ActionAgree like) (compileItems env s) (compileItems env' s)
  | ⟨_, _, _, _, _, _, items, _, _, _⟩ => compileOption_agree_self h items

theorem compileOption_agree_self (h : env.Akin like env') : ∀ o : Option Schema,
    Option.Rel (ActionAgree like) (compileOption env o) (compileOption env' o)
  | none => .none
  | some s => .some (compileSchema_agree_self h s)

theorem partOption_agree_self (h : env.Akin like env') : ∀ o : Option Schema,
    Option.Rel (PartAgree like) (partOption env o) (partOption env' o)
  | none => .none
  | some s => .some ⟨.refl s, compileSchema_agree_self h s, compileItems_agree_self h s⟩

theorem partList_agree_self (h : env.Akin like env') : ∀ l : List (String × Schema),
    Entrywise (PartAgree like) (partList env l) (partList env' l)
  | [] => .nil
  | (key, s) :: rest => .cons key
      ⟨.refl s, compileSchema_agree_self h s, compileItems_agree_self h s⟩
      (partList_agree_self h rest)

end

end Schemas

end ApiProto.Compile
