import ApiProto.Proofs.Fits
import ApiProto.Proofs.Reordering

/-!
# Schemas that gain null

An object or a list that may be null is compiled like one that may not: messages and repeated fields
have an empty state already. The values of a map are the one place where `null` tells, when it comes
before the type of a list.

* `NullBeside` — two lists of types, the second of which may have `null` beside an object or a list.
* `Schema.GainsNull` — two schemas with such types at every depth.
* `Schema.GainsNull.denull_eq` — what is left of them without `null` has the same types.
* `compileMapValue_congr` — the values of a map, where `null` may tell.
* `compileSchema_congr` — such schemas are compiled in the same way.
-/

namespace ApiProto

/-- What is done with the values under keys is the same if it is for related values. -/
theorem Entrywise.mapM_congr {α β : Type} {m : Type → Type} [Monad m] [LawfulMonad m]
    {R : α → α → Prop} {l l' : List (String × α)} {f f' : String × α → m β} (h : Entrywise R l l')
    (hf : ∀ key a b, R a b → f' (key, b) = f (key, a)) : l'.mapM f' = l.mapM f := by
  induction h with
  | nil => rfl
  | cons key hab _ ih => simp only [List.mapM_cons, hf key _ _ hab, ih]

end ApiProto

namespace ApiProto.Document

/-- Two lists of types: the same, or an object or a list alone, and with `null` after or before. -/
inductive NullBeside : List String → List String → Prop
  | same (types : List String) : NullBeside types types
  | after {type : String} : type = "object" ∨ type = "array" → NullBeside [type] [type, "null"]
  | before {type : String} : type = "object" ∨ type = "array" → NullBeside [type] ["null", type]

namespace Schema

/-- Whether a schema is an object that is written in place. If it has a schema for the values under
other keys, it is a map. -/
def DescribesObject (s : Schema) : Prop := s.ref.isEmpty = true ∧ Compile.isObject s.denull

/-- Whether `null` comes before the type of a list that is written in place. -/
def HidesList (s : Schema) : Prop := s.ref.isEmpty = true ∧ s.types = ["null", "array"]

/-- Two schemas of which the second may have `null` besides the types of objects and lists, at any
depth, but not before the type of a list that is the value of a map. -/
inductive GainsNull : Schema → Schema → Prop
  | mk {s : Schema} {types : List String} {properties : List (String × Schema)}
      {items additional : Option Schema} :
      NullBeside s.types types →
      Entrywise GainsNull s.properties properties →
      Option.Rel GainsNull s.items items →
      Option.Rel GainsNull s.additional additional →
      -- For the values of a map, only the first of their types is looked at.
      (s.DescribesObject → ∀ v ∈ s.additional, ∀ v' ∈ additional, v'.HidesList → v.types = v'.types) →
      GainsNull s
        { s with types := types, properties := properties, items := items,
                 additional := additional }

end Schema

/-! ## What is the same -/

namespace NullBeside

variable {types types' : List String}

theorem isEmpty_eq (h : NullBeside types types') : types'.isEmpty = types.isEmpty := by
  cases h <;> rfl

theorem contains_array_eq (h : NullBeside types types') :
    types'.contains "array" = types.contains "array" := by
  cases h with
  | same => rfl
  | after htype => rcases htype with rfl | rfl <;> decide
  | before htype => rcases htype with rfl | rfl <;> decide

/-- The first of the types is that of a list in both, unless `null` has come before it. -/
theorem firstType_iff {s s' : Schema} (h : NullBeside s.types s'.types)
    (hbefore : s'.types = ["null", "array"] → s.types = s'.types) :
    s'.firstType = "array" ↔ s.firstType = "array" := by
  unfold Schema.firstType
  generalize s.types = types at h hbefore ⊢
  generalize s'.types = types' at h hbefore ⊢
  cases h with
  | same => exact .rfl
  | after => exact .rfl
  | before htype =>
    rcases htype with rfl | rfl
    · decide
    · exact absurd (hbefore rfl) (by decide)

end NullBeside

namespace Schema

/-- Only the types of a schema depend on `null`. -/
theorem denull_eq_with (s : Schema) : s.denull = { s with types := s.denull.types } := by
  cases s
  unfold denull
  split
  · rfl
  · split <;> rfl

/-- Without `null`, the types do not depend on the rest of a schema. -/
theorem denull_types_congr {s s' : Schema} (h : s'.types = s.types) :
    s'.denull.types = s.denull.types := by
  unfold denull
  rw [h]
  split
  · exact h
  · split
    · rfl
    · rfl
    · exact h

/-- Whether a schema describes an object depends on its reference and its types only. -/
theorem DescribesObject.congr {s s' : Schema} (h : s'.DescribesObject) (href : s'.ref = s.ref)
    (htypes : s'.types = s.types) : s.DescribesObject := by
  unfold DescribesObject Compile.isObject at h ⊢
  rwa [href, denull_types_congr htypes] at h

namespace GainsNull

variable {s s' : Schema}

theorem of_parts
    (same : s' = { s with types := s'.types, properties := s'.properties, items := s'.items,
                          additional := s'.additional })
    (htypes : NullBeside s.types s'.types)
    (hproperties : Entrywise GainsNull s.properties s'.properties)
    (hitems : Option.Rel GainsNull s.items s'.items)
    (hadditional : Option.Rel GainsNull s.additional s'.additional)
    (hvalues : s.DescribesObject → ∀ v ∈ s.additional, ∀ v' ∈ s'.additional,
      v'.HidesList → v.types = v'.types) : s.GainsNull s' := by
  rw [same]
  exact .mk htypes hproperties hitems hadditional hvalues

theorem ref_eq (h : s.GainsNull s') : s'.ref = s.ref := by
  cases h
  rfl

theorem description_eq (h : s.GainsNull s') : s'.description = s.description := by
  cases h
  rfl

theorem types (h : s.GainsNull s') : NullBeside s.types s'.types := by
  cases h
  assumption

theorem items (h : s.GainsNull s') : Option.Rel GainsNull s.items s'.items := by
  cases h
  assumption

theorem isEmpty_properties_eq (h : s.GainsNull s') :
    s'.properties.isEmpty = s.properties.isEmpty := by
  cases h with
  | @mk s _ properties _ _ _ hproperties _ _ _ =>
    generalize s.properties = before at hproperties ⊢
    cases hproperties <;> rfl

/-- Without `null`, the types are the same. -/
theorem denull_types_eq (h : s.GainsNull s') : s'.denull.types = s.denull.types := by
  have halone : ∀ (t : Schema) (type : String), type = "object" ∨ type = "array" →
      t.types = [type] ∨ t.types = [type, "null"] ∨ t.types = ["null", type] →
      t.denull.types = [type] := by
    intro t type htype htypes
    rcases htype with rfl | rfl <;> rcases htypes with h | h | h <;> simp [denull, h]
  have htypes := h.types
  generalize htypes₁ : s.types = types at htypes
  generalize htypes₂ : s'.types = types' at htypes
  cases htypes with
  | same => exact denull_types_congr (htypes₂.trans htypes₁.symm)
  | after htype =>
    rw [halone s _ htype (.inl htypes₁), halone s' _ htype (.inr (.inl htypes₂))]
  | before htype =>
    rw [halone s _ htype (.inl htypes₁), halone s' _ htype (.inr (.inr htypes₂))]

/-- Without `null`, only the parts differ. -/
theorem denull_eq (h : s.GainsNull s') : s'.denull =
    { s.denull with
      properties := s'.properties, items := s'.items, additional := s'.additional } := by
  have htypes := h.denull_types_eq
  rw [denull_eq_with s', denull_eq_with s, htypes]
  cases h
  rfl

end GainsNull

mutual

/-- No schema need gain `null`. -/
theorem gainsNull_refl : ∀ s : Schema, s.GainsNull s
  | ⟨_, _, _, _, _, properties, items, additional, _, _⟩ =>
    .of_parts rfl (.same _) (entrywise_gainsNull_refl properties) (rel_gainsNull_refl items)
      (rel_gainsNull_refl additional) fun _ _ hv _ hv' _ =>
        congrArg types (Option.some.inj (hv.symm.trans hv'))

theorem rel_gainsNull_refl : ∀ o : Option Schema, Option.Rel GainsNull o o
  | none => .none
  | some s => .some (gainsNull_refl s)

theorem entrywise_gainsNull_refl : ∀ l : List (String × Schema), Entrywise GainsNull l l
  | [] => .nil
  | (key, s) :: rest => .cons key (gainsNull_refl s) (entrywise_gainsNull_refl rest)

end

/-- A schema may have `null` besides its own type, whatever is in it. -/
theorem gainsNull_types (s : Schema) {types : List String} (h : NullBeside s.types types) :
    s.GainsNull { s with types := types } := by
  apply GainsNull.mk h (entrywise_gainsNull_refl _) (rel_gainsNull_refl _) (rel_gainsNull_refl _)
  intro _ v hv v' hv' _
  exact congrArg Schema.types (Option.some.inj (hv.symm.trans hv'))

end Schema

end ApiProto.Document

namespace ApiProto.Compile

open Proto Document CompileM

/-! ## Parts -/

/-- Two schemas inside others, of which the second gains `null`, that are compiled in the same
way. -/
structure Part.GainsNull (p p' : Part) : Prop where
  schema : p.schema.GainsNull p'.schema
  whole : p'.whole = p.whole
  items : p'.items = p.items

/-- Two environments in which schemas are compiled in the same way. -/
structure Environment.Same (env env' : Environment) : Prop where
  options : env'.options = env.options
  reserved : reservedNames env'.spec = reservedNames env.spec

theorem isOpen_congr {s s' : Schema} (h : s.GainsNull s') : isOpen s' = isOpen s := by
  simp only [isOpen, h.types.isEmpty_eq, h.ref_eq, h.isEmpty_properties_eq]

variable {env env' : Environment}

section Steps

variable (h : env.Same env')
include h

theorem listWrapperName_congr : listWrapperName env'.spec = listWrapperName env.spec := by
  funext c base
  simp only [listWrapperName, h.reserved]

theorem compileEnum_congr : compileEnum env' = compileEnum env := by
  funext scope name choices
  simp only [compileEnum, h.options]

theorem refListWrapper_congr : refListWrapper env' = refListWrapper env := by
  funext scope ref
  simp only [refListWrapper, listWrapperName_congr h]

/-- The values of a map have the same type, unless `null` hides a list. -/
theorem compileMapValue_congr (scope : Scope) (name rawName : String) {p p' : Part}
    (hp : p.GainsNull p') (hlist : p'.schema.HidesList → p.schema.types = p'.schema.types) :
    compileMapValue env' scope name rawName p' = compileMapValue env scope name rawName p := by
  obtain ⟨hs, hwhole, hitems⟩ := hp
  have hfirst : p.schema.ref.isEmpty = true →
      (p'.schema.firstType = "array" ↔ p.schema.firstType = "array") := by
    intro href
    apply hs.types.firstType_iff
    intro hbefore
    exact hlist ⟨by rw [hs.ref_eq]; exact href, hbefore⟩
  unfold compileMapValue
  dsimp only
  rw [hs.ref_eq, hs.description_eq, hwhole, hitems, refListWrapper_congr h]
  by_cases href : p.schema.ref.isEmpty = true
  · simp only [href, Bool.not_true, Bool.false_eq_true, if_false, hfirst href]
    have hsub := hs.items
    generalize p.schema.items = sub at hsub ⊢
    generalize p'.schema.items = sub' at hsub ⊢
    cases hsub with
    | none => rfl
    | some hitem =>
      rcases p.items with _ | action
      · rfl
      · simp only [hitem.ref_eq, hitem.description_eq, hitem.isEmpty_properties_eq]
  · simp only [href, Bool.not_false, if_true]

theorem compileMap_congr (scope : Scope) (name rawName : String) {p p' : Part}
    (hp : p.GainsNull p') (hlist : p'.schema.HidesList → p.schema.types = p'.schema.types) :
    compileMap env' scope name rawName p' = compileMap env scope name rawName p := by
  simp only [compileMap, compileMapValue_congr h scope name rawName hp hlist]

/-! ## Messages -/

theorem compilePropertyType_congr (scope : Scope) (name : String) {p p' : Part}
    (hp : p.GainsNull p') :
    compilePropertyType env' scope name p' = compilePropertyType env scope name p := by
  obtain ⟨hs, hwhole, hitems⟩ := hp
  unfold compilePropertyType
  dsimp only
  rw [hs.denull_eq, hwhole, hitems, h.options, compileEnum_congr h]
  rfl

theorem compileProperty_congr (scope : Scope) (name : String) {p p' : Part}
    (hp : p.GainsNull p') :
    compileProperty env' scope name p' = compileProperty env scope name p := by
  unfold compileProperty
  dsimp only
  rw [compilePropertyType_congr h scope name hp, hp.schema.denull_types_eq]
  obtain ⟨hs, -, -⟩ := hp
  generalize p.schema = s at hs ⊢
  generalize p'.schema = s' at hs ⊢
  cases hs
  rfl

theorem compileProperties_congr (scope : Scope) (message : Nat) (name : String)
    {properties properties' : List (String × Part)}
    (hp : Entrywise Part.GainsNull properties properties') :
    compileProperties env' scope message name properties' =
      compileProperties env scope message name properties := by
  unfold compileProperties
  rw [hp.sortEntries.mapM_congr]
  intro key p p' hp
  show within _ (compileProperty env' scope key p') = within _ (compileProperty env scope key p)
  rw [compileProperty_congr h scope key hp]

theorem compileMessage_congr (scope : Scope) (name : String) (comment : Value)
    {properties properties' : List (String × Part)}
    (hp : Entrywise Part.GainsNull properties properties') :
    compileMessage env' scope name comment properties' =
      compileMessage env scope name comment properties := by
  simp only [compileMessage, compileProperties_congr h _ _ name hp]

/-! ## Schemas -/

section Congr

variable {s s' : Schema} (hs : s.GainsNull s') (items : Option Action)
  {additional additional' : Option Part} {properties properties' : List (String × Part)}
  (hadditional : Option.Rel Part.GainsNull additional additional')
  (hvalues : s.DescribesObject → ∀ p ∈ additional, ∀ p' ∈ additional',
    p'.schema.HidesList → p.schema.types = p'.schema.types)
  (hproperties : Entrywise Part.GainsNull properties properties')
include hs hadditional hvalues hproperties

/-- A schema that is compiled anew, once `null` has been dropped. -/
theorem compileNew_congr (href : s.ref.isEmpty = true) (scope : Scope) (rawName name : String)
    (comment : Value) :
    compileNew env' s'.denull scope rawName name comment items additional' properties' =
      compileNew env s.denull scope rawName name comment items additional properties := by
  rw [hs.denull_eq]
  unfold compileNew
  dsimp only
  by_cases hmany : 1 < s.denull.types.length
  · rw [if_pos hmany, if_pos hmany]
    rfl
  rw [if_neg hmany, if_neg hmany]
  by_cases hobject : (s.denull.types.isEmpty || s.denull.types.contains "object") = true
  · rw [if_pos hobject, if_pos hobject]
    cases hadditional with
    | none => exact compileMessage_congr h scope name comment hproperties
    | some hp =>
      have hdescribes : isObject s.denull := ⟨Nat.le_of_not_lt hmany, by simpa using hobject⟩
      have hmaps := hvalues ⟨href, hdescribes⟩ _ rfl _ rfl
      dsimp only
      rw [isOpen_congr hp.schema, compileMap_congr h scope name _ hp hmaps]
  · rw [if_neg hobject, if_neg hobject, compileEnum_congr h]
    rfl

theorem compileWith_congr :
    compileWith env' s' items additional' properties' =
      compileWith env s items additional properties := by
  funext scope rawName comment
  unfold compileWith
  rw [hs.ref_eq]
  by_cases href : s.ref.isEmpty = true
  · have hnew := compileNew_congr h hs items hadditional hvalues hproperties href scope rawName
      (Name.pascal rawName) comment
    have hformat : s'.denull.format = s.denull.format := by rw [hs.denull_eq]
    simp only [href, Bool.not_true, Bool.false_eq_true, if_false, hnew, hformat]
  · simp only [href, Bool.not_false, if_true]

end Congr

end Steps

theorem schema_mem_partOption {o : Option Schema} {p : Part} (hp : p ∈ partOption env o) :
    p.schema ∈ o := by
  cases o with
  | none => exact nomatch hp
  | some s =>
    obtain rfl := Option.some.inj hp
    exact rfl

mutual

/-- Schemas of which one gains `null` are compiled in the same way. -/
theorem compileSchema_congr (h : env.Same env') {s s' : Schema} : s.GainsNull s' →
    compileSchema env' s' = compileSchema env s
  | .mk (s := s) htypes hproperties hitems hadditional hvalues => by
    have hsub := compileOption_congr h hitems
    have hpart := partOption_congr h hadditional
    have hparts := partList_congr h hproperties
    have hgains := Schema.GainsNull.mk htypes hproperties hitems hadditional hvalues
    have hmaps : s.DescribesObject → ∀ p ∈ partOption env s.additional,
        ∀ p' ∈ partOption env' _, p'.schema.HidesList → p.schema.types = p'.schema.types :=
      fun hobject p hp p' hp' =>
        hvalues hobject _ (schema_mem_partOption hp) _ (schema_mem_partOption hp')
    cases s
    show compileWith env' _ _ _ _ = compileWith env _ _ _ _
    rw [hsub]
    exact compileWith_congr h hgains _ hpart hmaps hparts

theorem compileItems_congr (h : env.Same env') {s s' : Schema} : s.GainsNull s' →
    compileItems env' s' = compileItems env s
  | .mk (s := s) _ _ hitems _ _ => by
    have hsub := compileOption_congr h hitems
    cases s
    exact hsub

theorem compileOption_congr (h : env.Same env') {o o' : Option Schema} :
    Option.Rel Schema.GainsNull o o' → compileOption env' o' = compileOption env o
  | .none => rfl
  | .some hs => congrArg some (compileSchema_congr h hs)

theorem partOption_congr (h : env.Same env') {o o' : Option Schema} :
    Option.Rel Schema.GainsNull o o' →
    Option.Rel Part.GainsNull (partOption env o) (partOption env' o')
  | .none => .none
  | .some hs => .some ⟨hs, compileSchema_congr h hs, compileItems_congr h hs⟩

theorem partList_congr (h : env.Same env') {l l' : List (String × Schema)} :
    Entrywise Schema.GainsNull l l' →
    Entrywise Part.GainsNull (partList env l) (partList env' l')
  | .nil => .nil
  | .cons key hs hrest =>
    .cons key ⟨hs, compileSchema_congr h hs, compileItems_congr h hs⟩ (partList_congr h hrest)

end

end ApiProto.Compile
