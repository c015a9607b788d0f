import ApiProto.Document.Build
import ApiProto.Proofs.NullableSchemas
import ApiProto.Proofs.Reachable
import ApiProto.Proofs.SkippedProcedures

/-!
# Null on objects and lists does not matter

Two descriptions of which the second has `null` as one more type at some objects and lists give the
same package, or fail with the same error, whatever the options. Nothing that is done with a schema
outside of its own compilation tells whether `null` is there either: not whether a parameter or a
response is a list, and not what is in the body of a request.

* `Spec.GainsNull` — two such descriptions.
* `compileRequest_congr`, `compileResponse_congr`, `compileOperation_congr` — the procedures.
* `compile_eq_of_gainsNull` — the packages.
* `null_tells_zoo` — before the type of a list that is the value of a map, `null` does matter.
-/

namespace ApiProto.Document

/-! ## Descriptions -/

/-- Two parameters of which the second may have `null` at objects and lists. -/
structure Parameter.GainsNull (p p' : Parameter) : Prop where
  same : p' = { p with types := p'.types, items := p'.items, schema := p'.schema }
  types : NullBeside p.types p'.types
  items : Option.Rel Schema.GainsNull p.items p'.items
  schema : Option.Rel Schema.GainsNull p.schema p'.schema

/-- Two responses of which the schema of the second may have `null` at objects and lists. -/
structure Response.GainsNull (r r' : Response) : Prop where
  same : r' = { r with schema := r'.schema }
  schema : Option.Rel Schema.GainsNull r.schema r'.schema

/-- Two operations of which the second may have `null` at objects and lists. -/
structure Endpoint.GainsNull (e e' : Endpoint) : Prop where
  same : e' = { e with parameters := e'.parameters, responses := e'.responses }
  parameters : List.Forall₂ Parameter.GainsNull e.parameters e'.parameters
  responses : Entrywise Response.GainsNull e.responses e'.responses

/-- Two paths of which the second may have `null` at objects and lists. -/
structure PathItem.GainsNull (i i' : PathItem) : Prop where
  parameters : List.Forall₂ Parameter.GainsNull i.parameters i'.parameters
  endpoints : List.Forall₂ Endpoint.GainsNull i.endpoints i'.endpoints

/-- Two descriptions of which the second may have `null` besides the types of objects and lists, in
any schema at any depth, but not before the type of a list that is the value of a map. -/
structure Spec.GainsNull (s s' : Spec) : Prop where
  same : s' = { s with
    definitions := s'.definitions, parameters := s'.parameters, paths := s'.paths }
  definitions : Entrywise Schema.GainsNull s.definitions s'.definitions
  parameters : Entrywise Parameter.GainsNull s.parameters s'.parameters
  paths : Entrywise PathItem.GainsNull s.paths s'.paths

theorem Schema.GainsNull.contains_array_eq {s s' : Schema} (h : s.GainsNull s') :
    s'.types.contains "array" = s.types.contains "array" :=
  h.types.contains_array_eq

/-- Both parameters carry lists, or none does. -/
theorem Parameter.GainsNull.isArray_eq {p p' : Parameter} (h : p.GainsNull p') :
    p'.isArray = p.isArray := by
  obtain ⟨-, -, hitems, hschema⟩ := h
  unfold Parameter.isArray
  generalize p.items = items at hitems ⊢
  generalize p'.items = items' at hitems ⊢
  generalize p.schema = schema at hschema ⊢
  generalize p'.schema = schema' at hschema ⊢
  cases hitems with
  | some => rfl
  | none =>
    cases hschema with
    | none => rfl
    | some hs => simp only [Option.isSome_none, Option.any_some, hs.contains_array_eq]

end ApiProto.Document

namespace ApiProto.Compile

open Proto Document CompileM

/-! ## Steps that do not differ -/

theorem Agree.of_eq {α : Type} {m m' : CompileM α} (h : m' = m) : Agree .exact Eq m m' := by
  intro c c' hc
  rw [h, hc.eq]
  exact .refl (fun p => ⟨rfl, .refl (fun _ => rfl) p.2⟩) _

theorem Agree.imp {β γ : Type} {like : Likeness} {R R' : β → γ → Prop} {m : CompileM β}
    {m' : CompileM γ} (h : Agree like R m m') (hR : ∀ a b, R a b → R' a b) :
    Agree like R' m m' :=
  fun c c' hc => (h c c' hc).imp fun _ _ hp => ⟨hR _ _ hp.1, hp.2⟩

/-! ## Requests -/

theorem parameterSchema_gainsNull {p p' : Parameter} (hp : p.GainsNull p') :
    Agree .exact (EntryRel Schema.GainsNull) (parameterSchema p) (parameterSchema p') := by
  obtain ⟨hsame, htypes, hitems, hschema⟩ := hp
  by_cases href : p.ref.isEmpty = true
  · rw [hsame]
    unfold parameterSchema
    refine .ite .rfl (fun hnot => ?_) fun _ => ?_
    · simp [href] at hnot
    refine .bind_eq (.result _) fun name => ?_
    dsimp only
    generalize p.schema = schema at hschema ⊢
    generalize p'.schema = schema' at hschema ⊢
    cases hschema with
    | none =>
      refine .pure ⟨rfl, .of_parts rfl htypes .nil hitems .none ?_⟩
      intro _ _ hv
      exact nomatch hv
    | some hs =>
      cases hs with
      | mk htypes hproperties hitems hadditional hvalues =>
        refine .pure ⟨rfl, .of_parts rfl htypes hproperties hitems hadditional ?_⟩
        intro hobject
        exact hvalues (hobject.congr rfl rfl)
  · have heq : parameterSchema p' = parameterSchema p := by
      rw [hsame]
      simp only [parameterSchema, href, Bool.not_false, if_true]
    apply (Agree.of_eq heq).imp
    rintro a _ rfl
    exact ⟨rfl, a.2.gainsNull_refl⟩

theorem requestSchema_gainsNull {parameters parameters' : List Parameter}
    (hp : List.Forall₂ Parameter.GainsNull parameters parameters') :
    Agree .exact Schema.GainsNull (requestSchema parameters) (requestSchema parameters') := by
  refine .bind (R := List.Forall₂ (EntryRel Schema.GainsNull)) (.mapM hp fun p p' hpp => ?_)
    fun properties properties' hproperties => .pure ?_
  · have hname : p'.name = p.name := by rw [hpp.same]
    have href : p'.ref = p.ref := by rw [hpp.same]
    rw [hname, href]
    exact .within _ (parameterSchema_gainsNull hpp)
  · have hentries := (Entrywise.of_forall₂ hproperties).collectEntries
    refine .of_parts rfl (.same _) hentries .none .none ?_
    intro _ _ hv
    exact nomatch hv

/-- Two environments with the same options, and descriptions of which the second may have `null` at
objects and lists. -/
structure Environment.GainsNull (env env' : Environment) : Prop where
  options : env'.options = env.options
  spec : env.spec.GainsNull env'.spec

variable {env env' : Environment}

theorem Environment.GainsNull.toSame (h : env.GainsNull env') : env.Same env' where
  options := h.options
  reserved := by
    have hkeys : ∀ {β : Type} {R : β → β → Prop} {l l' : List (String × β)}, Entrywise R l l' →
        (l'.map fun entry => Name.pascal entry.1) = l.map fun entry => Name.pascal entry.1 := by
      intro β R l l' hl
      induction hl with
      | nil => rfl
      | cons key _ _ ih => rw [List.map_cons, List.map_cons, ih]
    exact congrArg₂ (· ++ ·) (hkeys h.spec.definitions) (hkeys h.spec.parameters)

section Operations

variable (h : env.GainsNull env')
include h

theorem compileRequest_congr (scope : Scope) (name : String) {parameters parameters' : List Parameter}
    (hp : List.Forall₂ Parameter.GainsNull parameters parameters') :
    compileRequest env' scope name parameters' = compileRequest env scope name parameters := by
  apply Eq.symm
  apply Agree.eq
  refine .ite ?_ (fun _ => .of_eq rfl) fun _ => ?_
  · cases hp <;> simp
  · refine .bind (requestSchema_gainsNull hp) fun s s' hs => .of_eq ?_
    rw [compileSchema_congr h.toSame hs]

/-! ## Responses -/

theorem arrayItems_gainsNull {s s' : Schema} (hs : s.GainsNull s') :
    Related (Option.Rel Schema.GainsNull) (arrayItems env.spec s) (arrayItems env'.spec s') := by
  have hnamed : Related (Option.Rel Schema.GainsNull) (arrayItems.named env.spec s)
      (arrayItems.named env'.spec s') := by
    unfold arrayItems.named
    rw [hs.ref_eq, h.spec.same]
    refine .map (R := Eq) (.refl (fun _ => rfl) _) fun ref _ heq => heq ▸ ?_
    rcases Text.stringAfter? env.spec.definitionsPrefix ref with _ | name
    · exact .none
    have htarget := h.spec.definitions.lookup name
    simp only [Option.bind_eq_bind, Option.bind_some]
    generalize env.spec.definitions.lookup name = target at htarget ⊢
    generalize env'.spec.definitions.lookup name = target' at htarget ⊢
    cases htarget with
    | none => exact .none
    | some ht =>
      simp only [Option.bind_some, ht.contains_array_eq]
      split
      · exact ht.items
      · exact .none
  have hitems := hs.items
  unfold arrayItems
  rw [hs.types.isEmpty_eq, hs.contains_array_eq]
  generalize s.items = items at hitems ⊢
  generalize s'.items = items' at hitems ⊢
  cases hitems with
  | none => exact hnamed
  | some hi =>
    dsimp only
    split
    · exact .some hi
    · exact hnamed

omit h in
theorem responseSchema?_gainsNull {e e' : Endpoint} (he : e.GainsNull e') :
    Option.Rel Schema.GainsNull (responseSchema? e) (responseSchema? e') := by
  unfold responseSchema?
  generalize responseCodes = codes
  induction codes with
  | nil => exact .none
  | cons code rest ih =>
    have hresponse := he.responses.lookup code
    simp only [List.findSome?_cons]
    generalize e.responses.lookup code = found at hresponse ⊢
    generalize e'.responses.lookup code = found' at hresponse ⊢
    cases hresponse with
    | none => exact ih
    | @some r r' hr =>
      have hschema := hr.schema
      simp only [Option.bind_some]
      generalize r.schema = schema at hschema ⊢
      generalize r'.schema = schema' at hschema ⊢
      cases hschema with
      | none => exact ih
      | some hs => exact .some hs

theorem compileResponse_congr (scope : Scope) (name : String) {e e' : Endpoint}
    (he : e.GainsNull e') :
    compileResponse env' scope name e' = compileResponse env scope name e := by
  apply Eq.symm
  apply Agree.eq
  unfold compileResponse
  have hschema := responseSchema?_gainsNull he
  generalize responseSchema? e = found at hschema ⊢
  generalize responseSchema? e' = found' at hschema ⊢
  cases hschema with
  | none => exact .of_eq rfl
  | some hs =>
    refine .bind (.ofResult (arrayItems_gainsNull h hs)) fun items items' hitems => .of_eq ?_
    cases hitems with
    | none =>
      simp only [compileSchema_congr h.toSame hs, hs.description_eq]
    | some hi =>
      simp only [compileArrayResponse, compileSchema_congr h.toSame hi]

/-! ## Options -/

theorem sharedParameter?_gainsNull {p p' : Parameter} (hp : p.GainsNull p') :
    Option.Rel Parameter.GainsNull (sharedParameter? env.spec p)
      (sharedParameter? env'.spec p') := by
  unfold sharedParameter?
  rw [h.spec.same, hp.same]
  simp only [Option.bind_eq_bind]
  rcases p.ref.text? with _ | ref
  · exact .none
  simp only [Option.bind_some]
  rcases Text.stringAfter? env.spec.parametersPrefix ref with _ | name
  · exact .none
  · exact h.spec.parameters.lookup name

theorem bodyField_congr {parameters parameters' : List Parameter}
    (hp : List.Forall₂ Parameter.GainsNull parameters parameters') :
    bodyField env'.spec parameters' = bodyField env.spec parameters := by
  unfold bodyField
  congr 1
  induction hp with
  | nil => rfl
  | @cons p p' _ _ hpp _ ih =>
    have heffective : ((sharedParameter? env.spec p).getD p).GainsNull
        ((sharedParameter? env'.spec p').getD p') := by
      have hshared := sharedParameter?_gainsNull h hpp
      generalize sharedParameter? env.spec p = found at hshared ⊢
      generalize sharedParameter? env'.spec p' = found' at hshared ⊢
      cases hshared with
      | none => exact hpp
      | some hs => exact hs
    have hlocation := congrArg Parameter.location heffective.same
    have hname := congrArg Parameter.name heffective.same
    have hown := congrArg Parameter.name hpp.same
    simp only at hlocation hname hown
    simp only [List.findSome?_cons, hlocation, hname, hown, ih]

theorem httpOption_congr (verb : Verb) (path : String) {parameters parameters' : List Parameter}
    (hp : List.Forall₂ Parameter.GainsNull parameters parameters') :
    httpOption env'.spec verb path parameters' = httpOption env.spec verb path parameters := by
  have hbase : env'.spec.basePath = env.spec.basePath := by rw [h.spec.same]
  simp only [httpOption, hbase, bodyField_congr h hp]

/-! ## Procedures -/

theorem compileOperation_congr (scope : Scope) (path : String) {shared shared' : List Parameter}
    (hshared : List.Forall₂ Parameter.GainsNull shared shared') {e e' : Endpoint}
    (he : e.GainsNull e') :
    compileOperation env' scope path shared' e' = compileOperation env scope path shared e := by
  have hp : List.Forall₂ Parameter.GainsNull (shared ++ e.parameters) (shared' ++ e'.parameters) :=
    List.rel_append hshared he.parameters
  unfold compileOperation
  dsimp only
  rw [h.options]
  simp only [compileRequest_congr h scope _ hp, compileResponse_congr h scope _ he,
    httpOption_congr h _ path hp]
  rw [he.same]

theorem compilePath_congr (scope : Scope) (path : String) {item item' : PathItem}
    (hi : item.GainsNull item') :
    compilePath env' scope path item' = compilePath env scope path item :=
  (Agree.eq (.forM hi.endpoints fun _ _ he =>
    .of_eq (compileOperation_congr h scope path hi.parameters he))).symm

/-! ## Phases -/

theorem compileDefinitions_congr (scope : Scope) :
    compileDefinitions env' scope = compileDefinitions env scope := by
  have hkey : env'.spec.definitionsPrefix = env.spec.definitionsPrefix := by rw [h.spec.same]
  refine (Agree.eq (.forM h.spec.definitions.sortEntries.forall₂ fun x y hxy => .of_eq ?_)).symm
  obtain ⟨name, s⟩ := x
  obtain ⟨name', s'⟩ := y
  obtain ⟨hname, hs⟩ := hxy
  dsimp only at hname hs ⊢
  rw [hkey, ← hname, compileSchema_congr h.toSame hs, hs.description_eq]

theorem compileParameters_congr (scope : Scope) :
    compileParameters env' scope = compileParameters env scope := by
  have hkey : env'.spec.parametersPrefix = env.spec.parametersPrefix := by rw [h.spec.same]
  refine (Agree.eq (.forM h.spec.parameters.sortEntries.forall₂ fun x y hxy => ?_)).symm
  obtain ⟨name, p⟩ := x
  obtain ⟨name', p'⟩ := y
  obtain ⟨rfl, hp⟩ := hxy
  dsimp only at hp ⊢
  have hname : p'.name = p.name := by rw [hp.same]
  have htag : p'.tag = p.tag := by rw [hp.same]
  rw [hkey, hname, htag, hp.isArray_eq]
  refine .bind_eq (.within _ ?_) fun d => .of_eq rfl
  refine .bind (parameterSchema_gainsNull hp) fun entry entry' hentry => .of_eq ?_
  obtain ⟨-, hs⟩ := hentry
  rw [compileSchema_congr h.toSame hs, hs.description_eq]

theorem compilePaths_congr (scope : Scope) :
    compilePaths env' scope = compilePaths env scope := by
  refine (Agree.eq (.forM h.spec.paths.sortEntries.forall₂ fun x y hxy => .of_eq ?_)).symm
  obtain ⟨path, item⟩ := x
  obtain ⟨path', item'⟩ := y
  obtain ⟨rfl, hi⟩ := hxy
  dsimp only at hi ⊢
  rw [compilePath_congr h scope _ hi]

theorem compileAll_congr : compileAll env' = compileAll env := by
  have hextensions : env'.spec.extensions = env.spec.extensions := by rw [h.spec.same]
  unfold compileAll
  simp only [h.options, hextensions, compileDefinitions_congr h, compileParameters_congr h,
    compilePaths_congr h]

end Operations

/-- Descriptions of which one has `null` as one more type at objects and lists give the same package,
or fail with the same error. -/
theorem compile_eq_of_gainsNull (options : Options) {spec spec' : Spec}
    (h : spec.GainsNull spec') : compile options spec' = compile options spec := by
  have henv : Environment.GainsNull ⟨options, spec⟩ ⟨options, spec'⟩ := ⟨rfl, h⟩
  have hstart : startOf ⟨options, spec'⟩ = startOf ⟨options, spec⟩ := by
    unfold startOf
    rw [h.same]
  simp only [compile, compileAll_congr henv, hstart]

/-! ## Lists of keepers -/

/-- A description of zoos, each with values under names. -/
def zoo (values : Schema) : Spec := .ofDefinitions [("Zoo", .object [("keepers", .map values)])]

/-- A list of names. -/
def names : Schema := .array (.scalar "string")

theorem gainsNull_zoo : (zoo names).GainsNull (zoo { names with types := names.types ++ ["null"] }) where
  same := rfl
  definitions := by
    have hnames : names.GainsNull { names with types := names.types ++ ["null"] } :=
      names.gainsNull_types (.after (.inr rfl))
    have hmap : (Schema.map names).GainsNull
        (.map { names with types := names.types ++ ["null"] }) := by
      refine .of_parts rfl (.same _) .nil .none (.some hnames) ?_
      intro _ v hv v' hv' hhides
      obtain rfl := Option.some.inj hv'
      exact absurd hhides.2 (by decide)
    exact .cons _ (.of_parts rfl (.same _) (.cons _ hmap .nil) .none .none
      fun _ _ hv => nomatch hv) .nil
  parameters := .nil
  paths := .nil

theorem compile_eq_of_gainsNull_zoo :
    (zoo names).GainsNull (zoo { names with types := names.types ++ ["null"] }) ∧
    ∃ o, compile ⟨false, false, false, false, "zoo"⟩ (zoo names) = .ok o ∧
      compile ⟨false, false, false, false, "zoo"⟩
        (zoo { names with types := names.types ++ ["null"] }) = .ok o := by
  obtain ⟨c, hcompile, -⟩ := compile_of_compilesTo
    (show compilesTo ⟨false, false, false, false, "zoo"⟩ (zoo names) (fun _ => true) = true by
      decide +kernel)
  exact ⟨gainsNull_zoo, _, hcompile, (compile_eq_of_gainsNull _ gainsNull_zoo).trans hcompile⟩

/-- The types of the values of maps. -/
def mapValues (g : Graph) : List TypeRef :=
  g.nodes.toList.filterMap fun n => match n with
    | .map _ value => some value
    | _ => none

/-- With `null` before the type of a list, the values of a map are its items. -/
theorem null_tells_zoo : ∃ o o',
    compile ⟨false, false, false, false, "zoo"⟩ (zoo names) = .ok o ∧
    compile ⟨false, false, false, false, "zoo"⟩
      (zoo { names with types := "null" :: names.types }) = .ok o' ∧
    mapValues o.graph = [.builtin .listValue] ∧ mapValues o'.graph = [.builtin .string] ∧
    o ≠ o' := by
  obtain ⟨c, hcompile, hvalues⟩ := compile_of_compilesTo
    (show compilesTo ⟨false, false, false, false, "zoo"⟩ (zoo names)
      (fun c => mapValues c.graph == [.builtin .listValue]) = true by decide +kernel)
  obtain ⟨c', hcompile', hvalues'⟩ := compile_of_compilesTo
    (show compilesTo ⟨false, false, false, false, "zoo"⟩
      (zoo { names with types := "null" :: names.types })
      (fun c => mapValues c.graph == [.builtin .string]) = true by decide +kernel)
  have hvalues := eq_of_beq hvalues
  have hvalues' := eq_of_beq hvalues'
  refine ⟨_, _, hcompile, hcompile', hvalues, hvalues', ?_⟩
  intro heq
  obtain ⟨hgraph, -⟩ := Output.mk.inj heq
  rw [hgraph, hvalues'] at hvalues
  exact absurd hvalues (by decide)

end ApiProto.Compile
