import ApiProto.Document.Build
import ApiProto.Proofs.Places

/-!
# References to named lists

A reference to a named schema stands for one type, and for a list that is the type of its items.
Whether a field is repeated does not depend on what is behind the reference, and neither does the
value of a map. Only a response looks for a list behind its reference, and only one step far.

* `Spec.Names` — schemas that are nothing but references to named schemas.
* `Compilation.NamesTypes` — the names of schemas stand for types, never for shared parameters.
* `Compiles.namesTypes` — so they do wherever a schema is compiled.
* `references_drop_lists` — what becomes of references to named schemas.
-/

namespace ApiProto.Document

/-- The reference to a named schema. -/
def Spec.reference (spec : Spec) (name : String) : String := spec.definitionsPrefix ++ name

/-- A schema that is nothing but the reference to a named schema. -/
structure Spec.Names (spec : Spec) (s : Schema) (name : String) : Prop where
  named : name ∈ spec.definitions.map Prod.fst
  ref : s.ref = .text (spec.reference name)
  isReference : s.ref.isEmpty = false
  types : s.types = []
  items : s.items = none

/-- A schema, its items, the items of these, and so on. -/
inductive Schema.HasItems : Schema → Schema → Prop
  | self {s : Schema} : HasItems s s
  | items {s i j : Schema} : s.items = some i → HasItems i j → HasItems s j

/-- The items of a named schema, if that schema itself is a list. -/
def Spec.namedItems (spec : Spec) (name : String) : Option Schema :=
  (spec.definitions.lookup name).bind fun target =>
    if target.types.contains "array" then target.items else none

end ApiProto.Document

namespace ApiProto.Proto

/-- A message for a list: its only field is repeated, and holds the items. -/
def Graph.IsListMessage (g : Graph) (t : TypeRef) : Prop :=
  ∃ id m f, t = .node id ∧ g.message? id = some m ∧ m.fields = [f] ∧ f.name = "items" ∧
    f.repeated = true

end ApiProto.Proto

namespace ApiProto.Compile

open Proto Document CompileM
open Compilation (ChangesGraph)

variable {env : Environment} {spec : Spec} {scope : Scope} {c c₁ c' : Compilation}

/-! ## Definitions on the way -/

theorem declareHere_definitions (t : TypeRef) :
    (c.declareHere scope t).definitions = c.definitions := by
  cases scope <;> rfl

theorem compileReference_definitions {ref : String} {d : Definition}
    (h : compileReference ref c = .ok (d, c')) : c'.definitions = c.definitions := by
  rcases compileReference_ok h with ⟨-, rfl⟩ | ⟨-, -, -, rfl⟩ <;> rfl

/-- A run defines nothing. -/
theorem Runs.definitions_eq {ts : List TypeRef} (h : Runs env scope c ts c') :
    c'.definitions = c.definitions := by
  induction h with
  | nil | found | wrapped => rfl
  | enumeration => exact declareHere_definitions _
  | cons _ _ ih ih' => exact ih'.trans ih
  | builtin _ _ ih => exact ih
  | importing name _ ih => exact (ChangesGraph.importing _ name).definitions.trans ih
  | reference href => exact compileReference_definitions href
  | declared _ ih => exact (declareHere_definitions _).trans ih
  | map _ ih => exact ih
  | objectWrapper _ _ _ _ _ ih => exact (declareHere_definitions _).trans ih
  | sharedWrapper _ _ hitem =>
    have hreference := compileReference_definitions hitem
    exact hreference
  | message _ _ _ _ _ _ hadd ih =>
    exact (declareHere_definitions _).trans ((ChangesGraph.addFields hadd).definitions.trans ih)
  | arrayResponse _ _ _ ih =>
    exact (declareHere_definitions _).trans ((ChangesGraph.importing _ _).definitions.trans ih)

theorem compileExtension_definitions {e : Document.Extension}
    (h : compileExtension e c = .ok ((), c')) : c'.definitions = c.definitions := by
  obtain ⟨e', rfl⟩ := compileExtension_ok h
  exact ((ChangesGraph.importingAll c _).trans (.extending _ e')).definitions

theorem compileOperation_definitions {path : String} {shared : List Parameter} {e : Endpoint}
    (h : compileOperation env scope path shared e c = .ok ((), c')) :
    c'.definitions = c.definitions := by
  obtain ⟨_, _, c₁, _, c₂, rpc, -, hrequest, hresponse, -, -, rfl⟩ := compileOperation_ok h
  have hruns := compileResponse_runs (Name.endpointName_plain _ _ _) hresponse
  rw [(ChangesGraph.serving c₂ rpc).definitions, hruns.definitions_eq,
    (compileRequest_runs hrequest).definitions_eq]

theorem forM_definitions {α : Type} {f : α → CompileM Unit} {l : List α}
    (hstep : ∀ a c c', f a c = .ok ((), c') → c'.definitions = c.definitions)
    (h : l.forM f c = .ok ((), c')) : c'.definitions = c.definitions :=
  forM_ok_induct (P := fun d => d.definitions = c.definitions)
    (fun a _ d d' hd hold => (hstep a d d' hd).trans hold) h rfl

/-! ## What names stand for -/

/-- No definition is a shared parameter. -/
def Compilation.DefinesTypes (c : Compilation) : Prop :=
  ∀ entry ∈ c.definitions, ∃ t, entry.2 = .type t

/-- The names of schemas stand for types. -/
def Compilation.NamesTypes (spec : Spec) (c : Compilation) : Prop :=
  ∀ entry ∈ c.definitions, ∀ name ∈ spec.definitions.map Prod.fst,
    entry.1 = spec.reference name → ∃ t, entry.2 = .type t

theorem compileReference_type {ref : String} {d : Definition}
    (hc : ∀ entry ∈ c.definitions, entry.1 = ref → ∃ t, entry.2 = .type t)
    (h : compileReference ref c = .ok (d, c')) : ∃ t, d = .type t := by
  rcases compileReference_ok h with ⟨hd, -⟩ | ⟨-, -, rfl, -⟩
  · unfold Compilation.definition? at hd
    split at hd
    · exact ⟨_, (Option.some.inj hd).symm⟩
    · obtain ⟨before, after, heq, -⟩ := List.lookup_eq_some_iff.1 hd
      exact hc (ref, d) (by simp [heq]) rfl
  · exact ⟨_, rfl⟩

/-- The references of a schema and of its items stand for types. -/
def Compilation.RefersToTypes (c : Compilation) (s : Schema) : Prop :=
  ∀ j, Schema.HasItems s j → ∀ ref, j.ref.keyText = .ok ref →
    ∀ entry ∈ c.definitions, entry.1 = ref → ∃ t, entry.2 = .type t

theorem Compilation.DefinesTypes.refersToTypes (h : c.DefinesTypes) (s : Schema) :
    c.RefersToTypes s := fun _ _ _ _ entry hentry _ => h entry hentry

theorem compileSchema_type_of_items {s : Schema}
    (hitems : ∀ i, s.items = some i → ∀ scope rawName comment c d c', c.RefersToTypes i →
      compileSchema env i scope rawName comment c = .ok (d, c') → ∃ t, d = .type t)
    {rawName : String} {comment : Value} {d : Definition} (hc : c.RefersToTypes s)
    (h : compileSchema env s scope rawName comment c = .ok (d, c')) : ∃ t, d = .type t := by
  rcases compileSchema_cases h with href | ⟨-, ⟨_, _, -, -, hd, -⟩ | ⟨-, -, hnew⟩⟩
  · obtain ⟨ref, _, hrun, h⟩ := bind_ok_iff.1 (compileSchema_reference href h)
    obtain ⟨hrun, rfl⟩ := ofResult_ok_iff.1 hrun
    exact compileReference_type (hc s .self ref hrun) h
  · exact ⟨_, hd⟩
  · rcases compileNew_type_or_items hnew with htype | ⟨-, action, c₁, haction, hrun⟩
    · exact htype
    · obtain ⟨i, hi, rfl⟩ := Option.map_eq_some_iff.1 haction
      have hi := s.denull_items ▸ hi
      exact hitems i hi _ _ _ _ _ _ (fun j hj => hc j (.items hi hj)) hrun

mutual

/-- A schema gives a type unless it, or what it lists, refers to a shared parameter. -/
theorem compileSchema_type_of_refersToTypes (env : Environment) : ∀ (s : Schema) (scope : Scope)
    (rawName : String) (comment : Value) (c : Compilation) (d : Definition) (c' : Compilation),
    c.RefersToTypes s → compileSchema env s scope rawName comment c = .ok (d, c') →
      ∃ t, d = .type t
  | ⟨_, _, _, _, _, _, items, _, _, _⟩, _, _, _, _, _, _, hc, h =>
    compileSchema_type_of_items (compileOption_type_of_refersToTypes env items) hc h
termination_by structural s => s

theorem compileOption_type_of_refersToTypes (env : Environment) :
    ∀ (o : Option Schema) (s : Schema),
    o = some s → ∀ (scope : Scope) (rawName : String) (comment : Value) (c : Compilation)
      (d : Definition) (c' : Compilation), c.RefersToTypes s →
      compileSchema env s scope rawName comment c = .ok (d, c') → ∃ t, d = .type t
  | some s, _, h => Option.some.inj h ▸ compileSchema_type_of_refersToTypes env s
termination_by structural o => o

end

/-- As long as no shared parameter has been defined, schemas give types. -/
theorem compileSchema_type_of_definesTypes {s : Schema} {rawName : String} {comment : Value}
    {d : Definition} (hc : c.DefinesTypes)
    (h : compileSchema env s scope rawName comment c = .ok (d, c')) : ∃ t, d = .type t :=
  compileSchema_type_of_refersToTypes env s _ _ _ _ _ _ (hc.refersToTypes s) h

/-- A property gives a type unless it, or what it lists, refers to a shared parameter. -/
theorem compilePropertyType_type {key : String} {s : Schema} {d : Definition}
    (hc : c.RefersToTypes s)
    (h : compilePropertyType env scope key (part env s) c = .ok (d, c')) : ∃ t, d = .type t := by
  have hitems : (part env s).items = s.items.map (compileSchema env) := compileItems_eq_map env s
  have hwhole : ∀ {rawName : String} {d : Definition} {c' : Compilation},
      (part env s).whole scope rawName (.text "") c = .ok (d, c') → ∃ t, d = .type t :=
    fun h => compileSchema_type_of_refersToTypes env s _ _ _ _ _ _ hc h
  cases compilePropertyType_cases h with
  | several | named | enumeration => exact ⟨_, rfl⟩
  | object _ hd => exact hwhole hd
  | array _ haction hd =>
    obtain ⟨i, hi, rfl⟩ := Option.map_eq_some_iff.1 (hitems.symm.trans haction)
    obtain ⟨t, rfl⟩ := compileSchema_type_of_refersToTypes env i _ _ _ _ _ _
      (fun j hj => hc j (.items hi hj)) hd
    exact ⟨_, rfl⟩
  | unnamed _ _ _ _ hd =>
    obtain ⟨t, rfl⟩ := hwhole hd
    exact ⟨_, rfl⟩

/-! ## The way to a schema -/

theorem Compilation.DefinesTypes.namesTypes (h : c.DefinesTypes) : c.NamesTypes spec :=
  fun entry hentry _ _ _ => h entry hentry

theorem Compilation.NamesTypes.of_eq (h : c.NamesTypes spec)
    (heq : c'.definitions = c.definitions) : c'.NamesTypes spec := by
  unfold NamesTypes
  rw [heq]
  exact h

theorem announced_definitions (env : Environment) : (announced env).definitions = [] := by
  obtain ⟨packageName, serviceName, options, heq⟩ := startOf_is_start env
  unfold announced
  split <;> rw [heq] <;> rfl

theorem isSome_lookup_iff {α : Type} {key : String} {l : List (String × α)} :
    (l.lookup key).isSome = true ↔ key ∈ l.map Prod.fst := by
  rw [List.lookup_isSome_iff, List.mem_map]
  exact exists_congr fun entry => and_congr_right fun _ => beq_iff_eq.trans eq_comm

theorem mem_defining {ref : String} {d : Definition} {entry : String × Definition}
    (h : entry ∈ (c.defining ref d).definitions) :
    entry ∈ c.definitions ∨ entry = (ref, d) ∧ ref ∉ c.definitions.map Prod.fst := by
  unfold Compilation.defining at h
  split at h
  · exact .inl h
  · next hnone =>
    rcases List.mem_append.1 h with hold | hnew
    · exact .inl hold
    · exact .inr ⟨List.mem_singleton.1 hnew, mt isSome_lookup_iff.2 hnone⟩

/-- After its definition, a reference is defined. -/
theorem mem_keys_defining (ref : String) (d : Definition) :
    ref ∈ (c.defining ref d).definitions.map Prod.fst := by
  unfold Compilation.defining
  split
  · next hsome => exact isSome_lookup_iff.1 hsome
  · simp

/-- A named schema is defined as a type. -/
theorem compileDefinition_definesTypes {entry : String × Schema}
    (h : compileDefinition env scope entry c = .ok ((), c')) (hc : c.DefinesTypes) :
    c'.DefinesTypes := by
  obtain ⟨d, c₁, hd, rfl⟩ := compileDefinition_ok h
  obtain ⟨t, rfl⟩ := compileSchema_type_of_definesTypes hc hd
  have hsame := (compileSchema_runs env _ _ _ _ _ _ _ hd).definitions_eq
  intro e he
  rcases mem_defining he with hold | ⟨rfl, -⟩
  · exact hc e (hsame ▸ hold)
  · exact ⟨t, rfl⟩

theorem compileDefinition_keeps {entry : String × Schema}
    (h : compileDefinition env scope entry c = .ok ((), c')) :
    c.definitions <+: c'.definitions := by
  obtain ⟨d, c₁, hd, rfl⟩ := compileDefinition_ok h
  rw [← (compileSchema_runs env _ _ _ _ _ _ _ hd).definitions_eq]
  exact (@defining_grows [] c₁ _ d).definitions

/-- As long as only named schemas are compiled, types are defined. -/
theorem forM_definesTypes {l : List (String × Schema)}
    (h : l.forM (compileDefinition env scope) (announced env) = .ok ((), c)) : c.DefinesTypes := by
  refine forM_ok_induct (P := Compilation.DefinesTypes)
    (fun _ _ _ _ hstep => compileDefinition_definesTypes hstep) h ?_
  unfold Compilation.DefinesTypes
  rw [announced_definitions]
  nofun

/-- All named schemas have been defined, as types. -/
structure Compilation.DefinesNames (spec : Spec) (c : Compilation) : Prop where
  defined : ∀ name ∈ spec.definitions.map Prod.fst,
    spec.reference name ∈ c.definitions.map Prod.fst
  types : c.NamesTypes spec

theorem compileDefinitions_definesNames
    (h : compileDefinitions env [env.package] (announced env) = .ok ((), c)) :
    c.DefinesNames env.spec := by
  rw [compileDefinitions_eq] at h
  refine ⟨fun name hname => ?_, (forM_definesTypes h).namesTypes⟩
  obtain ⟨⟨_, s⟩, hmem, rfl⟩ := List.mem_map.1 hname
  obtain ⟨c₁, c₂, hcomes, -⟩ := exists_comesTo h (mem_sortEntries.2 hmem)
  obtain ⟨c₂, after, hstep, hafter⟩ := hcomes.rest h
  have hkept : c₂.definitions <+: c.definitions :=
    forM_ok_induct (P := fun d => c₂.definitions <+: d.definitions)
      (fun _ _ _ _ hd hold => hold.trans (compileDefinition_keeps hd)) hafter List.prefix_rfl
  obtain ⟨d, c₃, -, rfl⟩ := compileDefinition_ok hstep
  exact List.map_subset _ hkept.subset (mem_keys_defining _ d)

/-- A shared parameter does not take the reference of a named schema. -/
theorem compileParameter_definesNames {entry : String × Parameter}
    (h : compileParameter env scope entry c = .ok ((), c')) (hc : c.DefinesNames spec) :
    c'.DefinesNames spec := by
  obtain ⟨key, s, d, c₁, fieldName, -, hd, rfl⟩ := compileParameter_ok h
  have hsame := (compileSchema_runs env _ _ _ _ _ _ _ hd).definitions_eq
  refine ⟨fun name hname => ?_, fun e he name hname heq => ?_⟩
  · have hkept := (@defining_grows [] c₁ (env.spec.parametersPrefix ++ entry.1)
      (.parameter d.unwrap fieldName entry.2.tag entry.2.isArray)).definitions.subset
    exact List.map_subset _ hkept (hsame ▸ hc.defined name hname)
  · rcases mem_defining he with hold | ⟨rfl, hnew⟩
    · exact hc.types e (hsame ▸ hold) name hname heq
    · have heq : env.spec.parametersPrefix ++ entry.1 = spec.reference name := heq
      rw [hsame, heq] at hnew
      exact absurd (hc.defined name hname) hnew

theorem forM_definesNames {l : List (String × Parameter)}
    (h : l.forM (compileParameter env scope) c = .ok ((), c')) (hc : c.DefinesNames spec) :
    c'.DefinesNames spec :=
  forM_ok_induct (P := Compilation.DefinesNames spec)
    (fun _ _ _ _ hstep => compileParameter_definesNames hstep) h hc

/-- Resolution changes what names stand for, but not whether they stand for types. -/
theorem Compilation.Resolved.namesTypes (h : c.Resolved c') (hc : c.NamesTypes spec) :
    c'.NamesTypes spec := by
  intro entry hentry name hname heq
  obtain ⟨d, hd, t, hresolved, -⟩ := h.definitions entry hentry
  obtain ⟨t₀, ht₀⟩ := hc _ hd name hname heq
  obtain rfl : d = .type t₀ := ht₀
  exact ⟨t, hresolved⟩

theorem ReachesPaths.namesTypes (h : ReachesPaths env c) : c.NamesTypes env.spec := by
  obtain ⟨c₀, c₁, hnamed, hresolve, hextensions⟩ := h
  obtain ⟨c₂, hdefinitions, hparameters⟩ := compileNamed_states hnamed
  rw [compileParameters_eq] at hparameters
  have hnames := forM_definesNames hparameters (compileDefinitions_definesNames hdefinitions)
  have hresolved : c₁.NamesTypes env.spec := (resolveAll_ok hresolve).namesTypes hnames.types
  have hsame := forM_definitions (fun _ _ _ => compileExtension_definitions) hextensions
  exact hresolved.of_eq hsame

/-- On the way to an operation nothing is defined any more. -/
theorem compilePathEntry_definitions {entry : String × PathItem}
    (h : compilePathEntry env scope entry c = .ok ((), c')) : c'.definitions = c.definitions :=
  forM_definitions (fun _ _ _ => compileOperation_definitions) (compilePathEntry_ok h)

/-- Nothing is defined after references are resolved. -/
theorem definitions_eq_of_phases {c₀ c₁ : Compilation}
    (h : compilePhases env (startOf env) = .ok ((), c'))
    (hnamed : compileNamed env (startOf env) = .ok ((), c₀))
    (hresolve : resolveAll c₀ = .ok ((), c₁)) : c'.definitions = c₁.definitions := by
  obtain ⟨c₀', c₁', c₂, hnamed', hresolve', hextensions, hpaths⟩ := compilePhases_states h
  obtain ⟨-, rfl⟩ := Prod.mk.inj (Except.ok.inj (hnamed.symm.trans hnamed'))
  obtain ⟨-, rfl⟩ := Prod.mk.inj (Except.ok.inj (hresolve.symm.trans hresolve'))
  have hextended : c₂.definitions = { c₁ with deferring := false }.definitions :=
    forM_definitions (fun _ _ _ => compileExtension_definitions) hextensions
  split at hpaths
  · exact hpaths ▸ hextended
  · exact (forM_definitions (fun _ _ _ => compilePathEntry_definitions)
      (compilePaths_eq env _ ▸ hpaths)).trans hextended

theorem ReachesOperation.definitions_eq {path : String} {item : PathItem} {e : Endpoint}
    (h : ReachesOperation env path item e c) :
    ∃ c₀, ReachesPaths env c₀ ∧ Builds env env.package c₀ c ∧ c.definitions = c₀.definitions := by
  obtain ⟨-, c₀, c₁, hpaths, hentry, hoperation⟩ := h
  refine ⟨c₀, hpaths, (hentry.builds fun _ _ _ => compilePathEntry_builds).trans
    (hoperation.builds fun _ _ _ => compileOperation_builds), ?_⟩
  obtain ⟨paths, _, -, hentries⟩ := hentry
  obtain ⟨endpoints, _, -, hoperations⟩ := hoperation
  have hentry : c₁.definitions = c₀.definitions :=
    forM_definitions (fun _ _ _ => compilePathEntry_definitions) hentries
  exact (forM_definitions (fun _ _ _ => compileOperation_definitions) hoperations).trans hentry

theorem ReachesOperation.namesTypes {path : String} {item : PathItem} {e : Endpoint}
    (h : ReachesOperation env path item e c) : c.NamesTypes env.spec := by
  obtain ⟨c₀, hpaths, -, hsame⟩ := h.definitions_eq
  exact hpaths.namesTypes.of_eq hsame

/-- Wherever a schema is compiled, the names of schemas stand for types. -/
theorem Compiles.namesTypes {place : Place} {name : String} {s : Schema} {d : Definition}
    (h : Compiles env place name s c d c') : c.NamesTypes env.spec := by
  cases h with
  | definition hcomes _ =>
    obtain ⟨before, after, -, hbefore⟩ := hcomes
    exact (forM_definesTypes hbefore).namesTypes
  | parameter hdefinitions hcomes _ _ =>
    obtain ⟨before, after, -, hbefore⟩ := hcomes
    exact (forM_definesNames hbefore (compileDefinitions_definesNames hdefinitions)).types
  | request hreaches _ _ _ _ => exact hreaches.namesTypes
  | response hreaches _ hrequest _ _ _ | responseItems hreaches _ hrequest _ _ _ =>
    exact hreaches.namesTypes.of_eq (compileRequest_runs hrequest).definitions_eq

/-! ## References in their places -/

section Places

variable {s : Schema} {name : String}

/-- A reference to a named schema stands for a type. -/
theorem compileReferenceValue_of_names (hs : spec.Names s name) (hc : c.NamesTypes spec)
    {d : Definition} (h : compileReferenceValue s.ref c = .ok (d, c')) :
    ∃ t, d = .type t ∧ compileReference (spec.reference name) c = .ok (.type t, c') := by
  obtain ⟨ref, _, hrun, h⟩ := bind_ok_iff.1 h
  obtain ⟨href, rfl⟩ := ofResult_ok_iff.1 hrun
  rw [hs.ref] at href
  obtain rfl : spec.reference name = ref := Except.ok.inj href
  obtain ⟨t, rfl⟩ := compileReference_type (fun e he heq => hc e he name hs.named heq) h
  exact ⟨t, rfl, h⟩

theorem arrayItems_of_names (hs : spec.Names s name) :
    arrayItems spec s = .ok (spec.namedItems name) := by
  unfold arrayItems
  rw [hs.items]
  dsimp only
  unfold arrayItems.named
  rw [hs.ref]
  have hafter : Text.stringAfter? spec.definitionsPrefix (spec.reference name) = some name :=
    Text.stringAfter?_append _ _
  simp only [Value.textWith, Except.map, hafter]
  rfl

/-- A property that is nothing but a reference is what the reference stands for. -/
theorem compilePropertyType_reference {key : String} {d : Definition} (htypes : s.types = [])
    (href : s.ref.isEmpty = false)
    (h : compilePropertyType env scope key (part env s) c = .ok (d, c')) :
    compileReferenceValue s.ref c = .ok (d, c') := by
  have hnull : s.denull = s := by
    unfold Schema.denull
    rw [if_pos (by simp [htypes])]
  have hwhole : compileSchema env s scope (key ++ "Message") (.text "") c = .ok (d, c') := by
    unfold compilePropertyType at h
    simpa [part, hnull, htypes] using h
  exact compileSchema_reference href hwhole

/-- The field of a property that refers to a named schema is not repeated. -/
theorem compileProperty_of_names (hs : spec.Names s name) (hc : c.NamesTypes spec) {key : String}
    {p : CompiledProperty} (h : compileProperty env scope key (part env s) c = .ok (p, c')) :
    p.repeated = false ∧
      ∃ c₁, compileReference (spec.reference name) c = .ok (.type p.type, c₁) := by
  obtain ⟨d, c₁, hd, htype, -, hrepeated⟩ := compileProperty_ok h
  have hwhole := compilePropertyType_reference hs.types hs.isReference hd
  obtain ⟨t, rfl, href⟩ := compileReferenceValue_of_names hs hc hwhole
  refine ⟨?_, c₁, htype ▸ href⟩
  rw [hrepeated]
  simp [Definition.repeats, part, Schema.denull, hs.types]

/-- The values of a map that refer to a named schema have the type that it stands for. -/
theorem compileMapValue_of_names (hs : spec.Names s name) (hc : c.NamesTypes spec)
    {typeName rawName : String} {t : TypeRef}
    (h : compileMapValue env scope typeName rawName (part env s) c = .ok (t, c')) :
    compileReference (spec.reference name) c = .ok (.type t, c') := by
  cases compileMapValue_cases h with
  | reference _ hd =>
    obtain ⟨t, rfl, href⟩ := compileReferenceValue_of_names hs hc hd
    exact href
  | listOfReference hempty | listOfObjects hempty | list hempty | nested hempty | value hempty =>
    cases hs.isReference.symm.trans hempty

/-- A response that refers to a named schema is a message for a list if that schema itself is a
list; otherwise it is what the reference stands for. -/
theorem compileResponse_of_names (hs : env.spec.Names s name) (hc : c.NamesTypes env.spec)
    {e : Endpoint} (he : responseSchema? e = some s) {typeName : String} {t : TypeRef}
    (h : compileResponse env scope typeName e c = .ok (t, c')) :
    (env.spec.namedItems name ≠ none → c'.graph.IsListMessage t) ∧
      (env.spec.namedItems name = none →
        ∃ c₁, compileReference (env.spec.reference name) c = .ok (.type t, c₁)) := by
  have harray := arrayItems_of_names hs
  rcases compileResponse_ok he h with
    ⟨items, c₁, hitems, hmessage, rfl⟩ | ⟨d, c₁, hitems, hd, rfl, rfl⟩
  · have hnamed : env.spec.namedItems name = some items :=
      Except.ok.inj (harray.symm.trans hitems)
    refine ⟨fun _ => ?_, fun hnone => nomatch hnamed.symm.trans hnone⟩
    obtain ⟨d, c₂, -, rfl, rfl⟩ := compileArrayResponse_ok hmessage
    generalize hmade : arrayMessage (typeName ++ "Response") d.unwrap = made
    have hnew : (c₂.withNode (.message made)).graph.message? c₂.graph.size = some made :=
      Graph.message?_of_node? (Graph.node?_add_self _)
    obtain ⟨m, hm, hfields⟩ :=
      ((importing_keepsFields _).trans (declareHere_keepsFields _)) _ _ hnew
    rw [← hmade] at hfields
    exact ⟨_, m, _, rfl, hm, hfields, rfl, rfl⟩
  · have hnamed : env.spec.namedItems name = none := Except.ok.inj (harray.symm.trans hitems)
    refine ⟨fun hsome => absurd hnamed hsome, fun _ => ?_⟩
    obtain ⟨t, rfl, href⟩ := compileReferenceValue_of_names hs hc
      (compileSchema_reference hs.isReference hd)
    exact ⟨c₁, href⟩

theorem definition?_congr (h : c'.definitions = c.definitions) (ref : String) :
    c'.definition? ref = c.definition? ref := by
  unfold Compilation.definition?
  rw [h]

/-- Among the fields of a message, those of properties that refer to a named schema are not
repeated, and have the type that the reference stands for. -/
theorem FieldsFit.of_names {g : Graph} {properties : List (String × Schema)}
    {fields : List (Proto.Field TypeRef Value)} (hs : env.spec.Names s name)
    (h : FieldsFit env g scope properties c fields) (hc : c.NamesTypes env.spec) :
    List.Forall₂ (fun entry f => entry.2 = s → f.repeated = false ∧
      ∀ t, c.definition? (env.spec.reference name) = some (.type t) → g.Becomes t f.type)
      properties fields := by
  induction fields generalizing properties c with
  | nil =>
    cases h
    exact .nil
  | cons f fields ih =>
    cases h with
    | @cons _ key s' rest _ c₁ p _ _ number hp _ hbecomes hrest =>
      have hsame := (compileProperty_runs (part_runs env s') hp).definitions_eq
      have hrest := ih hrest (hc.of_eq hsame)
      rw [definition?_congr hsame] at hrest
      refine .cons (fun heq => ?_) hrest
      obtain rfl : s' = s := heq
      obtain ⟨hrepeated, c₂, href⟩ := compileProperty_of_names hs hc hp
      obtain ⟨t', rfl, ht'⟩ := hbecomes
      refine ⟨hrepeated, fun t ht => ?_⟩
      rcases compileReference_ok href with ⟨hd, -⟩ | ⟨hnone, -⟩
      · obtain rfl : t = p.type := Definition.type.inj (Option.some.inj (ht.symm.trans hd))
        exact ht'
      · cases hnone.symm.trans ht

end Places

/-! ## All places -/

/-- Wherever a schema is compiled, a reference to a named schema drops the list that may be behind
it: the field of a property or of a parameter is not repeated, and it has the type that the
reference stands for, as have the values of a map. A response is a message for a list if the named
schema itself, not one that it refers to in turn, is a list, and what the reference stands for
otherwise. -/
theorem references_drop_lists {place : Place} {name₀ : String} {s₀ : Schema} {d₀ : Definition}
    (hplace : Compiles env place name₀ s₀ c d₀ c') (hsame : c₁.definitions = c.definitions)
    {s : Schema} {name : String} (hs : env.spec.Names s name) :
    (∀ g scope properties fields, FieldsFit env g scope properties c₁ fields →
      List.Forall₂ (fun entry f => entry.2 = s → f.repeated = false ∧
        ∀ t, c₁.definition? (env.spec.reference name) = some (.type t) → g.Becomes t f.type)
        properties fields) ∧
    (∀ scope typeName rawName t c₂,
      compileMapValue env scope typeName rawName (part env s) c₁ = .ok (t, c₂) →
      compileReference (env.spec.reference name) c₁ = .ok (.type t, c₂)) ∧
    ∀ e, responseSchema? e = some s → ∀ scope typeName t c₂,
      compileResponse env scope typeName e c₁ = .ok (t, c₂) →
      (env.spec.namedItems name ≠ none → c₂.graph.IsListMessage t) ∧
        (env.spec.namedItems name = none →
          ∃ c₃, compileReference (env.spec.reference name) c₁ = .ok (.type t, c₃)) := by
  have hc := hplace.namesTypes.of_eq hsame
  exact ⟨fun _ _ _ _ h => h.of_names hs hc, fun _ _ _ _ _ h => compileMapValue_of_names hs hc h,
    fun _ he _ _ _ _ h => compileResponse_of_names hs hc he h⟩

/-- A property that refers to a named list of texts. -/
def tagLists : Spec := .ofDefinitions [("Tags", .array (.scalar "string")),
  ("Zoo", .object [("tags", .reference "#/definitions/Tags")])]

theorem references_drop_lists_tagLists : ∃ name s c d c',
    Compiles ⟨⟨false, false, false, false, "pet"⟩, tagLists⟩
      (.definition "Zoo" (.object [("tags", .reference "#/definitions/Tags")])) name s c d c' ∧
    tagLists.Names (.reference "#/definitions/Tags") "Tags" ∧
    ∀ g scope properties fields,
      FieldsFit ⟨⟨false, false, false, false, "pet"⟩, tagLists⟩ g scope properties c fields →
      List.Forall₂ (fun entry f => entry.2 = .reference "#/definitions/Tags" → f.repeated = false ∧
        ∀ t, c.definition? "#/definitions/Tags" = some (.type t) → g.Becomes t f.type)
        properties fields := by
  obtain ⟨c₂, hrun, -⟩ := compileAll_of_compilesTo
    (show compilesTo ⟨false, false, false, false, "pet"⟩ tagLists (fun _ => true) = true by
      decide +kernel)
  obtain ⟨name, s, c, d, c', hplace⟩ := exists_compiles (compileAll_ok_iff.1 hrun).1
    (show Place.In _ (.definition "Zoo" (.object [("tags", .reference "#/definitions/Tags")])) from
      List.mem_cons_of_mem _ (List.mem_singleton.2 rfl))
  have hs : tagLists.Names (.reference "#/definitions/Tags") "Tags" :=
    ⟨by decide, rfl, by decide, rfl, rfl⟩
  exact ⟨name, s, c, d, c', hplace, hs, (references_drop_lists hplace rfl hs).1⟩

/-- Whether the package has a message of a name whose only field is a single text. -/
def hasSingleText (name field : String) (c : Compilation) : Bool :=
  (c.graph.children c.package).any fun t => match t with
    | .node id => match c.graph.message? id with
      | some ⟨name', [f], _, _⟩ =>
        name' == name && f.name == field && f.type == .builtin .string && !f.repeated
      | _ => false
    | .builtin _ => false

/-- The property refers to a list, but its field holds a single text. -/
theorem not_repeated_tagLists : ∃ o,
    compile ⟨false, false, false, false, "pet"⟩ tagLists = .ok o ∧
    ∃ id m f, .node id ∈ o.graph.children o.package ∧ o.graph.message? id = some m ∧
      m.name = "Zoo" ∧ m.fields = [f] ∧ f.name = "tags" ∧ f.type = .builtin .string ∧
      f.repeated = false := by
  obtain ⟨c, hcompile, htest⟩ := compile_of_compilesTo
    (show compilesTo ⟨false, false, false, false, "pet"⟩ tagLists (hasSingleText "Zoo" "tags") =
      true by decide +kernel)
  refine ⟨_, hcompile, ?_⟩
  obtain ⟨t, hchild, ht⟩ := List.any_eq_true.1 htest
  cases t with
  | builtin => cases ht
  | node id =>
    simp only at ht
    split at ht
    · next name f children comment hm =>
      simp only [Bool.and_eq_true, beq_iff_eq, Bool.not_eq_true'] at ht
      obtain ⟨⟨⟨hname, hfield⟩, htype⟩, hrepeated⟩ := ht
      exact ⟨id, _, f, hchild, hm, hname, rfl, hfield, htype, hrepeated⟩
    · cases ht

end ApiProto.Compile
