import ApiProto.Proofs.Requests
import ApiProto.Proofs.SchemaTranslation

/-!
# Operations in the other version

The versions differ in where a parameter says what its values are, in the start of references and in
where the base path comes from. Operations that differ in nothing else become the same procedure.

* `Parameter.Translates`, `Endpoint.Translates` — parameters and operations in both versions.
* `Spec.Translates` — descriptions in both versions.
* `Spec.Transferable` — a description of which the schemas are transferable.
* `compileOperation_mirrors` — the procedures of operations in both versions.
-/

namespace ApiProto.Document

open Compile (Inside)

/-- Whatever is inside a schema is transferable. -/
def Schema.Portable (s : Schema) : Prop := ∀ t, Inside t s → t.Transferable

/-- A parameter in both versions. -/
structure Parameter.Translates (p p' : Parameter) : Prop where
  name : p'.name = p.name
  location : p'.location = p.location
  tag : p'.tag = p.tag
  reference : ∃ ref, p.ref = .text ref ∧ p'.ref = .text (translateRef ref)
  property : p.ref.isEmpty = true → ∀ key, p'.property key = (p.property key).translated

/-- The schema of a parameter without reference is portable. -/
def Parameter.Portable (p : Parameter) : Prop :=
  p.ref.isEmpty = true → ∀ key, (p.property key).Portable

/-- A response with its schema in the other version. -/
def Response.translated (r : Response) : Response :=
  { r with schema := r.schema.map Schema.translated }

/-- An operation in both versions. -/
structure Endpoint.Translates (e e' : Endpoint) : Prop where
  same : e' = { e with
    parameters := e'.parameters
    responses := e.responses.map fun entry => (entry.1, entry.2.translated) }
  parameters : List.Forall₂ Parameter.Translates e.parameters e'.parameters

/-- A path in both versions. -/
structure PathItem.Translates (i i' : PathItem) : Prop where
  parameters : List.Forall₂ Parameter.Translates i.parameters i'.parameters
  endpoints : List.Forall₂ Endpoint.Translates i.endpoints i'.endpoints

/-- A shared parameter in both versions. -/
structure Parameter.SharedTranslates (p p' : Parameter) : Prop extends p.Translates p' where
  isArray : p'.isArray = p.isArray

/-- Base paths that are the same but for slashes at the end. -/
def SameBasePath (base base' : Value) : Prop :=
  ∃ b b' : String, base = .text b ∧ base' = .text b' ∧ b'.isEmpty = b.isEmpty ∧
    Text.dropEndWhile (· == '/') b'.toList = Text.dropEndWhile (· == '/') b.toList

/-- A description in both versions. -/
structure Spec.Translates (spec spec' : Spec) : Prop where
  title : spec'.title = spec.title
  basePath : SameBasePath spec.basePath spec'.basePath
  definitions : spec'.definitions = spec.definitions.map translateEntry
  parameters : Entrywise Parameter.SharedTranslates spec.parameters spec'.parameters
  paths : Entrywise PathItem.Translates spec.paths spec'.paths
  globalOptions : spec'.globalOptions = spec.globalOptions
  extensions : spec'.extensions = spec.extensions
  definitionsPrefix : (spec.definitionsPrefix, spec'.definitionsPrefix) ∈ exchanges
  parametersPrefix : (spec.parametersPrefix, spec'.parametersPrefix) ∈ exchanges

/-- The schemas of an operation are portable. -/
structure Endpoint.Portable (e : Endpoint) : Prop where
  parameters : ∀ p ∈ e.parameters, p.Portable
  responses : ∀ entry ∈ e.responses, ∀ s, entry.2.schema = some s → s.Portable

/-- The schemas of a description are portable. -/
structure Spec.Portable (spec : Spec) : Prop where
  definitions : ∀ entry ∈ spec.definitions, entry.2.Portable
  parameters : ∀ entry ∈ spec.parameters, entry.2.Portable
  shared : ∀ entry ∈ spec.paths, ∀ p ∈ entry.2.parameters, p.Portable
  endpoints : ∀ entry ∈ spec.paths, ∀ e ∈ entry.2.endpoints, e.Portable

end ApiProto.Document

namespace ApiProto

/-- Collecting entries does not look at their values. -/
theorem collectEntries_map {α β : Type} (f : α → β) (l : List (String × α)) :
    collectEntries (l.map fun entry => (entry.1, f entry.2)) =
      (collectEntries l).map fun entry => (entry.1, f entry.2) := by
  have hinsert : ∀ (key : String) (a : α) (l : List (String × α)),
      insertEntry key (f a) (l.map fun entry => (entry.1, f entry.2)) =
        (insertEntry key a l).map fun entry => (entry.1, f entry.2) := by
    intro key a l
    induction l with
    | nil => rfl
    | cons entry rest ih =>
      simp only [List.map_cons, insertEntry, ih]
      split <;> rfl
  have hfold : ∀ done : List (String × α),
      (l.map fun entry => (entry.1, f entry.2)).foldl
          (fun done entry => insertEntry entry.1 entry.2 done)
          (done.map fun entry => (entry.1, f entry.2)) =
        (l.foldl (fun done entry => insertEntry entry.1 entry.2 done) done).map
          fun entry => (entry.1, f entry.2) := by
    induction l with
    | nil => exact fun _ => rfl
    | cons entry rest ih =>
      intro done
      simp only [List.map_cons, List.foldl_cons, hinsert, ih]
  exact hfold []

end ApiProto

namespace ApiProto.Compile

open Proto Document CompileM

variable {env env' : Environment} {scope : Scope} {c : Compilation}

/-! ## Requests -/

theorem parameterSchema_mirrors {p p' : Parameter} (hp : p.Translates p') :
    Mirrors translateEntry c (parameterSchema p) (parameterSchema p') := by
  obtain ⟨ref, href, href'⟩ := hp.reference
  have hproperty := hp.property
  unfold parameterSchema
  rw [href, href', hp.name] at *
  refine .ite ?_ (fun hnonempty => ?_) fun hempty => ?_
  · rw [show (Value.text (translateRef ref)).isEmpty = (Value.text ref).isEmpty from
      isEmpty_translateRef ref]
  · refine .bind (k := translateRef) (.ofResult (r := .ok ref) (fun _ heq => ?_) nofun)
      fun _ _ hok => ?_
    · obtain rfl := Except.ok.inj heq
      rfl
    · obtain ⟨hok, rfl⟩ := ofResult_ok_iff.1 hok
      obtain rfl := Except.ok.inj hok
      refine .read ?_
      have hname : ∀ (given : String) (c : Compilation), Mirrors translateEntry c
          (pure (Name.snake given, { Schema.blank with
            ref := .text ref, protoName := .text (Name.snake given) }))
          (pure (Name.snake given, { Schema.blank with
            ref := .text (translateRef ref), protoName := .text (Name.snake given) })) :=
        fun _ _ => .pure rfl
      rw [Compilation.definition?_translated, afterLast_translateRef]
      refine .ite .rfl (fun _ => .bind (.fail (k := id) _ _) fun _ _ h => nomatch h) fun _ => ?_
      refine .ite .rfl (fun _ => ?_) fun _ => ?_
      · exact .bind (.pure (k := id) rfl) fun given c _ => hname given c
      · exact (Mirrors.result p.name.wordText).bind fun given c _ => hname given c
  · refine (Mirrors.result p.name.wordText).bind fun word c₁ hword => ?_
    have hproperty := hproperty (by simpa using hempty) (Name.snake word)
    unfold Parameter.property at hproperty
    dsimp only [id]
    rcases hs : p.schema with _ | s <;> rcases hs' : p'.schema with _ | s' <;>
      rw [hs, hs'] at hproperty <;>
      exact .pure (congrArg (Prod.mk (Name.snake word)) hproperty)

/-- A schema with nothing inside is portable if its reference is a text. -/
theorem portable_of_leaf {s : Schema} (href : ∃ ref, s.ref = .text ref) (hi : s.items = none)
    (ha : s.additional = none) (hp : s.properties = []) : s.Portable := by
  intro t ht
  cases ht with
  | self => exact ⟨href, fun p hp => by simp [ha] at hp⟩
  | items hi' => simp [hi] at hi'
  | additional ha' => simp [ha] at ha'
  | property hp' => simp [hp] at hp'

/-- What a parameter is as a property is portable, if the parameter is. -/
theorem parameterSchema_portable {p : Parameter} {entry : String × Schema} {c' : Compilation}
    (hp : p.Portable) (h : parameterSchema p c = .ok (entry, c')) : entry.2.Portable := by
  obtain ⟨key, s⟩ := entry
  obtain rfl := parameterSchema_ok h
  obtain ⟨-, ⟨-, ref, -, -, rfl⟩ | ⟨href, word, -, -, rfl⟩⟩ := parameterSchema_cases h
  · exact portable_of_leaf ⟨ref, rfl⟩ rfl rfl rfl
  · exact hp href key

/-- The properties of a request are portable, if its parameters are. -/
theorem requestSchema_portable {parameters : List Parameter} {s : Schema} {c' : Compilation}
    (hp : ∀ p ∈ parameters, p.Portable) (h : requestSchema parameters c = .ok (s, c')) :
    s.Portable := by
  obtain ⟨properties, hproperties, rfl⟩ := requestSchema_properties h
  intro t ht
  cases ht with
  | self => exact ⟨⟨"", rfl⟩, nofun⟩
  | items hi => cases hi
  | additional ha => cases ha
  | property hentry ht =>
    have hmem := (lastsBy_sublist Prod.fst properties).subset
      ((collectEntries_perm properties).subset hentry)
    obtain ⟨p, hmem, hentry⟩ := exists_of_mem_forall₂ hproperties.flip hmem
    exact parameterSchema_portable (hp p hmem) hentry t ht

theorem requestSchema_mirrors {parameters parameters' : List Parameter}
    (hp : List.Forall₂ Parameter.Translates parameters parameters') :
    Mirrors Schema.translated c (requestSchema parameters) (requestSchema parameters') := by
  refine (Mirrors.mapM (P := fun _ => True) hp (fun _ _ _ _ _ _ _ => trivial)
    (fun p _ p' hpp c _ => .within _ _ (parameterSchema_mirrors hpp)) trivial).bind
      fun properties c₁ _ => .pure ?_
  have hcollect : collectEntries (properties.map translateEntry) =
      (collectEntries properties).map translateEntry := collectEntries_map _ properties
  rw [hcollect, ← translatedEntries_eq_map]
  rfl

theorem declareMessage_mirrors (hc : c.Ready scope) (role : MessageRole)
    (typeName endpoint : String) (t : TypeRef) :
    Mirrors id c (declareMessage role scope typeName endpoint t)
      (declareMessage role scope typeName endpoint t) := by
  refine .read ?_
  have hmessage : c.translated.graph.isMessage t = c.graph.isMessage t :=
    Graph.isMessage_mapNodes c.graph Node.relabelled_translated t
  dsimp only
  rw [hmessage]
  exact .ite .rfl (fun _ => .bind (.fail (k := id) _ _) fun _ _ h => nomatch h)
    fun _ => .declareDefinition_bind hc t (.pure rfl)

theorem compileRequest_mirrors (h : env.SameNames env') (hc : c.Ready scope) (name : String)
    {parameters parameters' : List Parameter}
    (hp : List.Forall₂ Parameter.Translates parameters parameters')
    (hportable : ∀ p ∈ parameters, p.Portable) :
    Mirrors id c (compileRequest env scope name parameters)
      (compileRequest env' scope name parameters') := by
  refine .ite ?_ (fun _ => .pure rfl) fun _ => ?_
  · cases hp <;> simp
  · refine (requestSchema_mirrors hp).bind fun s c₁ hs => ?_
    obtain rfl := requestSchema_ok hs
    have hpart := compileSchema_mirrors h s (requestSchema_portable hportable hs)
    refine (Mirrors.within _ _ (hpart.whole _ _ _ c hc)).bind fun d c₁ hd => ?_
    have hc₁ := (compileSchema_runs env s _ _ _ _ _ _ (within_ok_iff.1 hd)).ready hc
    exact declareMessage_mirrors hc₁ _ _ _ _

/-! ## Responses -/

theorem arrayItems_translated {spec spec' : Spec} (h : Spec.Translates spec spec') (s : Schema) :
    arrayItems spec' s.translated = (arrayItems spec s).map (Option.map Schema.translated) := by
  have hnamed : arrayItems.named spec' s.translated =
      (arrayItems.named spec s).map (Option.map Schema.translated) := by
    unfold arrayItems.named
    rw [s.ref_translated, textWith_translateValue]
    rcases s.ref.textWith "startswith" with e | ref
    · rfl
    · have hlookup : ∀ name, spec'.definitions.lookup name =
          (spec.definitions.lookup name).map Schema.translated := by
        intro name
        rw [h.definitions]
        exact lookup_mapValues spec.definitions Schema.translated name
      simp only [Except.map, stringAfter?_translateRef h.definitionsPrefix, hlookup]
      rcases Text.stringAfter? spec.definitionsPrefix ref with _ | name
      · rfl
      · simp only [Option.bind_eq_bind, Option.bind_some]
        rcases spec.definitions.lookup name with _ | target
        · rfl
        · simp only [Option.map_some, Option.bind_some, target.types_translated,
            target.items_translated]
          split <;> rfl
  unfold arrayItems
  rw [s.items_translated, s.types_translated, hnamed]
  rcases s.items with _ | i
  · rfl
  · dsimp only [Option.map_some]
    split <;> rfl

/-- The items of an array are inside it, or inside a named schema. -/
theorem arrayItems_portable {spec : Spec} (h : spec.Portable) {s i : Schema} (hs : s.Portable)
    (hi : arrayItems spec s = .ok (some i)) : i.Portable := by
  have hnamed : arrayItems.named spec s = .ok (some i) → i.Portable := by
    unfold arrayItems.named
    rcases s.ref.textWith "startswith" with e | ref
    · nofun
    · intro hnamed
      obtain ⟨name, -, hnamed⟩ := Option.bind_eq_some_iff.1 (Except.ok.inj hnamed)
      obtain ⟨target, htarget, hnamed⟩ := Option.bind_eq_some_iff.1 hnamed
      split at hnamed
      · obtain ⟨before, after, heq, -⟩ := List.lookup_eq_some_iff.1 htarget
        have hmem : (name, target) ∈ spec.definitions := by simp [heq]
        exact fun t ht => h.definitions _ hmem t (.items hnamed ht)
      · cases hnamed
  unfold arrayItems at hi
  rcases hitems : s.items with _ | items <;> rw [hitems] at hi
  · exact hnamed hi
  · dsimp only at hi
    split at hi
    · obtain rfl := Option.some.inj (Except.ok.inj hi)
      exact fun t ht => hs t (.items hitems ht)
    · exact hnamed hi

theorem compileArrayResponse_mirrors (h : env.SameNames env') (hc : c.Ready scope)
    (name typeName : String) {items : Schema} (hitems : items.Portable) :
    Mirrors id c (compileArrayResponse env scope name typeName items)
      (compileArrayResponse env' scope name typeName items.translated) := by
  have hpart := compileSchema_mirrors h items hitems
  refine (Mirrors.within _ _ (hpart.whole _ _ _ c hc)).bind fun item c₁ hitem => ?_
  exact .newNode_bind (.message _) (.importing_bind _ (.pure rfl))

theorem responseSchema?_translated {e e' : Endpoint} (he : e.Translates e') :
    responseSchema? e' = (responseSchema? e).map Schema.translated := by
  have hcode : ∀ code, (e'.responses.lookup code).bind (·.schema) =
      ((e.responses.lookup code).bind (·.schema)).map Schema.translated := by
    intro code
    rw [he.same]
    dsimp only
    rw [lookup_mapValues]
    rcases e.responses.lookup code with _ | r <;> rfl
  unfold responseSchema?
  generalize responseCodes = codes
  induction codes with
  | nil => rfl
  | cons code rest ih =>
    rw [List.findSome?_cons, List.findSome?_cons, hcode, ih]
    rcases (e.responses.lookup code).bind (·.schema) with _ | s <;> rfl

theorem responseSchema?_portable {e : Endpoint} (he : e.Portable) {s : Schema}
    (hs : responseSchema? e = some s) : s.Portable := by
  obtain ⟨code, -, hs⟩ := List.exists_of_findSome?_eq_some hs
  obtain ⟨r, hr, hs⟩ := Option.bind_eq_some_iff.1 hs
  obtain ⟨before, after, heq, -⟩ := List.lookup_eq_some_iff.1 hr
  exact he.responses (code, r) (by simp [heq]) s hs

/-- Two environments of one description in both versions. -/
structure Environment.Translates (env env' : Environment) : Prop where
  options : env'.options = env.options
  spec : env.spec.Translates env'.spec

theorem Environment.Translates.sameNames (h : env.Translates env') : env.SameNames env' where
  options := h.options
  reserved := by
    have hparameters : (env'.spec.parameters.map fun entry => Name.pascal entry.1) =
        env.spec.parameters.map fun entry => Name.pascal entry.1 := by
      have hkeys := congrArg (List.map Name.pascal) h.spec.parameters.keys_eq
      rw [List.map_map, List.map_map] at hkeys
      exact hkeys.symm
    simp only [reservedNames, hparameters, h.spec.definitions, List.map_map]
    rfl

theorem compileResponse_mirrors (h : env.Translates env') (hspec : env.spec.Portable)
    (hc : c.Ready scope) (name : String) {e e' : Endpoint} (he : e.Translates e')
    (hportable : e.Portable) :
    Mirrors id c (compileResponse env scope name e) (compileResponse env' scope name e') := by
  unfold compileResponse
  rw [responseSchema?_translated he]
  rcases hs : responseSchema? e with _ | s
  · exact .pure rfl
  · have hsportable := responseSchema?_portable hportable hs
    dsimp only [Option.map_some]
    rw [arrayItems_translated h.spec]
    refine .bind (k := Option.map Schema.translated) (.ofResult (fun items heq => ?_) fun e heq => ?_)
      fun items c₁ hitems => ?_
    · rw [heq]
      rfl
    · rw [heq]
      exact ⟨e, rfl⟩
    · obtain ⟨hitems, rfl⟩ := ofResult_ok_iff.1 hitems
      cases items with
      | some items =>
        have hiportable := arrayItems_portable hspec hsportable hitems
        refine (compileArrayResponse_mirrors h.sameNames hc name _ hiportable).bind
          fun t c₁ ht => ?_
        obtain ⟨d, c₂, hd, rfl, rfl⟩ := compileArrayResponse_ok ht
        have hc₂ := (compileSchema_runs env items _ _ _ _ _ _ hd).ready hc
        exact declareMessage_mirrors ((hc₂.withNode _).importing _) _ _ _ _
      | none =>
        have hpart := compileSchema_mirrors h.sameNames s hsportable
        dsimp only [Option.map_none]
        rw [s.description_translated]
        refine (Mirrors.within _ _ (hpart.whole _ _ _ c hc)).bind fun d c₁ hd => ?_
        have hc₁ := (compileSchema_runs env s _ _ _ _ _ _ (within_ok_iff.1 hd)).ready hc
        exact .bind (.pure (k := id) rfl) fun t c₂ ht => by
          obtain ⟨-, rfl⟩ := Prod.mk.inj (Except.ok.inj ht)
          exact declareMessage_mirrors hc₁ _ _ _ _

/-! ## Options -/

theorem sharedParameter?_translated {spec spec' : Spec} (h : spec.Translates spec') {p p' : Parameter}
    (hp : p.Translates p') :
    Option.Rel Parameter.SharedTranslates (sharedParameter? spec p) (sharedParameter? spec' p') := by
  obtain ⟨ref, href, href'⟩ := hp.reference
  unfold sharedParameter?
  rw [href, href']
  simp only [Value.text?, Option.bind_eq_bind, Option.bind_some,
    stringAfter?_translateRef h.parametersPrefix]
  rcases Text.stringAfter? spec.parametersPrefix ref with _ | name
  · exact .none
  · exact h.parameters.lookup name

theorem bodyField_translated {spec spec' : Spec} (h : spec.Translates spec')
    {parameters parameters' : List Parameter}
    (hp : List.Forall₂ Parameter.Translates parameters parameters') :
    bodyField spec' parameters' = bodyField spec parameters := by
  unfold bodyField
  congr 1
  induction hp with
  | nil => rfl
  | @cons p p' _ _ hpp _ ih =>
    have heffective : ((sharedParameter? spec' p').getD p').location =
          ((sharedParameter? spec p).getD p).location ∧
        ((sharedParameter? spec' p').getD p').name =
          ((sharedParameter? spec p).getD p).name := by
      have hshared := sharedParameter?_translated h hpp
      generalize sharedParameter? spec p = found at hshared ⊢
      generalize sharedParameter? spec' p' = found' at hshared ⊢
      cases hshared with
      | none => exact ⟨hpp.location, hpp.name⟩
      | some hs => exact ⟨hs.location, hs.name⟩
    simp only [List.findSome?_cons, heffective.1, heffective.2, hpp.name, ih]

/-- The HTTP option of a procedure is the same in both versions. -/
theorem httpOption_translated {spec spec' : Spec} (h : spec.Translates spec') (verb : Verb)
    (path : String) {parameters parameters' : List Parameter}
    (hp : List.Forall₂ Parameter.Translates parameters parameters') :
    httpOption spec' verb path parameters' = httpOption spec verb path parameters := by
  obtain ⟨b, b', hb, hb', hempty, hend⟩ := h.basePath
  have hfull : fullPath b' path = fullPath b path := by
    unfold fullPath
    rw [hempty, hend]
  unfold httpOption
  rw [hb, hb', bodyField_translated h hp]
  dsimp only
  rw [show (Value.text b').isEmpty = (Value.text b).isEmpty from hempty]
  split
  · rfl
  · show Except.ok _ = Except.ok _
    rw [hfull]

/-! ## Procedures -/

theorem addRpc_mirrors (rpc : Rpc TypeRef) : Mirrors id c (addRpc rpc) (addRpc rpc) := by
  refine .read ?_
  have hservice : c.translated.graph.service? c.translated.service =
      c.graph.service? c.service := by
    show c.graph.translated.service? c.service = c.graph.service? c.service
    simp only [Graph.service?, Graph.node?_translated]
    rcases c.graph.node? c.service with _ | n
    · rfl
    · cases n <;> rfl
  rw [hservice]
  rcases c.graph.service? c.service with _ | s
  · exact .pure rfl
  · refine .ite .rfl (fun _ => .pure rfl) fun _ => ?_
    refine .importing_bind _ (.importing_bind _ ?_)
    generalize (c.importing _).importing _ = c₁
    have hput := Graph.put_mapNodes Node.translated c₁.graph c₁.service
      (.service { s with rpcs := s.rpcs ++ [rpc] })
    have hstate := congrArg (fun g => ({ c₁.translated with graph := g } : Compilation)) hput
    exact .of_ok rfl (congrArg (fun c => Except.ok ((), c)) hstate)

/-- An operation becomes the same procedure in both versions. -/
theorem compileOperation_mirrors (h : env.Translates env') (hspec : env.spec.Portable)
    (hc : c.Ready scope) (path : String) {shared shared' : List Parameter}
    (hshared : List.Forall₂ Parameter.Translates shared shared')
    (hsharedPortable : ∀ p ∈ shared, p.Portable) {e e' : Endpoint} (he : e.Translates e')
    (hportable : e.Portable) :
    Mirrors id c (compileOperation env scope path shared e)
      (compileOperation env' scope path shared' e') := by
  have hp : List.Forall₂ Parameter.Translates (shared ++ e.parameters) (shared' ++ e'.parameters) :=
    List.rel_append hshared he.parameters
  have hpportable : ∀ p ∈ shared ++ e.parameters, p.Portable := fun p hmem =>
    (List.mem_append.1 hmem).elim (hsharedPortable p) (hportable.parameters p)
  have hidentifier : e'.operationId = e.operationId := by rw [he.same]
  have hsummary : e'.summary = e.summary := by rw [he.same]
  have hdescription : e'.description = e.description := by rw [he.same]
  have hverb : e'.verb = e.verb := by rw [he.same]
  have hcustom : e'.customOptions = e.customOptions := by rw [he.same]
  have hdeprecated : e'.deprecated = e.deprecated := by rw [he.same]
  unfold compileOperation
  rw [h.options, hidentifier, hsummary, hdescription, hverb, hcustom, hdeprecated]
  refine (Mirrors.result _).bind fun identifier c₁ hok => ?_
  obtain ⟨-, rfl⟩ := ofResult_ok_iff.1 hok
  refine (Mirrors.result _).bind fun summary c₁ hok => ?_
  obtain ⟨-, rfl⟩ := ofResult_ok_iff.1 hok
  refine (Mirrors.result _).bind fun description c₁ hok => ?_
  obtain ⟨-, rfl⟩ := ofResult_ok_iff.1 hok
  refine (compileRequest_mirrors h.sameNames hc _ hp hpportable).bind fun request c₁ hrequest => ?_
  have hc₁ := (compileRequest_runs hrequest).ready hc
  refine (compileResponse_mirrors h hspec hc₁ _ he hportable).bind fun response c₂ hresponse => ?_
  refine .ite .rfl (fun _ => .bind (k := id) ?_ fun _ _ _ => addRpc_mirrors _)
    fun _ => .bind (k := id) (.pure rfl) fun _ _ _ => addRpc_mirrors _
  rw [httpOption_translated h.spec e.verb path hp]
  exact (Mirrors.result _).map fun _ => rfl

/-! ## Phases -/

/-- Compiling an operation leaves a state ready. -/
theorem compileOperation_ready (hc : c.Ready scope) {path : String} {shared : List Parameter}
    {e : Endpoint} {c' : Compilation}
    (h : compileOperation env scope path shared e c = .ok ((), c')) : c'.Ready scope := by
  obtain ⟨_, request, c₁, response, c₂, rpc, -, hrequest, hresponse, -, -, rfl⟩ :=
    compileOperation_ok h
  have hc₂ := (compileResponse_runs (Name.endpointName_plain _ _ _) hresponse).ready
    ((compileRequest_runs hrequest).ready hc)
  have hgrows : c₂.Grows (c₂.service :: scope) (c₂.serving rpc) :=
    serving_grows (List.mem_cons_of_mem _ hc₂.package) (List.mem_cons_self ..) rpc
  exact hc₂.of_changesGraph hgrows (.serving c₂ rpc)

/-- The operations of a path become the same procedures in both versions. -/
theorem compilePath_mirrors (h : env.Translates env') (hspec : env.spec.Portable)
    (hc : c.Ready scope) (path : String) {item item' : PathItem} (hi : item.Translates item')
    (hshared : ∀ p ∈ item.parameters, p.Portable) (hendpoints : ∀ e ∈ item.endpoints, e.Portable) :
    Mirrors id c (compilePath env scope path item) (compilePath env' scope path item') :=
  .forM hi.endpoints (fun _ _ _ _ hc hstep => compileOperation_ready hc hstep)
    (fun e he _ hee _ hc =>
      compileOperation_mirrors h hspec hc path hi.parameters hshared hee (hendpoints e he)) hc

end ApiProto.Compile
