import ApiProto.Proofs.RpcOptions
import ApiProto.Proofs.SchemaAgreement

/-!
# Compiling reordered operations

The procedure of an operation is the same whatever the order of its responses and of its schemas.
Only its custom options keep their order in the graph; it is lost when they are printed.

* `canonicalOptions` — the options of a procedure with custom options sorted by name.
* `compileRequest_agree`, `compileResponse_agree` — the messages of a procedure.
* `compileOperation_agree`, `compilePath_agree` — the procedures of a path, but for the order of
  custom options.
-/

namespace ApiProto.Compile

open Proto Document CompileM

variable {like : Likeness} {env env' : Environment}

/-! ## Requests -/

theorem parameterSchema_agree {p p' : Parameter} (hp : Parameter.Reordered p p') :
    Agree like (EntryRel Schema.Reordered) (parameterSchema p) (parameterSchema p') := by
  obtain ⟨hsame, hitems, hschema⟩ := hp
  rw [hsame]
  unfold parameterSchema
  refine .ite .rfl (fun _ => ?_) fun _ => ?_
  · refine .bind_eq (.result _) fun ref => .read fun c c' hc => ?_
    rw [hc.definition?_eq]
    have hname : ∀ given : String, Agree like (EntryRel Schema.Reordered)
        (pure (Name.snake given,
          { Schema.blank with ref := .text ref, protoName := .text (Name.snake given) }))
        (pure (Name.snake given,
          { Schema.blank with ref := .text ref, protoName := .text (Name.snake given) })) :=
      fun _ => .pure ⟨rfl, .of_parts rfl .nil .none .none⟩
    have hgiven : ∀ _ : Unit, Agree like (EntryRel Schema.Reordered) _ _ := fun _ =>
      .ite (p := p.name.isEmpty = true) .rfl
        (fun _ => .bind_eq (.pure (a := String.ofList (Text.afterLast '/' ref.toList)) rfl) hname)
        fun _ => .bind_eq (.result p.name.wordText) hname
    exact .ite .rfl (fun _ => .bind_eq (.failWith _) hgiven) fun _ => hgiven ()
  · refine .bind_eq (.result _) fun name => ?_
    dsimp only
    generalize p.schema = schema at hschema ⊢
    generalize p'.schema = schema' at hschema ⊢
    cases hschema with
    | some hs =>
      refine .pure ⟨rfl, ?_⟩
      cases hs with
      | mk hprops hsub hadd => exact .of_parts rfl hprops hsub hadd
    | none => exact .pure ⟨rfl, .of_parts rfl .nil hitems .none⟩

theorem requestSchema_agree {parameters parameters' : List Parameter}
    (hp : List.Forall₂ Parameter.Reordered parameters parameters') :
    Agree like Schema.Reordered (requestSchema parameters) (requestSchema parameters') := by
  refine .bind (R := List.Forall₂ (EntryRel Schema.Reordered)) (.mapM hp fun p p' hpp => ?_)
    fun properties properties' hprops => .pure ?_
  · have hparameter : Agree like (EntryRel Schema.Reordered) _ _ := parameterSchema_agree hpp
    rw [hpp.same] at hparameter ⊢
    exact .within _ hparameter
  · have hentries := (Entrywise.of_forall₂ hprops).collectEntries
    exact .of_parts rfl (.of_entrywise (nodup_keys_collectEntries _) hentries) .none .none

theorem declareMessage_agree (role : MessageRole) (scope : Scope) (typeName endpoint : String)
    (t : TypeRef) :
    Agree like Eq (declareMessage role scope typeName endpoint t)
      (declareMessage role scope typeName endpoint t) := by
  refine .read fun c c' hc => ?_
  dsimp only
  rw [hc.graph.isMessage_eq, hc.graph.kindName_eq]
  have hdeclare : ∀ _ : Unit, Agree like Eq
      (do declareDefinition scope (.type t); return t)
      (do declareDefinition scope (.type t); return t) := fun _ =>
    .bind_eq (declareDefinition_agree _ _) fun _ => .pure rfl
  exact .ite .rfl (fun _ => .bind_eq (.failWith _) hdeclare) fun _ => hdeclare ()

theorem compileRequest_agree (h : env.Reordered env') (scope : Scope) (name : String)
    {parameters parameters' : List Parameter}
    (hp : List.Forall₂ Parameter.Reordered parameters parameters') :
    Agree like Eq (compileRequest env scope name parameters)
      (compileRequest env' scope name parameters') := by
  refine .ite ?_ (fun _ => .pure rfl) fun _ => ?_
  · cases hp <;> simp
  · refine .bind (requestSchema_agree hp) fun s s' hs => ?_
    refine .bind_eq (.within _ (compileSchema_agree h.akin hs _ _ _)) fun d => ?_
    exact declareMessage_agree _ _ _ _ _

/-! ## Responses -/

theorem arrayItems_related (h : env.Reordered env') {s s' : Schema} (hs : Schema.Reordered s s') :
    Related (Option.Rel Schema.Reordered) (arrayItems env.spec s) (arrayItems env'.spec s') := by
  have hnamed : Related (Option.Rel Schema.Reordered) (arrayItems.named env.spec s)
      (arrayItems.named env'.spec s') := by
    unfold arrayItems.named
    rw [hs.ref_eq, h.spec.same]
    refine .map (R := Eq) (.refl (fun _ => rfl) _) fun ref _ heq => heq ▸ ?_
    rcases Text.stringAfter? env.spec.definitionsPrefix ref with _ | name
    · exact .none
    · have htarget := h.spec.definitions.lookup name
      simp only [Option.bind_eq_bind, Option.bind_some]
      generalize env.spec.definitions.lookup name = target at htarget ⊢
      generalize env'.spec.definitions.lookup name = target' at htarget ⊢
      cases htarget with
      | none => exact .none
      | some ht =>
        cases ht with
        | mk _ hitems _ =>
          simp only [Option.bind_some]
          split
          · exact hitems
          · exact .none
  unfold arrayItems
  generalize arrayItems.named env.spec s = named at hnamed ⊢
  generalize arrayItems.named env'.spec s' = named' at hnamed ⊢
  cases hs with
  | @mk s properties items additional _ hitems _ =>
    dsimp only
    generalize s.items = sub at hitems ⊢
    cases hitems with
    | none => exact hnamed
    | some hi =>
      dsimp only
      split
      · exact Option.Rel.some hi
      · exact hnamed

theorem compileArrayResponse_agree (h : env.Reordered env') (scope : Scope) (name typeName : String)
    {items items' : Schema} (hi : Schema.Reordered items items') :
    Agree like Eq (compileArrayResponse env scope name typeName items)
      (compileArrayResponse env' scope name typeName items') := by
  refine .bind_eq (.within _ (compileSchema_agree h.akin hi _ _ _)) fun item => ?_
  refine .bind_eq (newNode_agree_self rfl) fun message => ?_
  refine .bind_eq (nameOf_agree _) fun itemName => ?_
  exact .bind_eq (addImportFor_agree _) fun _ => .pure rfl

theorem responseSchema?_related {e e' : Endpoint} (he : Endpoint.Reordered e e') :
    Option.Rel Schema.Reordered (responseSchema? e) (responseSchema? e') := by
  have hcode : ∀ code, Option.Rel Schema.Reordered ((e.responses.lookup code).bind (·.schema))
      ((e'.responses.lookup code).bind (·.schema)) := by
    intro code
    have hresponse := he.responses.lookup code
    generalize e.responses.lookup code = found at hresponse ⊢
    generalize e'.responses.lookup code = found' at hresponse ⊢
    cases hresponse with
    | none => exact .none
    | some hr => exact hr.schema
  unfold responseSchema?
  generalize responseCodes = codes
  induction codes with
  | nil => exact .none
  | cons code rest ih =>
    have hfirst := hcode code
    simp only [List.findSome?_cons]
    generalize (e.responses.lookup code).bind (·.schema) = found at hfirst ⊢
    generalize (e'.responses.lookup code).bind (·.schema) = found' at hfirst ⊢
    cases hfirst with
    | none => exact ih
    | some hs => exact .some hs

theorem compileResponse_agree (h : env.Reordered env') (scope : Scope) (name : String)
    {e e' : Endpoint} (he : Endpoint.Reordered e e') :
    Agree like Eq (compileResponse env scope name e) (compileResponse env' scope name e') := by
  unfold compileResponse
  have hschema := responseSchema?_related he
  generalize responseSchema? e = found at hschema ⊢
  generalize responseSchema? e' = found' at hschema ⊢
  cases hschema with
  | none => exact .pure rfl
  | some hs =>
    refine .bind (.ofResult (arrayItems_related h hs)) fun items items' hitems => ?_
    cases hitems with
    | some hi =>
      refine .bind_eq (compileArrayResponse_agree h scope name _ hi) fun t => ?_
      exact declareMessage_agree _ _ _ _ _
    | none =>
      cases hs with
      | mk hp hi ha =>
        refine .bind_eq (.within _ (compileSchema_agree h.akin (.mk hp hi ha) _ _ _)) fun d => ?_
        exact .bind_eq (.pure rfl) fun t => declareMessage_agree _ _ _ _ _

/-! ## Options -/

theorem sharedParameter?_related (h : env.Reordered env') {p p' : Parameter}
    (hp : Parameter.Reordered p p') :
    Option.Rel Parameter.Reordered (sharedParameter? env.spec p) (sharedParameter? env'.spec p') := by
  unfold sharedParameter?
  rw [h.spec.same, hp.same]
  simp only [Option.bind_eq_bind]
  rcases p.ref.text? with _ | ref
  · exact .none
  · simp only [Option.bind_some]
    rcases Text.stringAfter? env.spec.parametersPrefix ref with _ | name
    · exact .none
    · exact h.spec.parameters.lookup name

theorem bodyField_eq (h : env.Reordered env') {parameters parameters' : List Parameter}
    (hp : List.Forall₂ Parameter.Reordered parameters parameters') :
    bodyField env.spec parameters = bodyField env'.spec parameters' := by
  unfold bodyField
  congr 1
  induction hp with
  | nil => rfl
  | @cons p p' _ _ hpp _ ih =>
    have heffective : ((sharedParameter? env.spec p).getD p).location =
          ((sharedParameter? env'.spec p').getD p').location ∧
        ((sharedParameter? env.spec p).getD p).name =
          ((sharedParameter? env'.spec p').getD p').name := by
      have hshared := sharedParameter?_related h hpp
      generalize sharedParameter? env.spec p = found at hshared ⊢
      generalize sharedParameter? env'.spec p' = found' at hshared ⊢
      cases hshared with
      | none =>
        rw [hpp.same]
        exact ⟨rfl, rfl⟩
      | some hs =>
        simp only [Option.getD_some]
        rw [hs.same]
        exact ⟨rfl, rfl⟩
    have hname : p'.name = p.name := by
      rw [hpp.same]
    simp only [List.findSome?_cons, heffective.1, heffective.2, hname, ih]

/-- The HTTP option of a procedure is the same, and it is no custom option. -/
theorem httpOption_related (h : env.Reordered env') (verb : Verb) (path : String)
    {parameters parameters' : List Parameter}
    (hp : List.Forall₂ Parameter.Reordered parameters parameters') :
    Related (fun a b => a = b ∧ customOptions [a] = [])
      (httpOption env.spec verb path parameters) (httpOption env'.spec verb path parameters') := by
  have hbase : env'.spec.basePath = env.spec.basePath := by
    rw [h.spec.same]
  unfold httpOption
  rw [hbase, bodyField_eq h hp]
  dsimp only
  split
  · exact ⟨rfl, rfl⟩
  · refine .bind (R := Eq) (.refl (fun _ => rfl) _) fun base base' hbase => ?_
    subst hbase
    exact ⟨rfl, rfl⟩

/-- Whether an option is an HTTP option. -/
def isHttp : RpcOption → Bool
  | .http .. => true
  | .custom .. => false

/-- The options of a procedure: HTTP options as they are, custom options sorted by name. -/
def canonicalOptions (options : List RpcOption) : List RpcOption :=
  options.filter isHttp ++
    (sortEntries (customOptions options)).map fun (name, value) => .custom name value

@[simp] theorem customOptions_append (l l' : List RpcOption) :
    customOptions (l ++ l') = customOptions l ++ customOptions l' := by
  simp [customOptions]

@[simp] theorem customOptions_custom (l : List (String × Value)) :
    customOptions (l.map fun (name, value) => .custom name value) = l := by
  simp [customOptions, List.filterMap_map]

@[simp] theorem filter_isHttp_custom (l : List (String × Value)) :
    ((l.map fun (name, value) => RpcOption.custom name value).filter isHttp) = [] := by
  simp [List.filter_map, Function.comp_def, isHttp]

/-- Reordered custom options are the same in canonical form. -/
theorem canonicalOptions_eq {http : List RpcOption} (hhttp : customOptions http = [])
    {custom custom' : List (String × Value)} (h : Reordered Eq custom custom') :
    canonicalOptions (http ++ custom.map fun (name, value) => .custom name value) =
      canonicalOptions (http ++ custom'.map fun (name, value) => .custom name value) := by
  have hsorted : sortEntries custom = sortEntries custom' := h.sortEntries.eq_of_eq
  simp only [canonicalOptions, List.filter_append, filter_isHttp_custom, customOptions_append, hhttp,
    customOptions_custom, List.nil_append, hsorted]

/-! ## Procedures -/

/-- Procedures of the same name and types can be added if services stay alike with them. -/
theorem addRpc_agree {rpc rpc' : Rpc TypeRef} (hname : rpc'.name = rpc.name)
    (hparameter : rpc'.parameter = rpc.parameter) (hresponse : rpc'.response = rpc.response)
    (hservice : ∀ s s' : Service TypeRef, like.alike (.service s) (.service s') →
      like.alike (.service { s with rpcs := s.rpcs ++ [rpc] })
        (.service { s' with rpcs := s'.rpcs ++ [rpc'] })) :
    Agree like Eq (addRpc rpc) (addRpc rpc') := by
  have hadd : ∀ s s' : Service TypeRef, like.alike (.service s) (.service s') →
      s'.rpcs.map (·.name) = s.rpcs.map (·.name) →
      Agree like Eq
        (do
          if s.rpcs.any fun other => other.name == rpc.name then return
          addImportFor (← nameOf rpc.parameter)
          addImportFor (← nameOf rpc.response)
          modify fun c => { c with
            graph := c.graph.put c.service (.service { s with rpcs := s.rpcs ++ [rpc] }) })
        (do
          if s'.rpcs.any fun other => other.name == rpc'.name then return
          addImportFor (← nameOf rpc'.parameter)
          addImportFor (← nameOf rpc'.response)
          modify fun c => { c with
            graph := c.graph.put c.service (.service { s' with rpcs := s'.rpcs ++ [rpc'] }) }) := by
    intro s s' halike hnames
    have hany : ∀ l : List (Rpc TypeRef), (l.any fun other => other.name == rpc.name) =
        (l.map (·.name)).any (· == rpc.name) := fun l => by rw [List.any_map]; rfl
    refine .ite (by rw [hname, hany, hany, hnames]) (fun _ => .pure rfl) fun _ => ?_
    rw [hparameter, hresponse]
    refine .bind_eq (nameOf_agree _) fun _ => .bind_eq (addImportFor_agree _) fun _ => ?_
    refine .bind_eq (nameOf_agree _) fun _ => .bind_eq (addImportFor_agree _) fun _ => ?_
    refine .modify fun c c' hc => { hc with graph := ?_ }
    rw [hc.service_eq]
    exact hc.graph.put (hservice s s' halike) c.service
  refine .read fun c c' hc => ?_
  rw [hc.service_eq]
  unfold Graph.service?
  rcases hn : c.graph.node? c.service with _ | n
  · rw [hc.graph.node?_of_none hn]
    exact .pure rfl
  · obtain ⟨n', hn', halike⟩ := hc.graph.node?_of_some hn
    rw [hn']
    cases like.akin halike with
    | service _ hnames => exact hadd _ _ halike hnames
    | same =>
      cases n with
      | service s => exact hadd s s halike rfl
      | _ => exact .pure rfl
    | _ => exact .pure rfl

/-- Reordered operations become the same procedure, but for the order of custom options. -/
theorem compileOperation_agree (h : env.Reordered env') (scope : Scope) (path : String)
    {shared shared' : List Parameter} (hshared : List.Forall₂ Parameter.Reordered shared shared')
    {e e' : Endpoint} (he : Endpoint.Reordered e e') :
    Agree (.ofOptions canonicalOptions) Eq (compileOperation env scope path shared e)
      (compileOperation env' scope path shared' e') := by
  have hp : List.Forall₂ Parameter.Reordered (shared ++ e.parameters) (shared' ++ e'.parameters) :=
    List.rel_append hshared he.parameters
  have hcustom := he.customOptions
  have hidentifier : e'.operationId = e.operationId := by rw [he.same]
  have hsummary : e'.summary = e.summary := by rw [he.same]
  have hdescription : e'.description = e.description := by rw [he.same]
  have hverb : e'.verb = e.verb := by rw [he.same]
  have hdeprecated : e'.deprecated = e.deprecated := by rw [he.same]
  unfold compileOperation
  rw [h.options, hidentifier, hsummary, hdescription, hverb, hdeprecated]
  refine .bind_eq (.result _) fun identifier => .bind_eq (.result _) fun summary =>
    .bind_eq (.result _) fun description =>
    .bind_eq (compileRequest_agree h scope _ hp) fun request =>
    .bind_eq (compileResponse_agree h scope _ he) fun response => ?_
  have hadd : ∀ http http' : List RpcOption, http = http' ∧ customOptions http = [] →
      Agree (.ofOptions canonicalOptions) Eq
        (addRpc ⟨Name.endpointName e.verb.word path identifier, request, response,
          Name.joinComment summary description,
          http ++ e.customOptions.map fun (name, value) => .custom name value, e.deprecated⟩)
        (addRpc ⟨Name.endpointName e.verb.word path identifier, request, response,
          Name.joinComment summary description,
          http' ++ e'.customOptions.map fun (name, value) => .custom name value, e.deprecated⟩) := by
    rintro http _ ⟨rfl, hhttp⟩
    refine addRpc_agree rfl rfl rfl fun s s' hs => ?_
    obtain ⟨hname, hrpcs⟩ := Service.mk.inj (Node.service.inj hs)
    show Node.service _ = Node.service _
    simp only [List.map_append, hname, hrpcs, List.map_cons, List.map_nil, Rpc.mapOptions,
      canonicalOptions_eq hhttp hcustom]
  refine .ite .rfl (fun _ => .bind ?_ hadd) fun _ => .bind (.pure ⟨rfl, rfl⟩) hadd
  refine .map (.ofResult (httpOption_related h e.verb path hp)) ?_
  rintro option _ ⟨rfl, hoption⟩
  exact ⟨rfl, hoption⟩

theorem compilePath_agree (h : env.Reordered env') (scope : Scope) (path : String)
    {item item' : PathItem} (hi : PathItem.Reordered item item') :
    Agree (.ofOptions canonicalOptions) Eq (compilePath env scope path item)
      (compilePath env' scope path item') :=
  .forM hi.endpoints fun _ _ he => compileOperation_agree h scope path hi.parameters he

end ApiProto.Compile
