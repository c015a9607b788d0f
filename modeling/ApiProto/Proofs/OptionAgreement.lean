import ApiProto.Proofs.OperationAgreement
import ApiProto.Proofs.ResolutionAgreement

/-!
# One description under two options

A description is compiled in the same way under options that differ, as long as what they make
different cannot be told apart in the graph.

* `annotationOf` — the HTTP option of a procedure, if procedures are to have one.
* `Environment.Twin` — two environments with the same description.
* `compileBody` — all phases after the first import.
* `compileOperation_agree_self`, `compileBody_agree_self` — an operation, and all phases, are
  compiled in the same way in both environments.
-/

namespace ApiProto.Compile

open Proto Document CompileM

/-- The HTTP option of a procedure, if procedures are to have one. -/
def annotationOf (env : Environment) (verb : Verb) (path : String) (parameters : List Parameter) :
    Except Error (List RpcOption) :=
  if env.options.annotate then (httpOption env.spec verb path parameters).map fun option => [option]
  else .ok []

/-- Services stay alike with a further procedure that has some options in one, and others in the
other. -/
def OptionsKeep (like : Likeness) (first first' : List RpcOption) : Prop :=
  ∀ (rpc : Rpc TypeRef) (s s' : Service TypeRef), like.alike (.service s) (.service s') →
    (∀ option ∈ rpc.options, isHttp option = false) →
    like.alike
      (.service { s with rpcs := s.rpcs ++ [{ rpc with options := first ++ rpc.options }] })
      (.service { s' with rpcs := s'.rpcs ++ [{ rpc with options := first' ++ rpc.options }] })

/-- Two environments with the same description, of which the options cannot be told apart. -/
structure Environment.Twin (like : Likeness) (env env' : Environment) : Prop where
  akin : env.Akin like env'
  spec : env'.spec = env.spec
  annotation : ∀ verb path parameters, Related (OptionsKeep like)
    (annotationOf env verb path parameters) (annotationOf env' verb path parameters)

variable {like : Likeness} {env env' : Environment}

/-! ## Requests and responses -/

theorem parameterSchema_agree_self (p : Parameter) :
    Agree like Eq (parameterSchema p) (parameterSchema p) := by
  unfold parameterSchema
  refine .ite .rfl (fun _ => ?_) fun _ => ?_
  · refine .bind_eq (.result _) fun ref => .read fun c c' hc => ?_
    rw [hc.definition?_eq]
    have hname : ∀ given : String, Agree like Eq
        (pure (Name.snake given,
          { Schema.blank with ref := .text ref, protoName := .text (Name.snake given) }))
        (pure (Name.snake given,
          { Schema.blank with ref := .text ref, protoName := .text (Name.snake given) })) :=
      fun _ => .pure rfl
    have hgiven : ∀ _ : Unit, Agree like Eq _ _ := fun _ =>
      .ite (p := p.name.isEmpty = true) .rfl
        (fun _ => .bind_eq (.pure (a := String.ofList (Text.afterLast '/' ref.toList)) rfl) hname)
        fun _ => .bind_eq (.result p.name.wordText) hname
    exact .ite .rfl (fun _ => .bind_eq (.failWith _) hgiven) fun _ => hgiven ()
  · refine .bind_eq (.result _) fun name => ?_
    rcases p.schema with _ | s
    · exact .pure rfl
    · exact .pure rfl

theorem requestSchema_agree_self (parameters : List Parameter) :
    Agree like Eq (requestSchema parameters) (requestSchema parameters) :=
  .bind_eq (.mapM_self _ fun p => .within _ (parameterSchema_agree_self p)) fun _ => .pure rfl

section Twins

variable (h : env.Akin like env')
include h

theorem compileRequest_agree_self (scope : Scope) (name : String) (parameters : List Parameter) :
    Agree like Eq (compileRequest env scope name parameters)
      (compileRequest env' scope name parameters) := by
  refine .ite .rfl (fun _ => .pure rfl) fun _ => ?_
  refine .bind_eq (requestSchema_agree_self parameters) fun s => ?_
  refine .bind_eq (.within _ (compileSchema_agree_self h s _ _ _)) fun d => ?_
  exact declareMessage_agree _ _ _ _ _

theorem compileResponse_agree_self (hspec : env'.spec = env.spec) (scope : Scope) (name : String)
    (e : Endpoint) :
    Agree like Eq (compileResponse env scope name e) (compileResponse env' scope name e) := by
  unfold compileResponse
  rw [hspec]
  rcases responseSchema? e with _ | s
  · exact .pure rfl
  · refine .bind_eq (.result _) fun items => ?_
    rcases items with _ | items
    · refine .bind_eq (.within _ (compileSchema_agree_self h s _ _ _)) fun d => ?_
      exact .bind_eq (.pure rfl) fun t => declareMessage_agree _ _ _ _ _
    · refine .bind_eq ?_ fun t => declareMessage_agree _ _ _ _ _
      refine .bind_eq (.within _ (compileSchema_agree_self h items _ _ _)) fun item => ?_
      refine .bind_eq (newNode_agree_self rfl) fun message => .bind_eq (nameOf_agree _) fun _ => ?_
      exact .bind_eq (addImportFor_agree _) fun _ => .pure rfl

/-! ## Named schemas and shared parameters -/

theorem compileDefinitions_agree_self (hspec : env'.spec = env.spec) (scope : Scope) :
    Agree like Eq (compileDefinitions env scope) (compileDefinitions env' scope) := by
  unfold compileDefinitions
  rw [hspec]
  refine .forM_self _ fun (name, s) => ?_
  refine .bind_eq (.within _ (compileSchema_agree_self h s _ _ _)) fun d => ?_
  exact define_agree _ _

theorem compileParameters_agree_self (hspec : env'.spec = env.spec) (scope : Scope) :
    Agree like Eq (compileParameters env scope) (compileParameters env' scope) := by
  unfold compileParameters
  rw [hspec]
  refine .forM_self _ fun (name, p) => ?_
  refine .bind_eq (.within _ ?_) fun d => .ite .rfl (fun _ => ?_) fun _ => ?_
  · refine .bind_eq (parameterSchema_agree_self p) fun entry => ?_
    exact compileSchema_agree_self h entry.2 _ _ _
  · exact .bind_eq (nameOf_agree _) fun _ => define_agree _ _
  · exact .bind_eq (.result _) fun _ => define_agree _ _

end Twins

/-! ## Procedures -/

/-- An operation is compiled to its procedure, which starts with its HTTP option. -/
theorem compileOperation_eq (env : Environment) (scope : Scope) (path : String)
    (shared : List Parameter) (e : Endpoint) : compileOperation env scope path shared e = (do
      let identifier ← ofResult e.operationId.wordText
      let name := Name.endpointName e.verb.word path identifier
      let comment := Name.joinComment (← ofResult (e.summary.textWith "strip"))
        (← ofResult (e.description.textWith "strip"))
      let request ← compileRequest env scope name (shared ++ e.parameters)
      let response ← compileResponse env scope name e
      let first ← ofResult (annotationOf env e.verb path (shared ++ e.parameters))
      addRpc ⟨name, request, response, comment,
        first ++ e.customOptions.map fun (name, value) => .custom name value, e.deprecated⟩) := by
  unfold compileOperation annotationOf
  split
  · have hmap : ∀ r : Except Error RpcOption,
        ((ofResult r : CompileM RpcOption).map fun option => [option]) =
          ofResult (r.map fun option => [option]) := by
      intro r
      funext c
      rcases r with e | option <;> rfl
    simp only [hmap]
  · rfl

variable (h : env.Twin like env')
include h

theorem compileOperation_agree_self (scope : Scope) (path : String) (shared : List Parameter)
    (e : Endpoint) : Agree like Eq (compileOperation env scope path shared e)
      (compileOperation env' scope path shared e) := by
  rw [compileOperation_eq, compileOperation_eq]
  refine .bind_eq (.result _) fun identifier => .bind_eq (.result _) fun summary =>
    .bind_eq (.result _) fun description =>
    .bind_eq (compileRequest_agree_self h.akin scope _ _) fun request =>
    .bind_eq (compileResponse_agree_self h.akin h.spec scope _ e) fun response =>
    .bind (.ofResult (h.annotation e.verb path _)) fun first first' hfirst => ?_
  refine addRpc_agree rfl rfl rfl fun s s' hs => ?_
  refine hfirst ⟨_, request, response, _, _, e.deprecated⟩ s s' hs fun option hoption => ?_
  obtain ⟨entry, -, rfl⟩ := List.mem_map.1 hoption
  rfl

theorem compilePaths_agree_self (scope : Scope) :
    Agree like Eq (compilePaths env scope) (compilePaths env' scope) := by
  unfold compilePaths
  rw [h.spec]
  refine .forM_self _ fun (path, item) => .within _ ?_
  exact .forM_self _ fun e => compileOperation_agree_self h scope path item.parameters e

/-! ## All phases -/

omit h in
/-- All phases after the first import. -/
def compileBody (env : Environment) (scope : Scope) : CompileM Unit := do
  within "failed to compile definitions" (compileDefinitions env scope)
  within "failed to compile parameters" (compileParameters env scope)
  within "failed to resolve references" resolveAll
  modify fun c => { c with deferring := false }
  env.spec.extensions.forM compileExtension
  if !env.options.skipRpcs then within "failed to compile paths" (compilePaths env scope)
  checkResolved

omit h in
theorem compileAll_eq_body (env : Environment) : compileAll env = (do
    let scope := [(← get).package]
    if env.options.annotate then addImport "google/api/annotations.proto"
    compileBody env scope) := rfl

theorem compileBody_agree_self (hskip : env'.options.skipRpcs = env.options.skipRpcs)
    (scope : Scope) : Agree like Eq (compileBody env scope) (compileBody env' scope) := by
  unfold compileBody
  rw [hskip, h.spec]
  refine .bind_eq (.within _ (compileDefinitions_agree_self h.akin h.spec scope)) fun _ =>
    .bind_eq (.within _ (compileParameters_agree_self h.akin h.spec scope)) fun _ =>
    .bind_eq (.within _ resolveAll_agree) fun _ =>
    .bind_eq (.modify fun c c' hc => ?_) fun _ =>
    .bind_eq (.forM_self _ compileExtension_agree) fun _ =>
    .ite .rfl (fun _ => ?_) fun _ => checkResolved_agree
  · exact { hc with deferring_eq := rfl }
  · exact .bind_eq (.within _ (compilePaths_agree_self h scope)) fun _ => checkResolved_agree

end ApiProto.Compile
