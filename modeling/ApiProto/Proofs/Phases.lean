import ApiProto.Proofs.Run

/-!
# Phases

A compilation builds a package from runs: named schemas and shared parameters become definitions,
extensions and procedures are added. In between, references are resolved.

* `Compilation.defining`, `Compilation.serving`, `Compilation.extending` — what is done with the
  types of a run.
* `Builds` — what the phases before and after resolution do.
* `compilePhases_ok`, `compileAll_ok_iff` — a successful compilation builds, resolves, and builds
  again, and leaves no reference over.
-/

namespace ApiProto.Compile

open Proto Document CompileM

/-! ## Effects -/

namespace Compilation

/-- The state with an import. -/
def importFile (c : Compilation) (file : String) : Compilation :=
  { c with graph := c.graph.addImport c.package file }

/-- The state with a definition, unless the reference has one. -/
def defining (c : Compilation) (ref : String) (d : Definition) : Compilation :=
  if (c.definitions.lookup ref).isSome then c
  else { c with definitions := c.definitions ++ [(ref, d)] }

/-- The state with the imports that type names need. -/
def importingAll (c : Compilation) (names : List String) : Compilation :=
  names.foldl importing c

/-- The state with an extension in the package. -/
def extending (c : Compilation) (e : Proto.Extension) : Compilation :=
  { c.withNode (.extension e) with
    graph := (c.withNode (.extension e)).graph.addChild c.package (.node c.graph.size) }

/-- The state with a procedure and the imports that it needs, unless there is one of its name. -/
def serving (c : Compilation) (rpc : Rpc TypeRef) : Compilation :=
  match c.graph.service? c.service with
  | none => c
  | some s =>
    if s.rpcs.any fun other => other.name == rpc.name then c
    else
      let c₁ := c.importing (c.graph.typeName rpc.parameter)
      let c₂ := c₁.importing (c₁.graph.typeName rpc.response)
      { c₂ with graph := c₂.graph.put c₂.service (.service { s with rpcs := s.rpcs ++ [rpc] }) }

end Compilation

/-- What is built in a package, from one state to another. -/
inductive Builds (env : Environment) (package : Nat) : Compilation → Compilation → Prop
  | refl {c : Compilation} : Builds env package c c
  | importFile {c c₁ : Compilation} (file : String) :
      Builds env package c c₁ → Builds env package c (c₁.importFile file)
  | define {c c₁ c₂ : Compilation} (ref : String) (d : Definition) :
      Builds env package c c₁ → Runs env [package] c₁ [d.unwrap] c₂ →
      Builds env package c (c₂.defining ref d)
  | extension {c c₁ : Compilation} (e : Proto.Extension) :
      Builds env package c c₁ →
      Builds env package c ((c₁.importingAll (e.fields.map (·.type) ++ [e.base])).extending e)
  | procedure {c c₁ c₂ : Compilation} (rpc : Rpc TypeRef) :
      Builds env package c c₁ → Runs env [package] c₁ [rpc.parameter, rpc.response] c₂ →
      Builds env package c (c₂.serving rpc)

variable {env : Environment} {package : Nat} {c c₁ c' : Compilation}

namespace Builds

theorem trans (h : Builds env package c c₁) (h' : Builds env package c₁ c') :
    Builds env package c c' := by
  induction h' with
  | refl => exact h
  | importFile file _ ih => exact .importFile file ih
  | define ref d _ hrun ih => exact .define ref d ih hrun
  | extension e _ ih => exact .extension e ih
  | procedure rpc _ hrun ih => exact .procedure rpc ih hrun

theorem of_forM {α : Type} {f : α → CompileM Unit} {l : List α}
    (step : ∀ a c c', f a c = .ok ((), c') → Builds env package c c')
    (h : l.forM f c = .ok ((), c')) : Builds env package c c' :=
  forM_ok_induct (P := Builds env package c)
    (fun a _ c₁ c₂ hstep hc => hc.trans (step a c₁ c₂ hstep)) h .refl

end Builds

@[simp] theorem define_run (ref : String) (d : Definition) :
    define ref d c = .ok ((), c.defining ref d) := by
  unfold define Compilation.defining
  split <;> rfl

@[simp] theorem addRpc_run (rpc : Rpc TypeRef) : addRpc rpc c = .ok ((), c.serving rpc) := by
  unfold addRpc Compilation.serving
  rw [get_bind]
  rcases c.graph.service? c.service with _ | s
  · rfl
  · dsimp only
    split
    · rfl
    · simp only [nameOf_bind, addImportFor_bind, modify_run]

/-! ## Named schemas and shared parameters -/

/-- Compiles a named schema. -/
def compileDefinition (env : Environment) (scope : Scope) : String × Schema → CompileM Unit
  | (name, s) => do
    let ref := env.spec.definitionsPrefix ++ name
    let d ← within ("failed to compile " ++ ref)
      (compileSchema env s scope (Name.pascal name) s.description)
    define ref d

theorem compileDefinitions_eq (env : Environment) (scope : Scope) :
    compileDefinitions env scope =
      (sortEntries env.spec.definitions).forM (compileDefinition env scope) := rfl

theorem compileDefinition_ok {scope : Scope} {name : String} {s : Schema}
    (h : compileDefinition env scope (name, s) c = .ok ((), c')) :
    ∃ d c₁, compileSchema env s scope (Name.pascal name) s.description c = .ok (d, c₁) ∧
      c' = c₁.defining (env.spec.definitionsPrefix ++ name) d := by
  obtain ⟨d, c₁, hd, h⟩ := bind_ok_iff.1 h
  obtain rfl : c₁.defining _ d = c' := by simpa using h
  exact ⟨d, c₁, within_ok_iff.1 hd, rfl⟩

theorem compileDefinition_builds {entry : String × Schema}
    (h : compileDefinition env [package] entry c = .ok ((), c')) : Builds env package c c' := by
  obtain ⟨d, c₁, hd, rfl⟩ := compileDefinition_ok h
  exact .define _ d .refl (compileSchema_runs env _ _ _ _ _ _ _ hd)

theorem compileDefinitions_builds
    (h : compileDefinitions env [package] c = .ok ((), c')) : Builds env package c c' :=
  Builds.of_forM (fun _ _ _ => compileDefinition_builds) h

theorem parameterSchema_ok {p : Parameter} {r : String × Schema}
    (h : parameterSchema p c = .ok (r, c')) : c = c' := by
  unfold parameterSchema at h
  split at h
  · obtain ⟨ref, _, href, h⟩ := bind_ok_iff.1 h
    obtain ⟨-, rfl⟩ := ofResult_ok_iff.1 href
    rw [get_bind] at h
    split at h
    · simp [bind_ok_iff] at h
    · split at h
      · simp only [pure_bind_run, pure_run, Except.ok.injEq, Prod.mk.injEq] at h
        exact h.2
      · simp only [bind_ok_iff, ofResult_ok_iff, pure_run, Except.ok.injEq, Prod.mk.injEq] at h
        obtain ⟨_, _, ⟨-, rfl⟩, -, rfl⟩ := h
        rfl
  · obtain ⟨name, _, hname, h⟩ := bind_ok_iff.1 h
    obtain ⟨-, rfl⟩ := ofResult_ok_iff.1 hname
    rcases hs : p.schema with _ | s <;> rw [hs] at h
    · simp only [pure_run, Except.ok.injEq, Prod.mk.injEq] at h
      exact h.2
    · simp only [pure_run, Except.ok.injEq, Prod.mk.injEq] at h
      exact h.2

/-- Compiles a shared parameter. -/
def compileParameter (env : Environment) (scope : Scope) : String × Parameter → CompileM Unit
  | (name, p) => do
    let ref := env.spec.parametersPrefix ++ name
    let d ← within ("failed to compile " ++ ref) do
      let (_, s) ← parameterSchema p
      compileSchema env s scope (Name.pascal name) s.description
    let t := d.unwrap
    let fieldName ← if p.name.isEmpty then nameOf t else ofResult p.name.wordText
    define ref (.parameter t fieldName p.tag p.isArray)

theorem compileParameters_eq (env : Environment) (scope : Scope) :
    compileParameters env scope =
      (sortEntries env.spec.parameters).forM (compileParameter env scope) := rfl

/-- A shared parameter is compiled as the property that it is, and keeps its name, if it has one. -/
theorem compileParameter_given {scope : Scope} {name : String} {p : Parameter}
    (h : compileParameter env scope (name, p) c = .ok ((), c')) :
    ∃ key s d c₁ given, parameterSchema p c = .ok ((key, s), c) ∧
      compileSchema env s scope (Name.pascal name) s.description c = .ok (d, c₁) ∧
      (p.name.isEmpty = false → p.name.wordText = .ok given) ∧
      c' = c₁.defining (env.spec.parametersPrefix ++ name)
        (.parameter d.unwrap given p.tag p.isArray) := by
  obtain ⟨d, c₁, hd, h⟩ := bind_ok_iff.1 h
  obtain ⟨⟨key, s⟩, c₂, hs, hd⟩ := bind_ok_iff.1 (within_ok_iff.1 hd)
  obtain rfl := parameterSchema_ok hs
  refine ⟨key, s, d, c₁, ?_⟩
  dsimp only at h
  split at h
  · next hnone =>
    rw [nameOf_bind, define_run] at h
    obtain rfl : c₁.defining _ _ = c' := by simpa using h
    refine ⟨_, hs, hd, fun hsome => ?_, rfl⟩
    rw [hnone] at hsome
    cases hsome
  · obtain ⟨word, _, hword, h⟩ := bind_ok_iff.1 h
    obtain ⟨hword, rfl⟩ := ofResult_ok_iff.1 hword
    obtain rfl : c₁.defining _ _ = c' := by simpa using h
    exact ⟨word, hs, hd, fun _ => hword, rfl⟩

theorem compileParameter_ok {scope : Scope} {name : String} {p : Parameter}
    (h : compileParameter env scope (name, p) c = .ok ((), c')) :
    ∃ key s d c₁ given, parameterSchema p c = .ok ((key, s), c) ∧
      compileSchema env s scope (Name.pascal name) s.description c = .ok (d, c₁) ∧
      c' = c₁.defining (env.spec.parametersPrefix ++ name)
        (.parameter d.unwrap given p.tag p.isArray) := by
  obtain ⟨key, s, d, c₁, given, hs, hd, -, h⟩ := compileParameter_given h
  exact ⟨key, s, d, c₁, given, hs, hd, h⟩

theorem compileParameter_builds {entry : String × Parameter}
    (h : compileParameter env [package] entry c = .ok ((), c')) : Builds env package c c' := by
  obtain ⟨key, s, d, c₁, fieldName, -, hd, rfl⟩ := compileParameter_ok h
  have hrun := compileSchema_runs env s _ _ _ _ _ _ hd
  exact .define _ (.parameter d.unwrap _ _ _) .refl hrun

theorem compileParameters_builds
    (h : compileParameters env [package] c = .ok ((), c')) : Builds env package c c' :=
  Builds.of_forM (fun _ _ _ => compileParameter_builds) h

/-! ## Operations -/

theorem requestSchema_ok {parameters : List Parameter} {s : Schema}
    (h : requestSchema parameters c = .ok (s, c')) : c = c' := by
  unfold requestSchema at h
  obtain ⟨properties, c₁, hp, h⟩ := bind_ok_iff.1 h
  obtain ⟨-, rfl⟩ : _ = s ∧ c₁ = c' := by simpa using h
  exact mapM_ok_state (fun _ _ _ _ hstep => parameterSchema_ok (within_ok_iff.1 hstep)) hp

theorem declareMessage_ok {role : MessageRole} {scope : Scope} {typeName endpoint : String}
    {t t' : TypeRef} (h : declareMessage role scope typeName endpoint t c = .ok (t', c')) :
    t' = t ∧ c' = c.declareHere scope t := by
  unfold declareMessage at h
  rw [get_bind] at h
  split at h
  · simp [bind_ok_iff] at h
  · simp only [declareDefinition_bind, pure_run, Except.ok.injEq, Prod.mk.injEq] at h
    exact ⟨h.1.symm, h.2.symm⟩

/-- Only a message is declared as the message of a procedure. -/
theorem declareMessage_isMessage {role : MessageRole} {scope : Scope} {typeName endpoint : String}
    {t t' : TypeRef} (h : declareMessage role scope typeName endpoint t c = .ok (t', c')) :
    c.graph.isMessage t = true := by
  unfold declareMessage at h
  rw [get_bind] at h
  split at h
  · simp [bind_ok_iff] at h
  · next hmessage => simpa using hmessage

/-- The request of parameters is the message of an object that has them as properties. -/
theorem compileRequest_ok {scope : Scope} {name : String} {parameters : List Parameter}
    {t : TypeRef} (hsome : parameters.isEmpty = false)
    (h : compileRequest env scope name parameters c = .ok (t, c')) :
    ∃ s d c₁, requestSchema parameters c = .ok (s, c) ∧
      compileSchema env s scope (name ++ "Request") (.text "") c = .ok (d, c₁) ∧
      t = d.unwrap ∧ c' = c₁.declareHere scope t := by
  unfold compileRequest at h
  rw [if_neg (by simp [hsome])] at h
  obtain ⟨s, c₁, hs, h⟩ := bind_ok_iff.1 h
  obtain rfl := requestSchema_ok hs
  obtain ⟨d, c₂, hd, h⟩ := bind_ok_iff.1 h
  obtain ⟨rfl, rfl⟩ := declareMessage_ok h
  exact ⟨s, d, c₂, hs, within_ok_iff.1 hd, rfl, rfl⟩

/-- Without parameters, there is nothing to ask for. -/
theorem compileRequest_none {scope : Scope} {name : String} {parameters : List Parameter}
    {t : TypeRef} (hnone : parameters.isEmpty = true)
    (h : compileRequest env scope name parameters c = .ok (t, c')) :
    t = .builtin .empty ∧ c' = c := by
  unfold compileRequest at h
  rw [if_pos hnone] at h
  obtain ⟨rfl, rfl⟩ := Prod.mk.inj (Except.ok.inj h)
  exact ⟨rfl, rfl⟩

theorem compileRequest_runs {scope : Scope} {name : String} {parameters : List Parameter}
    {t : TypeRef} (h : compileRequest env scope name parameters c = .ok (t, c')) :
    Runs env scope c [t] c' := by
  rcases hsome : parameters.isEmpty with _ | _
  · obtain ⟨s, d, c₁, -, hd, rfl, rfl⟩ := compileRequest_ok hsome h
    exact .declared (compileSchema_runs env s _ _ _ _ _ _ hd)
  · obtain ⟨rfl, rfl⟩ := compileRequest_none hsome h
    exact .builtin _ .nil

/-- The message of a response that is an array has one repeated field. -/
theorem compileArrayResponse_ok {scope : Scope} {name typeName : String} {items : Schema}
    {t : TypeRef} (h : compileArrayResponse env scope name typeName items c = .ok (t, c')) :
    ∃ d c₁, compileSchema env items scope (typeName ++ "Item") (.text "") c = .ok (d, c₁) ∧
      t = .node c₁.graph.size ∧
      c' = (c₁.withNode (.message (arrayMessage typeName d.unwrap))).importing
        ((c₁.withNode (.message (arrayMessage typeName d.unwrap))).graph.typeName d.unwrap) := by
  unfold compileArrayResponse at h
  obtain ⟨d, c₁, hd, h⟩ := bind_ok_iff.1 h
  simp only [newNode_bind, nameOf_bind, addImportFor_bind, pure_run, Except.ok.injEq,
    Prod.mk.injEq] at h
  obtain ⟨rfl, rfl⟩ := h
  exact ⟨d, c₁, within_ok_iff.1 hd, rfl, rfl⟩

/-- A response with a schema is compiled from its items, if it is an array, or as it stands. -/
theorem compileResponse_ok {scope : Scope} {name : String} {e : Endpoint} {t : TypeRef} {s : Schema}
    (hs : responseSchema? e = some s) (h : compileResponse env scope name e c = .ok (t, c')) :
    (∃ items c₁, arrayItems env.spec s = .ok (some items) ∧
        compileArrayResponse env scope name (name ++ "Response") items c = .ok (t, c₁) ∧
        c' = c₁.declareHere scope t) ∨
      ∃ d c₁, arrayItems env.spec s = .ok none ∧
        compileSchema env s scope (name ++ "Response") s.description c = .ok (d, c₁) ∧
        t = d.unwrap ∧ c' = c₁.declareHere scope t := by
  unfold compileResponse at h
  rw [hs] at h
  dsimp only at h
  obtain ⟨items, _, hitems, h⟩ := bind_ok_iff.1 h
  obtain ⟨hitems, rfl⟩ := ofResult_ok_iff.1 hitems
  cases items with
  | some items =>
    obtain ⟨t', c₁, ht, h⟩ := bind_ok_iff.1 h
    obtain ⟨rfl, rfl⟩ := declareMessage_ok h
    exact .inl ⟨items, c₁, hitems, ht, rfl⟩
  | none =>
    obtain ⟨d, c₁, hd, h⟩ := bind_ok_iff.1 h
    rw [pure_bind_run] at h
    obtain ⟨rfl, rfl⟩ := declareMessage_ok h
    exact .inr ⟨d, c₁, hitems, within_ok_iff.1 hd, rfl, rfl⟩

/-- Without a schema, there is nothing to answer. -/
theorem compileResponse_none {scope : Scope} {name : String} {e : Endpoint} {t : TypeRef}
    (hnone : responseSchema? e = none) (h : compileResponse env scope name e c = .ok (t, c')) :
    t = .builtin .empty ∧ c' = c := by
  unfold compileResponse at h
  rw [hnone] at h
  obtain ⟨rfl, rfl⟩ := Prod.mk.inj (Except.ok.inj h)
  exact ⟨rfl, rfl⟩

theorem compileResponse_runs {scope : Scope} {name : String} (plain : Name.IsPlain name)
    {e : Endpoint} {t : TypeRef} (h : compileResponse env scope name e c = .ok (t, c')) :
    Runs env scope c [t] c' := by
  rcases hs : responseSchema? e with _ | s
  · obtain ⟨rfl, rfl⟩ := compileResponse_none hs h
    exact .builtin _ .nil
  · rcases compileResponse_ok hs h with ⟨items, c₁, -, ht, rfl⟩ | ⟨d, c₁, -, hd, rfl, rfl⟩
    · obtain ⟨d, c₂, hd, rfl, rfl⟩ := compileArrayResponse_ok ht
      refine .arrayResponse _ ?_ (compileSchema_runs env items _ _ _ _ _ _ hd)
      exact plain.append (by decide)
    · exact .declared (compileSchema_runs env s _ _ _ _ _ _ hd)

/-- All that a procedure has from its operation. -/
theorem compileOperation_rpc {scope : Scope} {path : String} {shared : List Parameter}
    {e : Endpoint} (h : compileOperation env scope path shared e c = .ok ((), c')) :
    ∃ identifier summary description http request c₁ response c₂,
      e.operationId.wordText = .ok identifier ∧
      e.summary.textWith "strip" = .ok summary ∧ e.description.textWith "strip" = .ok description ∧
      compileRequest env scope (Name.endpointName e.verb.word path identifier)
        (shared ++ e.parameters) c = .ok (request, c₁) ∧
      compileResponse env scope (Name.endpointName e.verb.word path identifier) e c₁ =
        .ok (response, c₂) ∧
      (if env.options.annotate then
        (httpOption env.spec e.verb path (shared ++ e.parameters)).map (fun option => [option]) =
          .ok http
      else http = []) ∧
      c' = c₂.serving {
        name := Name.endpointName e.verb.word path identifier
        parameter := request
        response := response
        comment := Name.joinComment summary description
        options := http ++ e.customOptions.map fun (name, value) => .custom name value
        deprecated := e.deprecated } := by
  unfold compileOperation at h
  obtain ⟨identifier, _, hidentifier, h⟩ := bind_ok_iff.1 h
  obtain ⟨hidentifier, rfl⟩ := ofResult_ok_iff.1 hidentifier
  obtain ⟨summary, _, hsummary, h⟩ := bind_ok_iff.1 h
  obtain ⟨hsummary, rfl⟩ := ofResult_ok_iff.1 hsummary
  obtain ⟨description, _, hdescription, h⟩ := bind_ok_iff.1 h
  obtain ⟨hdescription, rfl⟩ := ofResult_ok_iff.1 hdescription
  obtain ⟨request, c₁, hrequest, h⟩ := bind_ok_iff.1 h
  obtain ⟨response, c₂, hresponse, h⟩ := bind_ok_iff.1 h
  dsimp only at h
  split at h
  · next hannotate =>
    obtain ⟨http, c₃, hhttp, h⟩ := bind_ok_iff.1 h
    obtain ⟨option, _, hoption, hhttp⟩ := map_ok_iff.1 hhttp
    obtain ⟨hoption, rfl⟩ := ofResult_ok_iff.1 hoption
    obtain ⟨rfl, rfl⟩ := Prod.mk.inj hhttp
    rw [addRpc_run] at h
    refine ⟨identifier, summary, description, [option], request, c₁, response, c₂, hidentifier,
      hsummary, hdescription, hrequest, hresponse, ?_, (Prod.mk.inj (Except.ok.inj h)).2.symm⟩
    rw [if_pos hannotate, hoption]
    rfl
  · next hannotate =>
    rw [pure_bind_run, addRpc_run] at h
    exact ⟨identifier, summary, description, [], request, c₁, response, c₂, hidentifier, hsummary,
      hdescription, hrequest, hresponse, if_neg hannotate ▸ rfl,
      (Prod.mk.inj (Except.ok.inj h)).2.symm⟩

/-- An operation becomes a procedure with a request and a response. -/
theorem compileOperation_ok {scope : Scope} {path : String} {shared : List Parameter} {e : Endpoint}
    (h : compileOperation env scope path shared e c = .ok ((), c')) :
    ∃ identifier request c₁ response c₂ rpc, e.operationId.wordText = .ok identifier ∧
      compileRequest env scope (Name.endpointName e.verb.word path identifier)
        (shared ++ e.parameters) c = .ok (request, c₁) ∧
      compileResponse env scope (Name.endpointName e.verb.word path identifier) e c₁ =
        .ok (response, c₂) ∧
      rpc.parameter = request ∧ rpc.response = response ∧ c' = c₂.serving rpc := by
  obtain ⟨identifier, _, _, _, request, c₁, response, c₂, hidentifier, -, -, hrequest, hresponse,
    -, h⟩ := compileOperation_rpc h
  exact ⟨identifier, request, c₁, response, c₂, _, hidentifier, hrequest, hresponse, rfl, rfl, h⟩

theorem compileOperation_builds {path : String} {shared : List Parameter} {e : Endpoint}
    (h : compileOperation env [package] path shared e c = .ok ((), c')) :
    Builds env package c c' := by
  obtain ⟨identifier, request, c₁, response, c₂, rpc, -, hrequest, hresponse, rfl, rfl, rfl⟩ :=
    compileOperation_ok h
  exact .procedure rpc .refl (.cons (compileRequest_runs hrequest)
    (compileResponse_runs (Name.endpointName_plain _ _ _) hresponse))

/-- Compiles the operations of a path. -/
def compilePathEntry (env : Environment) (scope : Scope) : String × PathItem → CompileM Unit
  | (path, item) => within ("failed to compile path " ++ path) (compilePath env scope path item)

theorem compilePaths_eq (env : Environment) (scope : Scope) :
    compilePaths env scope = (sortEntries env.spec.paths).forM (compilePathEntry env scope) := rfl

theorem compilePathEntry_ok {scope : Scope} {path : String} {item : PathItem}
    (h : compilePathEntry env scope (path, item) c = .ok ((), c')) :
    item.endpoints.forM (compileOperation env scope path item.parameters) c = .ok ((), c') :=
  within_ok_iff.1 h

theorem compilePathEntry_builds {entry : String × PathItem}
    (h : compilePathEntry env [package] entry c = .ok ((), c')) : Builds env package c c' :=
  Builds.of_forM (fun _ _ _ => compileOperation_builds) (compilePathEntry_ok h)

theorem compilePaths_builds (h : compilePaths env [package] c = .ok ((), c')) :
    Builds env package c c' :=
  Builds.of_forM (fun _ _ _ => compilePathEntry_builds) h

/-! ## Extensions -/

theorem mapM_extensionField_ok {fields : List Document.ExtensionField}
    {compiled : List Proto.ExtensionField}
    (h : (fields.mapM fun (f : Document.ExtensionField) => do
      let type ← ofResult f.type.keyText
      addImportFor type
      return (⟨f.name.display, type, f.number⟩ : Proto.ExtensionField) : CompileM _) c =
        .ok (compiled, c')) :
    compiled.map (·.name) = fields.map (·.name.display) ∧
      c' = c.importingAll (compiled.map (·.type)) := by
  induction fields generalizing c compiled with
  | nil =>
    obtain ⟨rfl, rfl⟩ := Prod.mk.inj (Except.ok.inj h)
    exact ⟨rfl, rfl⟩
  | cons f rest ih =>
    rw [List.mapM_cons] at h
    obtain ⟨first, c₁, hfirst, h⟩ := bind_ok_iff.1 h
    obtain ⟨others, c₂, hrest, h⟩ := bind_ok_iff.1 h
    obtain ⟨rfl, rfl⟩ := Prod.mk.inj (Except.ok.inj h)
    obtain ⟨type, _, htype, hfirst⟩ := bind_ok_iff.1 hfirst
    obtain ⟨-, rfl⟩ := ofResult_ok_iff.1 htype
    simp only [addImportFor_bind, pure_run, Except.ok.injEq, Prod.mk.injEq] at hfirst
    obtain ⟨rfl, rfl⟩ := hfirst
    obtain ⟨hnames, hothers⟩ := ih hrest
    exact ⟨congrArg (f.name.display :: ·) hnames, hothers⟩

/-- An extension has the fields that are given, under their names. -/
theorem compileExtension_fields {e : Document.Extension}
    (h : compileExtension e c = .ok ((), c')) :
    ∃ e' : Proto.Extension, e'.fields.map (·.name) = e.fields.map (·.name.display) ∧
      c' = (c.importingAll (e'.fields.map (·.type) ++ [e'.base])).extending e' := by
  unfold compileExtension at h
  obtain ⟨fields, c₁, hfields, h⟩ := bind_ok_iff.1 h
  obtain ⟨hnames, rfl⟩ := mapM_extensionField_ok hfields
  obtain ⟨base, _, hbase, h⟩ := bind_ok_iff.1 h
  obtain ⟨-, rfl⟩ := ofResult_ok_iff.1 hbase
  simp only [addImportFor_bind, newNode_bind, modify_run, Except.ok.injEq, Prod.mk.injEq] at h
  obtain ⟨-, rfl⟩ := h
  refine ⟨⟨base, fields⟩, hnames, ?_⟩
  have happend : c.importingAll (fields.map (·.type) ++ [base]) =
      (c.importingAll (fields.map (·.type))).importing base := by
    simp [Compilation.importingAll]
  rw [happend]
  rfl

theorem compileExtension_ok {e : Document.Extension} (h : compileExtension e c = .ok ((), c')) :
    ∃ e' : Proto.Extension,
      c' = (c.importingAll (e'.fields.map (·.type) ++ [e'.base])).extending e' := by
  obtain ⟨e', -, heq⟩ := compileExtension_fields h
  exact ⟨e', heq⟩

theorem compileExtension_builds {e : Document.Extension}
    (h : compileExtension e c = .ok ((), c')) : Builds env package c c' := by
  obtain ⟨e', rfl⟩ := compileExtension_ok h
  exact .extension e' .refl

/-! ## All phases -/

/-- The phases that go through named schemas and shared parameters. -/
def compileDeclared (env : Environment) (scope : Scope) : CompileM Unit := do
  within "failed to compile definitions" (compileDefinitions env scope)
  within "failed to compile parameters" (compileParameters env scope)

/-- The phases before references are resolved. -/
def compileNamed (env : Environment) : CompileM Unit := do
  let scope := [(← get).package]
  if env.options.annotate then addImport "google/api/annotations.proto"
  compileDeclared env scope

/-- All phases but the last check. -/
def compilePhases (env : Environment) : CompileM Unit := do
  let scope := [(← get).package]
  compileNamed env
  within "failed to resolve references" resolveAll
  modify fun c => { c with deferring := false }
  env.spec.extensions.forM compileExtension
  if !env.options.skipRpcs then within "failed to compile paths" (compilePaths env scope)

theorem compileAll_eq (env : Environment) :
    compileAll env = compilePhases env >>= fun _ => checkResolved := by
  funext c
  unfold compileAll compilePhases compileNamed compileDeclared
  simp only [bind_assoc, get_bind]
  rcases env.options.annotate with _ | _ <;> rcases env.options.skipRpcs with _ | _ <;>
    simp only [Bool.false_eq_true, ↓reduceIte, Bool.not_false, Bool.not_true, bind_assoc] <;> rfl

/-- What imports and definitions keep is kept while named schemas and shared parameters are
compiled. -/
theorem compileNamed_induct {P : Compilation → Prop}
    (himport : ∀ {c} file, P c → P (c.importFile file))
    (hdefine : ∀ {c c'} ref (d : Definition), P c → Runs env [package] c [d.unwrap] c' →
      P (c'.defining ref d))
    (h : compileNamed env c = .ok ((), c')) (hp : c.package = package) (hc : P c) : P c' := by
  have hdeclared : ∀ {c}, P c → compileDeclared env [package] c = .ok ((), c') → P c' := by
    intro c hc h
    obtain ⟨_, c₁, hdefinitions, hparameters⟩ := bind_ok_iff.1 h
    have hc₁ : P c₁ := by
      refine forM_ok_induct (fun entry _ c c' hstep hc => ?_) (within_ok_iff.1 hdefinitions) hc
      obtain ⟨d, c₂, hd, rfl⟩ := compileDefinition_ok hstep
      exact hdefine _ d hc (compileSchema_runs env _ _ _ _ _ _ _ hd)
    refine forM_ok_induct (fun entry _ c c' hstep hc => ?_) (within_ok_iff.1 hparameters) hc₁
    obtain ⟨_, s, d, c₂, fieldName, -, hd, rfl⟩ := compileParameter_ok hstep
    have hrun := compileSchema_runs env s _ _ _ _ _ _ hd
    exact hdefine _ (.parameter d.unwrap _ _ _) hc hrun
  unfold compileNamed at h
  rw [get_bind, hp] at h
  dsimp only at h
  split at h
  · obtain ⟨_, c₁, hi, h⟩ := bind_ok_iff.1 h
    obtain rfl := (Prod.mk.inj (Except.ok.inj hi)).2
    exact hdeclared (himport _ hc) h
  · exact hdeclared hc h

theorem compileNamed_builds (h : compileNamed env c = .ok ((), c')) :
    Builds env c.package c c' :=
  compileNamed_induct (P := Builds env c.package c) .importFile
    (fun ref d hbuilds hrun => .define ref d hbuilds hrun) h rfl .refl

theorem checkResolved_ok (h : checkResolved c = .ok ((), c')) :
    c = c' ∧ dangling c'.graph c'.package = [] := by
  unfold checkResolved at h
  split at h
  · next hd =>
    obtain rfl := (Prod.mk.inj (Except.ok.inj h)).2
    exact ⟨rfl, hd⟩
  · cases h

/-- The states between the phases of a successful compilation. -/
theorem compilePhases_states (h : compilePhases env c = .ok ((), c')) :
    ∃ c₀ c₁ c₂, compileNamed env c = .ok ((), c₀) ∧ resolveAll c₀ = .ok ((), c₁) ∧
      env.spec.extensions.forM compileExtension { c₁ with deferring := false } = .ok ((), c₂) ∧
      if env.options.skipRpcs then c' = c₂ else compilePaths env [c.package] c₂ = .ok ((), c') := by
  unfold compilePhases at h
  rw [get_bind] at h
  obtain ⟨_, c₀, hnamed, h⟩ := bind_ok_iff.1 h
  obtain ⟨_, c₁, hresolve, h⟩ := bind_ok_iff.1 h
  rw [modify_bind] at h
  obtain ⟨_, c₂, hextensions, h⟩ := bind_ok_iff.1 h
  refine ⟨c₀, c₁, c₂, hnamed, within_ok_iff.1 hresolve, hextensions, ?_⟩
  rcases hskip : env.options.skipRpcs with _ | _ <;> rw [hskip] at h
  · exact within_ok_iff.1 h
  · exact (Prod.mk.inj (Except.ok.inj h)).2.symm

/-- The phases of a successful compilation build a package, resolve its references, and build on. -/
theorem compilePhases_ok (h : compilePhases env c = .ok ((), c')) :
    ∃ c₀ c₁, compileNamed env c = .ok ((), c₀) ∧ resolveAll c₀ = .ok ((), c₁) ∧
      Builds env c.package { c₁ with deferring := false } c' := by
  obtain ⟨c₀, c₁, c₂, hnamed, hresolve, hextensions, hpaths⟩ := compilePhases_states h
  have hbuilds : Builds env c.package { c₁ with deferring := false } c₂ :=
    Builds.of_forM (fun e c c' h => compileExtension_builds h) hextensions
  refine ⟨c₀, c₁, hnamed, hresolve, ?_⟩
  split at hpaths
  · exact hpaths ▸ hbuilds
  · exact hbuilds.trans (compilePaths_builds hpaths)

/-- A successful compilation goes through all phases and leaves no reference over. -/
theorem compileAll_ok_iff : compileAll env c = .ok ((), c') ↔
    compilePhases env c = .ok ((), c') ∧ dangling c'.graph c'.package = [] := by
  rw [compileAll_eq, bind_ok_iff]
  constructor
  · rintro ⟨_, c₁, hphases, hcheck⟩
    obtain ⟨rfl, hdangling⟩ := checkResolved_ok hcheck
    exact ⟨hphases, hdangling⟩
  · rintro ⟨hphases, hdangling⟩
    refine ⟨(), c', hphases, ?_⟩
    unfold checkResolved
    rw [hdangling]

end ApiProto.Compile
