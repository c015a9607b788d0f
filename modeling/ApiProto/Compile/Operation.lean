import ApiProto.Compile.Schema
import ApiProto.Name.Endpoint

/-!
# Compiling operations

Each operation becomes a procedure. Its parameters and those of its path are the fields of one
request message, and its first successful response with a schema gives the response message.

* `parameterSchema` — a parameter as a property of the request.
* `compileRequest`, `compileResponse` — the messages of a procedure.
* `httpOption` — the HTTP method and path of a procedure.
* `compileOperation`, `compilePath` — the procedures of a path.
-/

namespace ApiProto.Compile

open Proto Document CompileM

/-- A parameter as a property (`compile_parameter_to_schema`): its key and its schema. A reference
must have a definition. -/
def parameterSchema (p : Parameter) : CompileM (String × Schema) := do
  if !p.ref.isEmpty then
    let ref ← ofResult p.ref.keyText
    if ((← get).definition? ref).isNone then failWith (.unresolved ref)
    let given ← if p.name.isEmpty then pure (String.ofList (Text.afterLast '/' ref.toList))
      else ofResult p.name.wordText
    let name := Name.snake given
    return (name, { Schema.blank with ref := .text ref, protoName := .text name })
  else
    let name := Name.snake (← ofResult p.name.wordText)
    match p.schema with
    | some s =>
      return (name, { s with
        protoName := .text name
        description := p.description
        tag := if p.tag = 0 then s.tag else p.tag })
    | none =>
      return (name, { Schema.blank with
        types := p.types
        choices := p.choices
        format := p.format
        items := p.items
        protoName := .text name
        tag := p.tag
        description := p.description })

/-- The parameters of an operation as the properties of an object
(`compile_parameters_to_schema`). -/
def requestSchema (parameters : List Parameter) : CompileM Schema := do
  let properties ← parameters.mapM fun p =>
    within ("failed to compile parameter " ++ (if p.name.isEmpty then p.ref else p.name).display)
      (parameterSchema p)
  return { Schema.blank with properties := collectEntries properties }

/-- Declares the message of a procedure in the package; anything but a message is an error. -/
def declareMessage (role : MessageRole) (scope : Scope) (typeName endpoint : String)
    (t : TypeRef) : CompileM TypeRef := do
  let g := (← get).graph
  if !g.isMessage t then failWith (.notMessage role typeName (g.kindName t) endpoint)
  declareDefinition scope (.type t)
  return t

/-- The request message of a procedure. It is empty if there are no parameters. -/
def compileRequest (env : Environment) (scope : Scope) (name : String)
    (parameters : List Parameter) : CompileM TypeRef := do
  if parameters.isEmpty then return .builtin .empty
  let typeName := name ++ "Request"
  let schema ← requestSchema parameters
  let d ← within ("failed to compile parameters for " ++ name)
    (compileSchema env schema scope typeName (.text ""))
  declareMessage .request scope typeName name d.unwrap

/-- The schema of the items of an array schema, or of a named array schema that is referred to
(`_array_items`). -/
def arrayItems (spec : Spec) (s : Schema) : Except Error (Option Schema) :=
  match s.items with
  | some items =>
    if s.types.isEmpty || s.types.contains "array" then .ok (some items) else named
  | none => named
where
  named := (s.ref.textWith "startswith").map fun ref => do
    let name ← Text.stringAfter? spec.definitionsPrefix ref
    let target ← spec.definitions.lookup name
    if target.types.contains "array" then target.items else none

/-- The status codes of the responses that are compiled, the preferred one first. -/
def responseCodes : List String := ["200", "201"]

/-- The schema of the response of an operation. -/
def responseSchema? (e : Endpoint) : Option Schema :=
  responseCodes.findSome? fun code => (e.responses.lookup code).bind (·.schema)

/-- The message for a response that is an array. -/
def compileArrayResponse (env : Environment) (scope : Scope) (name typeName : String)
    (items : Schema) : CompileM TypeRef := do
  let item ← within ("failed to compile array response for " ++ name)
    (compileSchema env items scope (typeName ++ "Item") (.text ""))
  let field := ⟨item.unwrap, "items", 1, true, .text ""⟩
  let message ← newNode (.message ⟨typeName, [field], [], .text ""⟩)
  addImportFor (← nameOf item.unwrap)
  return .node message

/-- The response message of a procedure (`compile_response`). It is empty if no successful response
has a schema. -/
def compileResponse (env : Environment) (scope : Scope) (name : String) (e : Endpoint) :
    CompileM TypeRef := do
  match responseSchema? e with
  | none => return .builtin .empty
  | some s =>
    let typeName := name ++ "Response"
    let t ← match ← ofResult (arrayItems env.spec s) with
      | some items => compileArrayResponse env scope name typeName items
      | none => do
        let d ← within ("failed to compile response for " ++ name)
          (compileSchema env s scope typeName s.description)
        pure d.unwrap
    declareMessage .response scope typeName name t

/-- The shared parameter that a parameter refers to (`_global_parameter`). -/
def sharedParameter? (spec : Spec) (p : Parameter) : Option Parameter := do
  let name ← Text.stringAfter? spec.parametersPrefix (← p.ref.text?)
  spec.parameters.lookup name

/-- The field of the request that holds the body: the name of the first parameter in the body. -/
def bodyField (spec : Spec) (parameters : List Parameter) : String :=
  (parameters.findSome? fun p =>
    let effective := (sharedParameter? spec p).getD p
    match effective.location with
    | .text "body" => some (if effective.name.isEmpty then p.name else effective.name).display
    | _ => none).getD ""

/-- A path below the base path. -/
def fullPath (basePath path : String) : String :=
  if basePath.isEmpty then path
  else String.ofList (Text.dropEndWhile (· == '/') basePath.toList ++
    '/' :: path.toList.dropWhile (· == '/'))

/-- The HTTP option of a procedure (`http_annotation`). -/
def httpOption (spec : Spec) (verb : Verb) (path : String) (parameters : List Parameter) :
    Except Error RpcOption := do
  let basePath ← if spec.basePath.isEmpty then pure "" else spec.basePath.textWith "rstrip"
  return .http verb.word (fullPath basePath path) (bodyField spec parameters)

/-- Appends a procedure to the service, with the imports that it needs, unless there is one of its
name already (`add_rpc`). -/
def addRpc (rpc : Rpc TypeRef) : CompileM Unit := do
  let c ← get
  match c.graph.service? c.service with
  | none => return
  | some s =>
    if s.rpcs.any fun other => other.name == rpc.name then return
    addImportFor (← nameOf rpc.parameter)
    addImportFor (← nameOf rpc.response)
    modify fun c => { c with
      graph := c.graph.put c.service (.service { s with rpcs := s.rpcs ++ [rpc] }) }

/-- Compiles an operation. -/
def compileOperation (env : Environment) (scope : Scope) (path : String)
    (shared : List Parameter) (e : Endpoint) : CompileM Unit := do
  let identifier ← ofResult e.operationId.wordText
  let name := Name.endpointName e.verb.word path identifier
  let comment := Name.joinComment (← ofResult (e.summary.textWith "strip"))
    (← ofResult (e.description.textWith "strip"))
  let parameters := shared ++ e.parameters
  let request ← compileRequest env scope name parameters
  let response ← compileResponse env scope name e
  let http ← if env.options.annotate then
      (ofResult (httpOption env.spec e.verb path parameters)).map fun option => [option]
    else pure []
  addRpc {
    name := name
    parameter := request
    response := response
    comment := comment
    options := http ++ e.customOptions.map fun (name, value) => .custom name value
    deprecated := e.deprecated }

/-- Compiles the operations of a path (`compile_path`). -/
def compilePath (env : Environment) (scope : Scope) (path : String) (item : PathItem) :
    CompileM Unit :=
  item.endpoints.forM (compileOperation env scope path item.parameters)

end ApiProto.Compile
