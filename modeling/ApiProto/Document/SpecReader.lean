import ApiProto.Document.LocalReference
import ApiProto.Document.SchemaReader
import ApiProto.Document.Spec
import ApiProto.Uri.Url

/-!
# Reading API descriptions

Two versions of the format are read. In the newer one, definitions and shared parameters lie under
`components`, a request body stands for a parameter in the body, schemas belong to media types, and
the base path is that of the first server.

* `readParameter`, `readResponse`, `readEndpoint`, `readPathItem` — the parts of a description.
* `Spec.read` — a description.
-/

namespace ApiProto.Document

open Text

/-- The version of the format that a document is written in. -/
inductive Version where
  | swagger2
  | openapi3
deriving DecidableEq, Inhabited, Repr

namespace Version

/-- What references to definitions start with. -/
def definitionsPrefix : Version → String
  | .swagger2 => "#/definitions/"
  | .openapi3 => "#/components/schemas/"

/-- What references to shared parameters start with. -/
def parametersPrefix : Version → String
  | .swagger2 => "#/parameters/"
  | .openapi3 => "#/components/parameters/"

end Version

/-- The schema of the media types of a body (`_media_schema`): that of JSON if it is there, else
that of the first. -/
def mediaSchema (content : Option Value) : Except Error (Option Value) := do
  let entries ← entriesWith "get" content
  let media : Value := match entries.lookup "application/json" with
    | none | some .null => ((entries.map (·.2)).head?).getD .null
    | some media => media
  match media.member? "schema" with
  | none | some .null => return none
  | some schema => return some schema

/-- A parameter, which may be a reference (`_parameter`). References to shared parameters are
kept. -/
def readParameter [Libraries] (doc data : Value) : Except Error Parameter := do
  match data.member? "$ref" with
  | none => Parameter.read data
  | some ref =>
    let ref ← ref.textWith "startswith"
    if beginsWith Version.swagger2.parametersPrefix ref ||
        beginsWith Version.openapi3.parametersPrefix ref then Parameter.read data
    else Parameter.read (← dereference doc data)

/-- The parameters of an operation or a path. -/
def readParameters [Libraries] (doc data : Value) : Except Error (List Parameter) := do
  (← listOf (data.member? "parameters")).mapM (readParameter doc)

/-- The parameter that stands for the body of a request; there is none if the body has no schema. -/
def readBody [Libraries] (doc data : Value) : Except Error (List Parameter) := do
  let body ← dereference doc data
  if body.entries?.isNone then fail (.noMember body "get")
  match ← mediaSchema (body.member? "content") with
  | none => return []
  | some schema =>
    let schema ← Schema.read schema
    return [{
      name := .text "body"
      location := .text "body"
      description := textMember "description" body
      required := ((body.member? "required").map fun v => !v.isEmpty).getD false
      ref := .text ""
      types := []
      format := ""
      choices := []
      items := none
      schema := some schema
      tag := 0 }]

/-- A response. -/
def readResponse [Libraries] (version : Version) (doc data : Value) : Except Error Response := do
  let node ← dereference doc data
  let response := Value.object (← entriesWith "get" (some node))
  let schema ← match version with
    | .openapi3 => mediaSchema (response.member? "content")
    | .swagger2 => pure ((response.member? "schema").filter fun v => !(v matches .null))
  let schema ← match schema with
    | none => pure none
    | some schema => (Schema.read schema).map some
  return ⟨textMember "description" response, schema⟩

/-- An entry from a pair that is written as a list of two items. -/
def readPair (position : Nat) (pair : Value) : Except Error (String × Value) :=
  match pair.items? with
  | none =>
    fail (.unusableValue ("cannot convert dictionary update sequence element #" ++
      toString position ++ " to a sequence"))
  | some [key, value] => key.keyText.map fun key => (key, value)
  | some items =>
    fail (.meaningless ("dictionary update sequence element #" ++ toString position ++
      " has length " ++ toString items.length ++ "; 2 is required"))

/-- The custom options of an operation: an object, or a list of pairs. -/
def readCustomOptions (value : Option Value) : Except Error (List (String × Value)) :=
  match value with
  | none => .ok []
  | some (.object entries) => .ok entries
  | some v =>
    if v.isEmpty then .ok []
    else match v.items? with
      | none => fail (.notListable v)
      | some items =>
        (items.zipIdx.mapM fun (pair, position) => readPair position pair).map collectEntries

/-- An operation, which has the verb under which it is written. -/
def readEndpoint [Libraries] (version : Version) (doc : Value) (path : String) (verb : Verb)
    (op : Value) : Except Error {e : Endpoint // e.verb = verb} := do
  if op.entries?.isNone then fail (.noMember op "get")
  let parameters ← readParameters doc op
  let customOptions ← readCustomOptions (op.member? "x-options")
  let body ← match version, op.member? "requestBody" with
    | .swagger2, _ | _, none | _, some .null => pure []
    | .openapi3, some body => readBody doc body
  let responses ← (← entriesWith "items" (op.member? "responses")).mapM fun (code, response) =>
    (readResponse version doc response).map fun r => (code, r)
  let endpoint : Endpoint := {
    path := path
    verb := verb
    summary := textMember "summary" op
    description := textMember "description" op
    operationId := textMember "operationId" op
    parameters := parameters ++ body
    responses := responses
    customOptions := customOptions
    deprecated := (op.member? "deprecated") matches some (.bool true) }
  return ⟨endpoint, rfl⟩

/-- The operation under a verb, if there is one. -/
def readOperation? [Libraries] (version : Version) (doc : Value) (path : String) (verb : Verb) :
    Option Value → Except Error (Option {e : Endpoint // e.verb = verb})
  | none | some .null => .ok none
  | some op => (readEndpoint version doc path verb op).map some

/-- The operations of a path under some verbs, in the order of the verbs. -/
def readEndpoints [Libraries] (version : Version) (doc : Value) (path : String) (item : Value) :
    (verbs : List Verb) → Except Error {es : List Endpoint // (es.map (·.verb)).Sublist verbs}
  | [] => return ⟨[], .slnil⟩
  | verb :: rest => do
    let found ← readOperation? version doc path verb (item.member? verb.word)
    let es ← readEndpoints version doc path item rest
    return match found with
      | none => ⟨es.1, es.2.cons verb⟩
      | some e => ⟨e.1 :: es.1, by
        rw [List.map_cons, e.2]
        exact es.2.cons_cons verb⟩

/-- The operations of a path (`_path`). -/
def readPathItem [Libraries] (version : Version) (doc : Value) (path : String) (data : Value) :
    Except Error PathItem := do
  let item := Value.object (← entriesWith "get" (some data))
  let parameters ← readParameters doc item
  let endpoints ← readEndpoints version doc path item Verb.all
  return ⟨parameters, endpoints.1, endpoints.2⟩

/-- A value of a member, an empty text if the member is missing. -/
def givenMember (key : String) (data : Value) : Value := (data.member? key).getD (.text "")

/-- A field of an extension. -/
def readExtensionField (data : Value) : Except Error ExtensionField := do
  if data.entries?.isNone then fail (.noMember data "get")
  let number ← readTag (data.member? "number")
  return ⟨givenMember "name" data, givenMember "type" data, number⟩

/-- An extension. -/
def readExtension (data : Value) : Except Error Extension := do
  if data.entries?.isNone then fail (.noMember data "get")
  let fields ← (← listOf (data.member? "fields")).mapM readExtensionField
  return ⟨givenMember "base" data, fields⟩

/-- The path of the first server, without slashes at its end. -/
def readServerPath (servers : Option Value) : Except Error String :=
  match servers with
  | none => .ok ""
  | some v =>
    if v.isEmpty then .ok ""
    else match v with
      | .list (.object e :: _) =>
        do
          let url ← Uri.Url.parse (← (textMember "url" (.object e)).textWith "decode").toList
          return String.ofList (url.path.reverse.dropWhile (· == '/')).reverse
      | .list _ | .text _ | .bytes _ => .ok ""
      | .object _ => fail (.unusableValue "0")
      | v => fail (.notIndexable v)

/-- The description of an API (`OpenApiSpec.from_dict`). -/
def Spec.read [Libraries] (doc : Value) : Except Error Spec := do
  if doc.entries?.isNone then fail .documentNotObject
  let version : Version := if (doc.member? "openapi").isSome then .openapi3 else .swagger2
  let info ← entriesWith "get" (doc.member? "info")
  let (holder, definitionsKey) ← match version with
    | .openapi3 => do
      pure (Value.object (← entriesWith "get" (doc.member? "components")), "schemas")
    | .swagger2 => pure (doc, "definitions")
  let basePath ← match version with
    | .openapi3 => (readServerPath (doc.member? "servers")).map Value.text
    | .swagger2 => match textMember "basePath" doc with
      | .text "/" => pure (.text "")
      | v => pure v
  let (definitions, parameters) ← framed "failed to read definitions" do
    let definitions ← (← entriesWith "items" (holder.member? definitionsKey)).mapM fun (name, s) =>
      (Schema.read s).map fun s => (name, s)
    let parameters ← (← entriesWith "items" (holder.member? "parameters")).mapM fun (name, p) =>
      (readParameter doc p).map fun p => (name, p)
    return (definitions, parameters)
  let globalOptions ← entriesWith "items" (doc.member? "x-global-options")
  let extensions ← (← listOf (doc.member? "x-extensions")).mapM readExtension
  let paths ← (← entriesWith "items" (doc.member? "paths")).mapM fun (path, item) =>
    (framed ("failed to read path " ++ path) (readPathItem version doc path item)).map
      fun item => (path, item)
  return {
    title := plainMember "title" (.object info)
    basePath := basePath
    definitions := definitions
    parameters := parameters
    paths := paths
    globalOptions := globalOptions.map fun (name, value) => (name, value.plain)
    extensions := extensions
    definitionsPrefix := version.definitionsPrefix
    parametersPrefix := version.parametersPrefix }

end ApiProto.Document
