import ApiProto.Document.Schema

/-!
# API descriptions

* `Endpoint` — an operation: a verb on a path, its parameters and its responses.
* `Spec` — the description of an API, which does not depend on the version of the format in which
  it was written.
-/

namespace ApiProto.Document

/-- The verbs of operations. -/
inductive Verb where
  | get
  | put
  | post
  | patch
  | delete
deriving DecidableEq, Inhabited, Repr

namespace Verb

/-- All verbs, in the order in which the operations of a path are listed. -/
def all : List Verb := [.get, .put, .post, .patch, .delete]

/-- The key of a verb. -/
def word : Verb → String
  | .get => "get"
  | .put => "put"
  | .post => "post"
  | .patch => "patch"
  | .delete => "delete"

end Verb

/-- A response. -/
structure Response where
  description : Value
  schema : Option Schema
deriving Inhabited, Repr

/-- An operation. -/
structure Endpoint where
  path : String
  verb : Verb
  summary : Value
  description : Value
  operationId : Value
  parameters : List Parameter
  /-- The responses by status code. -/
  responses : List (String × Response)
  customOptions : List (String × Value)
  deprecated : Bool
deriving Inhabited, Repr

/-- The operations of a path, and the parameters that they share (`Path`). -/
structure PathItem where
  parameters : List Parameter
  endpoints : List Endpoint
  /-- No verb occurs twice, and the operations are in the order of their verbs. -/
  inVerbOrder : (endpoints.map (·.verb)).Sublist Verb.all
deriving Repr

instance : Inhabited PathItem := ⟨⟨[], [], List.nil_sublist _⟩⟩

/-- A field that extends a type from elsewhere. -/
structure ExtensionField where
  name : Value
  type : Value
  number : Int
deriving Inhabited, Repr

/-- Fields for the type `base`. -/
structure Extension where
  base : Value
  fields : List ExtensionField
deriving Inhabited, Repr

/-- The description of an API (`OpenApiSpec`). -/
structure Spec where
  title : String
  /-- What stands before every path. -/
  basePath : Value
  definitions : List (String × Schema)
  parameters : List (String × Parameter)
  paths : List (String × PathItem)
  globalOptions : List (String × String)
  extensions : List Extension
  /-- What references to definitions start with. -/
  definitionsPrefix : String
  /-- What references to shared parameters start with. -/
  parametersPrefix : String
deriving Inhabited, Repr

end ApiProto.Document
