import ApiProto.Document.Spec

/-!
# Descriptions by hand

Schemas and parameters with one condition each, and descriptions with few parts.

* `Schema.scalar`, `Schema.object`, `Schema.array`, `Schema.map`, `Schema.reference` — schemas.
* `Parameter.scalar`, `Parameter.body`, `Parameter.reference`, `Endpoint.taking` — parameters, and
  operations that take them.
* `PathItem.single` — a path with one operation.
* `Spec.ofDefinitions` — a description with nothing but named schemas.
-/

namespace ApiProto.Document

namespace Schema

/-- A primitive type. -/
def scalar (type : String) : Schema := { blank with types := [type] }

/-- One of several texts. -/
def enumeration (choices : List String) : Schema :=
  { blank with types := ["string"], choices := choices }

/-- An object with given properties. -/
def object (properties : List (String × Schema)) : Schema :=
  { blank with types := ["object"], properties := properties }

/-- A list of items. -/
def array (items : Schema) : Schema := { blank with types := ["array"], items := some items }

/-- An object with values under arbitrary keys. -/
def map (values : Schema) : Schema := { blank with types := ["object"], additional := some values }

/-- The schema that a reference names. -/
def reference (ref : String) : Schema := { blank with ref := .text ref }

end Schema

namespace Parameter

/-- The parameter without conditions and texts. -/
def blank : Parameter where
  name := .text ""
  location := .text ""
  description := .text ""
  required := false
  ref := .text ""
  types := []
  format := ""
  choices := []
  items := none
  schema := none
  tag := 0

/-- A parameter of a primitive type. -/
def scalar (name location type : String) : Parameter :=
  { blank with name := .text name, location := .text location, types := [type] }

/-- A parameter in the body. -/
def body (name : String) (s : Schema) : Parameter :=
  { blank with name := .text name, location := .text "body", schema := some s }

/-- The shared parameter that a reference names. -/
def reference (ref : String) : Parameter := { blank with ref := .text ref }

end Parameter

/-- An operation with nothing but parameters. -/
def Endpoint.taking (verb : Verb) (identifier : String) (parameters : List Parameter) :
    Endpoint where
  path := ""
  verb := verb
  summary := .text ""
  description := .text ""
  operationId := .text identifier
  parameters := parameters
  responses := []
  customOptions := []
  deprecated := false

theorem Verb.mem_all (verb : Verb) : verb ∈ all := by
  cases verb <;> decide

/-- A path with one operation. -/
def PathItem.single (parameters : List Parameter) (e : Endpoint) : PathItem :=
  ⟨parameters, [e], List.singleton_sublist.2 (Verb.mem_all e.verb)⟩

/-- A description of named schemas. -/
def Spec.ofDefinitions (definitions : List (String × Schema)) : Spec where
  title := ""
  basePath := .text ""
  definitions := definitions
  parameters := []
  paths := []
  globalOptions := []
  extensions := []
  definitionsPrefix := "#/definitions/"
  parametersPrefix := "#/parameters/"

end ApiProto.Document
