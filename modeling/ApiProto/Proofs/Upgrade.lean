import ApiProto.Proofs.SchemaRetargeting

/-!
# Documents in the newer version

The newer version of the format has the same parts in other places: named schemas and shared
parameters lie under `components`, what the values of a parameter are is said by a schema of its own,
schemas of bodies belong to media types, and the base path is that of a server.

* `upgrade` — a document in the newer version; `upgradeParameter`, `upgradeBody`,
  `upgradeResponse`, `upgradeOperation` and `upgradePathItem` for its parts.
* `Older.IsDocument` — a document in the older version.
-/

namespace ApiProto.Document

open Text

/-! ## The newer version -/

/-- An object without the members of some keys. -/
def keepMembers (keep : String → Bool) : Value → Value
  | .object entries => .object (entries.filter fun entry => keep entry.1)
  | v => v

/-- An object with a further member. -/
def addMember (key : String) (member : Value) : Value → Value
  | .object entries => .object ((key, member) :: entries)
  | v => v

/-- A change of all items of a list. -/
def mapItems (f : Value → Value) : Value → Value
  | .list items => .list (items.map f)
  | v => v

/-- Whether a member of a parameter says what its values are. -/
def isValueMember (key : String) : Bool := ["type", "format", "enum", "items"].contains key

/-- A parameter that is not in the body. What its values are is said by its schema. -/
def upgradeParameter (data : Value) : Value :=
  if (data.member? "$ref").isSome then
    mapMembers (fun key v => if key = "$ref" then translateValue v else v) data
  else
    addMember "schema" (retarget (keepMembers isValueMember data))
      (keepMembers (fun key => !isValueMember key) data)

/-- The content of a body, with a schema. -/
def jsonContent (schema : Value) : Value :=
  .object [("application/json", .object [("schema", schema)])]

/-- The body of a request, from the parameter in the body. -/
def upgradeBody (data : Value) : Value :=
  addMember "content" (jsonContent (retarget ((data.member? "schema").getD .null)))
    (keepMembers (fun key => ["description", "required"].contains key) data)

/-- A response. -/
def upgradeResponse (data : Value) : Value :=
  match data.member? "schema" with
  | some schema =>
    addMember "content" (jsonContent (retarget schema)) (keepMembers (fun key => key != "schema") data)
  | none => data

/-- Whether a parameter is in the body. -/
def isInBody (data : Value) : Bool := data.member? "in" matches some (.text "body")

/-- The parameters of an operation that are not in the body. -/
def upgradeParameters : Value → Value
  | .list items => .list ((items.filter fun item => !isInBody item).map upgradeParameter)
  | v => v

/-- The parameter of an operation that is in the body. -/
def bodyOf? (op : Value) : Option Value :=
  match op.member? "parameters" with
  | some (.list items) => items.find? isInBody
  | _ => none

/-- A member of an operation. -/
def upgradeOperationMember (key : String) (v : Value) : Value :=
  if key = "parameters" then upgradeParameters v
  else if key = "responses" then mapMembers (fun _ => upgradeResponse) v
  else v

/-- An operation. -/
def upgradeOperation (op : Value) : Value :=
  let upgraded := mapMembers upgradeOperationMember op
  match bodyOf? op with
  | some body => addMember "requestBody" (upgradeBody body) upgraded
  | none => upgraded

/-- A member of a path. -/
def upgradePathMember (key : String) (v : Value) : Value :=
  if key = "parameters" then mapItems upgradeParameter v
  else if (Verb.all.map Verb.word).contains key then upgradeOperation v
  else v

/-- The operations of a path, and the parameters that they share. -/
def upgradePathItem (data : Value) : Value := mapMembers upgradePathMember data

/-- A member that may be missing. -/
def optionalMember (key : String) (member : Option Value) : List (String × Value) :=
  member.toList.map fun v => (key, v)

/-- What lies under `components` in the newer version. -/
def componentsOf (doc : Value) : Value :=
  .object (optionalMember "schemas" ((doc.member? "definitions").map (mapMembers fun _ => retarget)) ++
    optionalMember "parameters"
      ((doc.member? "parameters").map (mapMembers fun _ => upgradeParameter)))

/-- The servers of a document with a base path. -/
def serversOf (basePath : Value) : Value := .list [.object [("url", basePath)]]

/-- A document in the newer version. -/
def upgrade : Value → Value
  | .object entries =>
    let doc := Value.object entries
    .object (("openapi", .text "3.0.0") :: ("components", componentsOf doc) ::
      optionalMember "servers" ((doc.member? "basePath").map serversOf) ++
      (entries.filter fun entry =>
        !(["swagger", "definitions", "parameters", "basePath"].contains entry.1)).map fun entry =>
          (entry.1, if entry.1 = "paths" then mapMembers (fun _ => upgradePathItem) entry.2
            else entry.2))
  | v => v

/-! ## The older version -/

namespace Older

/-- A parameter that is given in place, and not in the body. It has items if its values are lists. -/
structure IsGiven (data : Value) : Prop where
  reference : data.member? "$ref" = none
  schema : data.member? "schema" = none
  nullable : data.member? "nullable" = none
  items : ∀ v, data.member? "items" = some v → ∃ entries, v = .object entries
  array : (data.member? "items").isSome = (readTypes data).contains "array"

/-- A parameter that is not in the body: a reference to a shared one, or given in place. -/
inductive IsParameter (data : Value) : Prop
  | reference {name : String} :
      data.member? "$ref" = some (.text (Version.swagger2.parametersPrefix ++ name)) →
      IsParameter data
  | given : IsGiven data → IsParameter data

/-- A parameter in the body. -/
structure IsBody (data : Value) : Prop where
  location : data.member? "in" = some (.text "body")
  name : data.member? "name" = some (.text "body")
  schema : ∃ entries, data.member? "schema" = some (.object entries)
  reference : data.member? "$ref" = none
  tag : data.member? "x-proto-tag" = none
  choices : data.member? "enum" = none
  items : data.member? "items" = none

/-- A response that is given in place. -/
structure IsResponse (data : Value) : Prop where
  object : ∃ entries, data = .object entries
  reference : data.member? "$ref" = none
  content : data.member? "content" = none

/-- An operation, of which the last parameter may be in the body. -/
structure IsOperation (op : Value) : Prop where
  parameters : ∀ v, op.member? "parameters" = some v → ∃ (outside : List Value) (body : Option Value),
    v = .list (outside ++ body.toList) ∧
      (∀ p ∈ outside, IsParameter p ∧ isInBody p = false) ∧ ∀ b ∈ body, IsBody b
  requestBody : op.member? "requestBody" = none
  responses : ∀ v, op.member? "responses" = some v → ∃ entries, v = .object entries ∧
    ∀ entry ∈ entries, IsResponse entry.2

/-- The operations of a path, and the parameters that they share. -/
structure IsPathItem (data : Value) : Prop where
  parameters : ∀ v, data.member? "parameters" = some v → ∃ items, v = .list items ∧
    ∀ p ∈ items, IsParameter p
  operations : ∀ (verb : Verb) op, data.member? verb.word = some op → IsOperation op

/-- A base path without characters that have a meaning in URLs: it is empty, or starts with one
slash. -/
inductive IsBasePath : Value → Prop
  | empty : IsBasePath (.text "")
  | path {rest : String} : rest.toList.head? ≠ some '/' →
      (∀ c ∈ rest.toList, c.isAlphanum = true ∨ c = '-' ∨ c = '_' ∨ c = '/') →
      IsBasePath (.text ("/" ++ rest))

/-- A document in the older version. -/
structure IsDocument (doc : Value) : Prop where
  version : ∀ key ∈ ["openapi", "components", "servers"], doc.member? key = none
  basePath : ∀ v, doc.member? "basePath" = some v → IsBasePath v
  parameters : ∀ entries, doc.member? "parameters" = some (.object entries) →
    ∀ entry ∈ entries, IsParameter entry.2
  paths : ∀ entries, doc.member? "paths" = some (.object entries) →
    ∀ entry ∈ entries, IsPathItem entry.2

end Older

end ApiProto.Document
