import ApiProto.Value.Basic

/-!
# Schemas and parameters

A schema says which values are valid at a place of an API. A decoded document may hold any value
where a text belongs; whether it is one is found out where the text is used.

* `Schema` — a schema with the schemas inside it.
* `Parameter` — a parameter of an operation.
* `Schema.denull` — drops `null` where it makes no difference.
-/

namespace ApiProto.Document

/-- A schema. -/
structure Schema where
  ref : Value
  /-- The types that a value may have. -/
  types : List String
  format : String
  /-- The values that are listed, if any are. -/
  choices : List String
  description : Value
  properties : List (String × Schema)
  items : Option Schema
  /-- The schema of values under keys that are no properties. -/
  additional : Option Schema
  /-- The explicit field number, zero if there is none. -/
  tag : Int
  /-- The explicit field name. -/
  protoName : Value
deriving Inhabited, Repr

/-- A parameter of an operation, or one that operations share. -/
structure Parameter where
  name : Value
  location : Value
  description : Value
  required : Bool
  ref : Value
  types : List String
  format : String
  choices : List String
  items : Option Schema
  schema : Option Schema
  tag : Int
deriving Inhabited, Repr

namespace Schema

/-- The schema without conditions and texts. -/
def blank : Schema where
  ref := .text ""
  types := []
  format := ""
  choices := []
  description := .text ""
  properties := []
  items := none
  additional := none
  tag := 0
  protoName := .text ""

/-- The first of the types, an empty text if there is none (`first_type`). -/
def firstType (s : Schema) : String := s.types.headD ""

/-- Drops `null` from the types of objects and arrays (`_strip_nullable_container`): messages and
repeated fields have an empty state already. -/
def denull (s : Schema) : Schema :=
  if s.types.length < 2 ∨ !s.types.contains "null" then s
  else
    match s.types.filter (· ≠ "null") with
    | ["object"] => { s with types := ["object"] }
    | ["array"] => { s with types := ["array"] }
    | _ => s

end Schema

/-- Whether a parameter carries a list of values (`is_array`). -/
def Parameter.isArray (p : Parameter) : Bool :=
  p.items.isSome || p.schema.any fun s => s.types.contains "array"

end ApiProto.Document
