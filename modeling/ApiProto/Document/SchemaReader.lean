import ApiProto.Document.Schema
import ApiProto.Number.IntegerText
import ApiProto.Value.Access

/-!
# Reading schemas

* `readTag` — an explicit field number.
* `Schema.read`, `Parameter.read` — a schema and a parameter from a decoded value.

Members are read in a fixed order, so that of two faults the same one is always reported.
-/

namespace ApiProto.Document

open Text

/-- An explicit field number (`_parse_proto_tag`): an integer, or text that denotes one; zero if
there is none. -/
def readTag (value : Option Value) : Except Error Int :=
  match value with
  | none | some .null => .ok 0
  | some (.int n) => .ok n
  | some (.bool b) => fail (.invalidTag (Value.bool b).literal)
  | some v =>
    let s := v.display
    if s.isEmpty then .ok 0
    else match integerOf? s.toList with
      | some n => .ok n
      | none => fail (.invalidTag v.literal)

/-- The value of a member that holds text; values that count as absent are no text. -/
def textMember (key : String) (data : Value) : Value :=
  match data.member? key with
  | some v => if v.isEmpty then .text "" else v
  | none => .text ""

/-- The text of a member, an empty one if it is absent or null. -/
def plainMember (key : String) (data : Value) : String :=
  match data.member? key with
  | none | some .null => ""
  | some v => v.plain

/-- The types of a schema (`_schema_types`). A schema that can be null has the type `null` besides
its others. -/
def readTypes (data : Value) : List String :=
  let types := match data.member? "type" with
    | none | some .null | some (.text "") => []
    | some (.list items) => items.map Value.plain
    | some v => [v.plain]
  match data.member? "nullable" with
  | some (.bool true) =>
    if types.isEmpty || types.contains "null" then types else types ++ ["null"]
  | _ => types

/-- The values listed by a schema. -/
def readChoices (data : Value) : Except Error (List String) :=
  (listOf (data.member? "enum")).map fun items => items.map Value.plain

theorem sizeOf_lt_of_lookup {key : String} {v : Value} {entries : List (String × Value)}
    (h : entries.lookup key = some v) : sizeOf v < sizeOf entries := by
  obtain ⟨before, after, rfl, -⟩ := List.lookup_eq_some_iff.1 h
  have := List.sizeOf_lt_of_mem (show (key, v) ∈ before ++ (key, v) :: after by simp)
  simp only [Prod.mk.sizeOf_spec] at this
  omega

/-- A schema from a decoded value (`Schema.from_dict`). True and false stand for a schema without
conditions. -/
def Schema.read : Value → Except Error Schema
  | .bool _ => .ok Schema.blank
  | .object entries =>
    let data := Value.object entries
    let properties : Except Error (List (String × Schema)) :=
      match _h : entries.lookup "properties" with
      | none => .ok []
      | some (.object props) =>
        props.attach.mapM fun ⟨(name, prop), _hm⟩ => (Schema.read prop).map fun s => (name, s)
      | some v => if v.isEmpty then .ok [] else fail (.noMember v "items")
    let items : Except Error (Option Schema) :=
      match _h : entries.lookup "items" with
      | some (.object e) => (Schema.read (.object e)).map some
      | some (.bool b) => (Schema.read (.bool b)).map some
      | _ => .ok none
    let additional : Except Error (Option Schema) :=
      match _h : entries.lookup "additionalProperties" with
      | none | some .null | some (.bool false) => .ok none
      | some v => (Schema.read v).map some
    do
      let choices ← readChoices data
      let properties ← properties
      let items ← items
      let additional ← additional
      let tag ← readTag (data.member? "x-proto-tag")
      return {
        ref := textMember "$ref" data
        types := readTypes data
        format := plainMember "format" data
        choices := choices
        description := textMember "description" data
        properties := properties
        items := items
        additional := additional
        tag := tag
        protoName := textMember "x-proto-name" data }
  | v => fail (.schemaNotObject v.kindName)
termination_by v => sizeOf v
decreasing_by
  · have h₁ := List.sizeOf_lt_of_mem _hm
    have h₂ := sizeOf_lt_of_lookup _h
    simp at h₁ h₂ ⊢
    omega
  all_goals
    have := sizeOf_lt_of_lookup _h
    simp at this ⊢
    omega

/-- A parameter from a decoded value (`Parameter.from_dict`). -/
def Parameter.read (data : Value) : Except Error Parameter := do
  if data.entries?.isNone then fail (.noMember data "get")
  let choices ← readChoices data
  let items ← match data.member? "items" with
    | some (.object e) => (Schema.read (.object e)).map some
    | _ => pure none
  let schema ← match data.member? "schema" with
    | some (.object e) => (Schema.read (.object e)).map some
    | some (.bool b) => (Schema.read (.bool b)).map some
    | _ => pure none
  let tag ← readTag (data.member? "x-proto-tag")
  return {
    name := textMember "name" data
    location := textMember "in" data
    description := textMember "description" data
    required := ((data.member? "required").map fun v => !v.isEmpty).getD false
    ref := textMember "$ref" data
    types := readTypes data
    format := plainMember "format" data
    choices := choices
    items := items
    schema := schema
    tag := tag }

end ApiProto.Document
