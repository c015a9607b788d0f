import ApiProto.Error

/-!
# Values where something else is expected

A decoded document may hold any value at any place. These functions take from a value what its
place asks for, and fail with the cause that fits the kind of the value.

* `Value.textWith`, `Value.wordText`, `Value.keyText` — the text of a value.
* `entriesWith`, `listOf` — the entries and the items of a value that may be missing.
-/

namespace ApiProto

/-- The name of a value's kind, as messages about kinds give it. -/
def Value.fullKindName : Value → String
  | .date _ => "datetime.date"
  | .timestamp _ => "datetime.datetime"
  | v => v.kindName

namespace Cause

/-- The cause for a value without a member of which the place has need. -/
def noMember (v : Value) (member : String) : Cause := .unexpectedKind v.fullKindName member

/-- The cause for a value without items where items are listed. -/
def notListable (v : Value) : Cause :=
  .unusableValue ("'" ++ v.fullKindName ++ "' object is not iterable")

/-- The cause for a value without positions where the first item is wanted. -/
def notIndexable (v : Value) : Cause :=
  .unusableValue ("'" ++ v.fullKindName ++ "' object is not subscriptable")

/-- The cause for a value that cannot be the key of a table. -/
def notKey (v : Value) : Cause := .unusableValue ("unhashable type: '" ++ v.fullKindName ++ "'")

/-- The cause for binary data in place of text. -/
def notText : Cause := .unusableValue "a bytes-like object is required, not 'str'"

end Cause

namespace Value

/-- A text of which the member `member` is needed. Binary data has the members of text and no use
for them. -/
def textWith (member : String) : Value → Except Error String
  | .text s => .ok s
  | .bytes _ => fail .notText
  | v => fail (.noMember v member)

/-- A text that is taken apart into characters. -/
def wordText : Value → Except Error String
  | .text s => .ok s
  | v => fail (.notListable v)

/-- The text of a value that is looked up in a table. What is no text is no key of the table, and
its displayed form serves for messages. -/
def keyText : Value → Except Error String
  | .list items => fail (.notKey (.list items))
  | .object entries => fail (.notKey (.object entries))
  | v => .ok v.display

end Value

/-- The entries of a value that is to be an object, for which the member `member` is needed; there
are none if it counts as absent. -/
def entriesWith (member : String) (value : Option Value) : Except Error (List (String × Value)) :=
  match value with
  | none => .ok []
  | some v =>
    if v.isEmpty then .ok []
    else match v.entries? with
      | some entries => .ok entries
      | none => fail (.noMember v member)

/-- The items of a value that is to be listed; there are none if it counts as absent. -/
def listOf (value : Option Value) : Except Error (List Value) :=
  match value with
  | none => .ok []
  | some v =>
    if v.isEmpty then .ok []
    else match v.items? with
      | some items => .ok items
      | none => fail (.notListable v)

end ApiProto
