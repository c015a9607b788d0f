/-!
# Tokens

* `Token` — the pieces of a text: marks of its structure, and scalars.
* `Fault` — what is wrong with a text.
-/

namespace ApiProto.Yaml

/-- What is wrong with a text. -/
inductive Fault where
  /-- It is no document. -/
  | malformed
  /-- A part of it has the form of a value and does not denote one. -/
  | meaningless (reason : String)
  /-- A part of it is marked as a value of a kind that lacks a member. -/
  | unexpectedKind (kind member : String)
  /-- A part of it is marked as a value that it cannot be. -/
  | unusableValue (reason : String)
deriving DecidableEq, Inhabited, Repr

/-- A directive. -/
inductive Directive where
  | version (major : Nat)
  /-- What a handle at the start of a tag stands for. -/
  | tag (handle meaning : String)
  | other
deriving DecidableEq, Inhabited, Repr

/-- A token. -/
inductive Token where
  | directive (directive : Directive)
  | documentStart
  | documentEnd
  | blockSequenceStart
  | blockMappingStart
  | blockEnd
  | flowSequenceStart
  | flowSequenceEnd
  | flowMappingStart
  | flowMappingEnd
  | blockEntry
  | flowEntry
  | key
  | value
  | alias (name : String)
  | anchor (name : String)
  | tag (handle : Option String) (suffix : String)
  /-- A scalar; `plain` means without quotes and indicators. -/
  | scalar (plain : Bool) (text : String)
deriving DecidableEq, Inhabited, Repr

end ApiProto.Yaml
