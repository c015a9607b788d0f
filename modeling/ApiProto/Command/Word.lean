import ApiProto.Text.Character
import ApiProto.Text.Cut

/-!
# Words of a command line

A word is an option if it starts with a hyphen and is, or abbreviates, the name of an option. After
two hyphens that stand alone all words are plain.

* `Word` — a plain word, an option with the value that is attached to it, or something else.
* `Word.ofArguments?` — the words of arguments.
-/

namespace ApiProto.Command

open Text

/-- The value that is attached to an option. -/
inductive Attached where
  | nothing
  /-- What follows the equals sign after a long option. -/
  | value (text : String)
  /-- What follows an option of one letter, without the equals sign that may come first. -/
  | letters (text : String)
deriving DecidableEq, Inhabited, Repr

/-- A word of a command line, with options of type `α`. -/
inductive Word (α : Type) where
  | plain (text : String)
  | option (name : α) (attached : Attached)
  /-- A word that starts like an option and is none. -/
  | unknown
  /-- Two hyphens, after which there are no options. -/
  | separator
deriving DecidableEq, Inhabited, Repr

namespace Word

variable {α : Type}

/-- Whether a text has the form of a negative number. A line end may follow. -/
def isNegativeNumber (cs : List Char) : Bool :=
  let isDigit := fun c => (decimalDigit? c).isSome
  match dropEnd ['\n'] cs with
  | '-' :: rest =>
    match cutFirst '.' rest with
    | some (whole, part) => whole.all isDigit && !part.isEmpty && part.all isDigit
    | none => !rest.isEmpty && rest.all isDigit
  | _ => false

/-- The options whose names start with a given text. -/
def matching (names : List (String × α)) (start : String) (attached : Attached) : List (Word α) :=
  (names.filter fun (name, _) => beginsWith start name).map fun (_, a) => .option a attached

/-- The options that a word may mean that is not the name of one. Long options may be abbreviated,
and options of one letter may have letters attached. -/
def meanings (names : List (String × α)) (text : String) : List (Word α) :=
  match text.toList with
  | '-' :: '-' :: _ =>
    match cutFirst '=' text.toList with
    | some (start, value) => matching names (String.ofList start) (.value (String.ofList value))
    | none => matching names text .nothing
  | '-' :: c :: rest =>
    names.filterMap fun (name, a) =>
      if name = String.ofList ['-', c] then some (.option a (.letters (String.ofList rest)))
      else if beginsWith text name then some (.option a .nothing)
      else none
  | _ => []

/-- What follows an equals sign after the name of an option. -/
def attachedTo (name value : List Char) : Attached :=
  if name.length = 2 then .letters (String.ofList value) else .value (String.ofList value)

/-- The option that is named in full, with what follows an equals sign. -/
def named? (names : List (String × α)) (text : String) : Option (Word α) :=
  match names.lookup text, cutFirst '=' text.toList with
  | some a, _ => some (.option a .nothing)
  | none, some (name, value) =>
    (names.lookup (String.ofList name)).map fun a => .option a (attachedTo name value)
  | none, none => none

/-- The word of an argument; `none` if it may mean several options. -/
def ofArgument? (names : List (String × α)) (text : String) : Option (Word α) :=
  if !beginsWith "-" text || text = "-" then some (.plain text)
  else match named? names text with
    | some word => some word
    | none =>
      match meanings names text with
      | [word] => some word
      | [] =>
        if isNegativeNumber text.toList || text.toList.contains ' ' then some (.plain text)
        else some .unknown
      | _ => none

/-- The words of arguments; `none` if one of them may mean several options. -/
def ofArguments? (names : List (String × α)) : List String → Option (List (Word α))
  | [] => some []
  | text :: rest =>
    if text = "--" then some (.separator :: rest.map .plain)
    else do
      let word ← ofArgument? names text
      let words ← ofArguments? names rest
      return word :: words

end Word

end ApiProto.Command
