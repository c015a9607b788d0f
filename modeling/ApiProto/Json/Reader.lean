import ApiProto.Number.DecimalText
import ApiProto.Text.Cut
import ApiProto.Text.Escape
import ApiProto.Value.Basic

/-!
# Reading JSON

* `Json.readNumber?` — the longest number at the start of a text. Numbers without fraction and
  exponent are integers of any size.
* `Json.readString?` — what follows an opening quote, up to the closing one.
* `Json.read?` — the value of a complete text. Entries keep their order; a key that occurs again
  takes the last value at its first place. `NaN`, `Infinity` and `-Infinity` are numbers.
-/

namespace ApiProto.Json

open Text

/-- White space between tokens. -/
def isSpace (c : Char) : Bool := c == ' ' || c == '\t' || c == '\n' || c == '\r'

/-- Drops white space. -/
def skipSpace (cs : List Char) : List Char := cs.dropWhile isSpace

/-- The character for a letter after a backslash. -/
def simpleEscape? : Char → Option Char
  | '"' => some '"'
  | '\\' => some '\\'
  | '/' => some '/'
  | 'b' => some (Char.ofNat 8)
  | 'f' => some (Char.ofNat 12)
  | 'n' => some '\n'
  | 'r' => some '\r'
  | 't' => some '\t'
  | _ => none

/-- Reads characters up to the closing quote: the text, and what follows the quote. `high` is the
first half of a surrogate pair that has just been read. -/
def readString? (high : Option Nat) : List Char → Option (List Char × List Char)
  | '\\' :: 'u' :: a :: b :: c :: d :: rest => do
    let n ← hexNumber? [a, b, c, d]
    match high with
    | some h =>
      if isLowHalf n then
        let (cs, rest) ← readString? none rest
        return (joinHalves h n :: cs, rest)
      else if isHighHalf n then
        let (cs, rest) ← readString? (some n) rest
        return (characterOf h :: cs, rest)
      else
        let (cs, rest) ← readString? none rest
        return (characterOf h :: characterOf n :: cs, rest)
    | none =>
      if isHighHalf n then readString? (some n) rest
      else
        let (cs, rest) ← readString? none rest
        return (characterOf n :: cs, rest)
  | c :: rest => do
    let pending := high.toList.map characterOf
    if c = '"' then return (pending, rest)
    else if c = '\\' then
      match rest with
      | [] => none
      | e :: rest =>
        let c ← simpleEscape? e
        let (cs, rest) ← readString? none rest
        return (pending ++ c :: cs, rest)
    else if c.toNat < 0x20 then none
    else
      let (cs, rest) ← readString? none rest
      return (pending ++ c :: cs, rest)
  | [] => none

/-- The digits of a fraction at the start of a text: a point with at least one digit. -/
def fraction (cs : List Char) : List Char × List Char :=
  match cs with
  | '.' :: rest => let (ds, rest) := digits rest; if ds.isEmpty then ([], cs) else (ds, rest)
  | _ => ([], cs)

/-- Reads a number without its sign: the longest start of the text that is a number. -/
def readNumber? (negative : Bool) (cs : List Char) : Option (Value × List Char) :=
  let (whole, rest) := match cs with
    | '0' :: rest => (['0'], rest)
    | _ => digits cs
  if whole.isEmpty then none
  else
    let (part, rest) := fraction rest
    let n := digitsValue (whole ++ part)
    match exponent? rest with
    | some (e, rest) => some (.float (.ofDecimal negative n (e - part.length)), rest)
    | none =>
      if part.isEmpty then some (.int (if negative then -(n : Int) else n), rest)
      else some (.float (.ofDecimal negative n (-part.length)), rest)

/-- Values that are written as words. -/
def words : List (String × Value) := [
  ("null", .null), ("true", .bool true), ("false", .bool false), ("NaN", .float .nan),
  ("Infinity", .float (.infinite false)), ("-Infinity", .float (.infinite true))]

/-- Reads a number or a word. -/
def readScalar? (cs : List Char) : Option (Value × List Char) :=
  let word := words.findSome? fun (w, v) => (dropStart? w.toList cs).map (v, ·)
  match word, cs with
  | some found, _ => some found
  | none, '-' :: rest => readNumber? true rest
  | none, cs => readNumber? false cs

mutual

/-- Reads a value that starts with the first character. The first argument bounds the number of
steps. -/
def readValue? : Nat → List Char → Option (Value × List Char)
  | 0, _ => none
  | n + 1, cs =>
    match cs with
    | '"' :: rest => (readString? none rest).map fun (s, rest) => (.text (String.ofList s), rest)
    | '[' :: rest =>
      match skipSpace rest with
      | ']' :: rest => some (.list [], rest)
      | rest => (readItems? n rest).map fun (items, rest) => (.list items, rest)
    | '\x7b' :: rest =>
      match skipSpace rest with
      | '\x7d' :: rest => some (.object [], rest)
      | rest => (readEntries? n rest).map fun (entries, rest) =>
          (.object (collectEntries entries), rest)
    | cs => readScalar? cs

/-- Reads the items of a list after the opening bracket or a comma. -/
def readItems? : Nat → List Char → Option (List Value × List Char)
  | 0, _ => none
  | n + 1, cs => do
    let (item, rest) ← readValue? n cs
    match skipSpace rest with
    | ']' :: rest => return ([item], rest)
    | ',' :: rest =>
      let (items, rest) ← readItems? n (skipSpace rest)
      return (item :: items, rest)
    | _ => none

/-- Reads the entries of an object after the opening brace or a comma. -/
def readEntries? : Nat → List Char → Option (List (String × Value) × List Char)
  | 0, _ => none
  | n + 1, cs => do
    match cs with
    | '"' :: rest =>
      let (key, rest) ← readString? none rest
      match skipSpace rest with
      | ':' :: rest =>
        let (value, rest) ← readValue? n (skipSpace rest)
        match skipSpace rest with
        | '\x7d' :: rest => return ([(String.ofList key, value)], rest)
        | ',' :: rest =>
          let (entries, rest) ← readEntries? n (skipSpace rest)
          return ((String.ofList key, value) :: entries, rest)
        | _ => none
      | _ => none
    | _ => none

end

/-- The value of a JSON text. Each step of reading consumes a character, so their number is bounded
by the length of the text. -/
def read? (text : String) : Option Value :=
  let cs := text.toList
  match readValue? (cs.length + 1) (skipSpace cs) with
  | some (value, rest) => if (skipSpace rest).isEmpty then some value else none
  | none => none

end ApiProto.Json
