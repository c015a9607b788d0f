import ApiProto.Number.Shortest
import ApiProto.Text.Character
import ApiProto.Text.Escape
import ApiProto.Value.Basic

/-!
# The text of values

Two written forms of a value are in use.

* `Value.literal` — the form in diagnostics: strings in quotation marks with escapes, lists in
  brackets, objects in braces, `True`, `False` and `None`.
* `Value.display` — a string as it is, anything else as its literal.
* `Value.plain` — the form that values take where the document model holds text: `true`, `false`
  and `null` in lower case, anything else as it is displayed.
-/

namespace ApiProto

open Text

/-- Numbers are positional from 0.0001 up to sixteen digits before the point, and always show a
fraction or an exponent. -/
def Value.floatLayout : DecimalLayout where
  positional := fun k => -5 < k && k < 16
  noFraction := ".0"
  infinity := "inf"
  notANumber := "nan"

/-- The text of a number that is not an integer. -/
def Value.floatText (x : Binary64) : String := x.write Value.floatLayout

/-- The form of a character in a literal between the marks `mark`. Characters without visible form
are given by their code. -/
def literalChar (mark c : Char) : List Char :=
  let n := c.toNat
  if c = mark ∨ c = '\\' then ['\\', c]
  else if c = '\n' then ['\\', 'n']
  else if c = '\r' then ['\\', 'r']
  else if c = '\t' then ['\\', 't']
  else if isPrintable c then [c]
  else if n < 0x100 then '\\' :: 'x' :: hexDigits 2 n
  else if n < 0x10000 then '\\' :: 'u' :: hexDigits 4 n
  else '\\' :: 'U' :: hexDigits 8 n

/-- A string as a literal: between apostrophes, or between quotes if it contains an apostrophe and
no quote. -/
def literalText (s : String) : String :=
  let cs := s.toList
  let mark := if cs.contains '\'' && !cs.contains '"' then '"' else '\''
  String.ofList (mark :: cs.flatMap (literalChar mark) ++ [mark])

/-- The form of a byte in a literal between the marks `mark`. -/
def literalByte (mark : Char) (n : Nat) : List Char :=
  let c := Char.ofNat n
  if c = mark ∨ c = '\\' then ['\\', c]
  else if c = '\n' then ['\\', 'n']
  else if c = '\r' then ['\\', 'r']
  else if c = '\t' then ['\\', 't']
  else if 0x20 ≤ n ∧ n < 0x7F then [c]
  else '\\' :: 'x' :: hexDigits 2 n

/-- Binary data as a literal: the marks follow the rule of `literalText`. -/
def literalBytes (data : List Nat) : String :=
  let mark := if data.contains 39 && !data.contains 34 then '"' else '\''
  String.ofList ('b' :: mark :: data.flatMap (literalByte mark) ++ [mark])

/-- Numbers separated by commas. -/
def commaSeparated (ns : List Nat) : String := ", ".intercalate (ns.map Nat.repr)

/-- A duration of whole minutes as a literal: days, which may be negative, and seconds. -/
def literalOffset (minutes : Int) : String :=
  let days := Int.fdiv minutes 1440
  let seconds := Int.fmod minutes 1440 * 60
  let parts := (if days = 0 then [] else ["days=" ++ toString days]) ++
    (if seconds = 0 then [] else ["seconds=" ++ toString seconds])
  "datetime.timedelta(" ++ (if parts.isEmpty then "0" else ", ".intercalate parts) ++ ")"

/-- A date as a literal. -/
def Date.literal (d : Date) : String :=
  "datetime.date(" ++ commaSeparated [d.year, d.month, d.day] ++ ")"

/-- A timestamp as a literal; seconds and microseconds are left out when they and all that follows
is zero. -/
def Timestamp.literal (t : Timestamp) : String :=
  let clock := [t.date.year, t.date.month, t.date.day, t.hour, t.minute] ++
    (if t.microsecond ≠ 0 then [t.second, t.microsecond]
    else if t.second ≠ 0 then [t.second] else [])
  let zone := match t.offset with
    | none => ""
    | some 0 => ", tzinfo=datetime.timezone.utc"
    | some minutes => ", tzinfo=datetime.timezone(" ++ literalOffset minutes ++ ")"
  "datetime.datetime(" ++ commaSeparated clock ++ zone ++ ")"

mutual

/-- The form of a value in diagnostics. -/
def Value.literal : Value → String
  | .null => "None"
  | .bool b => if b then "True" else "False"
  | .int n => toString n
  | .float x => Value.floatText x
  | .text s => literalText s
  | .date d => d.literal
  | .timestamp t => t.literal
  | .bytes data => literalBytes data
  | .list items => "[" ++ ", ".intercalate (literalItems items) ++ "]"
  | .object entries => "\x7b" ++ ", ".intercalate (literalEntries entries) ++ "\x7d"
  | .pastEnd sequence => "EndOfList(" ++ sequence.literal ++ ")"

/-- The literals of the items of a list. -/
def literalItems : List Value → List String
  | [] => []
  | v :: rest => v.literal :: literalItems rest

/-- The literals of the entries of an object. -/
def literalEntries : List (String × Value) → List String
  | [] => []
  | (key, v) :: rest => (literalText key ++ ": " ++ v.literal) :: literalEntries rest

end

/-- The text of a value for a reader. -/
def Value.display : Value → String
  | .text s => s
  | .date d => d.text
  | .timestamp t => t.text
  | v => v.literal

/-- The text of a value in the document model (`_stringify`). -/
def Value.plain : Value → String
  | .bool b => if b then "true" else "false"
  | .null => "null"
  | v => v.display

end ApiProto
