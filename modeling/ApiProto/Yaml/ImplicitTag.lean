import ApiProto.Text.Cut
import ApiProto.Text.Escape

/-!
# Tags of plain scalars

A plain scalar is text unless it has one of a few forms: null, a truth value, a number, a date or
time, or the mark of a merged mapping.

* `Tag` — the tags of the standard.
* `implicitTag` — the tag of a plain scalar.
-/

namespace ApiProto.Yaml

open Text

namespace Tag

/-- What the tags of the standard start with. -/
def standard : String := "tag:yaml.org,2002:"

def null : String := standard ++ "null"
def bool : String := standard ++ "bool"
def int : String := standard ++ "int"
def float : String := standard ++ "float"
def binary : String := standard ++ "binary"
def timestamp : String := standard ++ "timestamp"
def omap : String := standard ++ "omap"
def pairs : String := standard ++ "pairs"
def set : String := standard ++ "set"
def str : String := standard ++ "str"
def seq : String := standard ++ "seq"
def map : String := standard ++ "map"
def merge : String := standard ++ "merge"
def value : String := standard ++ "value"

/-- The tag of indicators, which no value has. -/
def indicator : String := standard ++ "yaml"

end Tag

/-- Words for null. -/
def nullWords : List String := ["", "~", "null", "Null", "NULL"]

/-- Words for truth values. -/
def boolWords : List String := [
  "yes", "Yes", "YES", "no", "No", "NO", "true", "True", "TRUE", "false", "False", "FALSE", "on",
  "On", "ON", "off", "Off", "OFF"]

/-! ## Numbers -/

/-- The text without a sign at its start. -/
def dropSign (cs : List Char) : List Char :=
  match cs with
  | '+' :: rest | '-' :: rest => rest
  | _ => cs

/-- Whether a text is a digit followed by digits and underscores. -/
def isDigits (cs : List Char) : Bool :=
  match cs with
  | c :: rest => c.isDigit && rest.all fun d => d.isDigit || d == '_'
  | [] => false

/-- Whether a text is not empty and consists of underscores and characters that satisfy `p`. -/
def isSpaced (p : Char → Bool) (cs : List Char) : Bool :=
  !cs.isEmpty && cs.all fun c => p c || c == '_'

/-- Whether a text is a part of a number in base sixty after the first: at most 59. -/
def isSixty (cs : List Char) : Bool :=
  match cs with
  | [a] => a.isDigit
  | [a, b] => '0' ≤ a && a ≤ '5' && b.isDigit
  | _ => false

/-- Whether a text is a number in base sixty, with parts between colons. -/
def isSexagesimal (cs : List Char) : Bool :=
  match splitAround ':' cs with
  | first :: second :: rest => isDigits first && (second :: rest).all isSixty
  | _ => false

/-- Whether a text is an octal digit. -/
def isOctal (c : Char) : Bool := '0' ≤ c && c ≤ '7'

/-- Whether a plain scalar is an integer: binary, octal, decimal, hexadecimal or in base sixty. -/
def isInteger (cs : List Char) : Bool :=
  match dropSign cs with
  | ['0'] => true
  | '0' :: 'b' :: ds => isSpaced (fun c => c == '0' || c == '1') ds
  | '0' :: 'x' :: ds => isSpaced (fun c => (hexValue? c).isSome) ds
  | '0' :: ds => isSpaced isOctal ds
  | cs => isDigits cs || isSexagesimal cs

/-- Whether a text is an exponent with a sign, or nothing. -/
def isExponent (cs : List Char) : Bool :=
  match cs with
  | [] => true
  | e :: s :: ds => (e == 'e' || e == 'E') && (s == '+' || s == '-') && !ds.isEmpty &&
      ds.all Char.isDigit
  | _ => false

/-- Whether a text is digits and underscores with an exponent. -/
def isFractionTail (cs : List Char) : Bool :=
  isExponent (cs.dropWhile fun c => c.isDigit || c == '_')

/-- Whether a plain scalar is a number with a point, infinite, or not a number. -/
def isFloat (cs : List Char) : Bool :=
  let unsigned := dropSign cs
  if ["inf", "Inf", "INF"].any fun w => unsigned == '.' :: w.toList then true
  else if ["nan", "NaN", "NAN"].any fun w => cs == '.' :: w.toList then true
  else match cs with
    | '.' :: d :: rest => d.isDigit && isFractionTail rest
    | _ =>
      match cutFirst '.' unsigned with
      | none => false
      | some (whole, part) =>
        (isDigits whole && isFractionTail part) ||
          (isSexagesimal whole && part.all fun c => c.isDigit || c == '_')

/-! ## Dates and times -/

/-- One or two digits at the start of a text: the number, and what follows. -/
def cutTwo? (cs : List Char) : Option (List Char × List Char) :=
  match cs with
  | a :: b :: rest =>
    if a.isDigit && b.isDigit then some ([a, b], rest)
    else if a.isDigit then some ([a], b :: rest)
    else none
  | [a] => if a.isDigit then some ([a], []) else none
  | [] => none

/-- A number of digits at the start of a text, and what follows. -/
def cutDigits? (count : Nat) (cs : List Char) : Option (List Char × List Char) :=
  let ds := cs.take count
  if ds.length = count && ds.all Char.isDigit then some (ds, cs.drop count) else none

/-- What follows a given character. -/
def after? (c : Char) (cs : List Char) : Option (List Char) :=
  match cs with
  | d :: rest => if d = c then some rest else none
  | [] => none

/-- The digits of a zone: its sign, hours and minutes. -/
structure ZoneDigits where
  sign : Char
  hours : List Char
  minutes : List Char
deriving Inhabited, Repr

/-- The digits of a time of day. The zone is `none` if it is universal time, and missing if there
is none. -/
structure ClockDigits where
  hour : List Char
  minute : List Char
  second : List Char
  fraction : List Char
  zone : Option (Option ZoneDigits)
deriving Inhabited, Repr

/-- The digits of a date, with a time of day if there is one. -/
structure DateDigits where
  year : List Char
  month : List Char
  day : List Char
  clock : Option ClockDigits
deriving Inhabited, Repr

/-- A blank inside a date and time. -/
def isGap (c : Char) : Bool := c == ' ' || c == '\t'

/-- The digits of a zone, which takes up the whole text. -/
def zoneDigits? (cs : List Char) : Option (Option (Option ZoneDigits)) :=
  match cs.dropWhile isGap with
  | [] => if cs.isEmpty then some none else none
  | ['Z'] => some (some none)
  | s :: rest =>
    if s == '+' || s == '-' then do
      let (hours, rest) ← cutTwo? rest
      match rest with
      | [] => some (some (some ⟨s, hours, []⟩))
      | ':' :: rest =>
        let (minutes, rest) ← cutDigits? 2 rest
        if rest.isEmpty then some (some (some ⟨s, hours, minutes⟩)) else none
      | _ => none
    else none

/-- The digits of a time of day, which takes up the whole text. -/
def clockDigits? (cs : List Char) : Option ClockDigits := do
  let (hour, rest) ← cutTwo? cs
  let (minute, rest) ← cutDigits? 2 (← after? ':' rest)
  let (second, rest) ← cutDigits? 2 (← after? ':' rest)
  let (fraction, rest) := match rest with
    | '.' :: rest => (rest.takeWhile Char.isDigit, rest.dropWhile Char.isDigit)
    | _ => ([], rest)
  let zone ← zoneDigits? rest
  return ⟨hour, minute, second, fraction, zone⟩

/-- The digits of a date, with a time of day if there is one. -/
def dateDigits? (cs : List Char) : Option DateDigits := do
  let (year, rest) ← cutDigits? 4 cs
  let (month, rest) ← cutTwo? (← after? '-' rest)
  let (day, rest) ← cutTwo? (← after? '-' rest)
  match rest with
  | [] => return ⟨year, month, day, none⟩
  | c :: later =>
    let clock := if c == 'T' || c == 't' then later else rest.dropWhile isGap
    if c == 'T' || c == 't' || isGap c then
      return ⟨year, month, day, some (← clockDigits? clock)⟩
    else none

/-- Whether a plain scalar is a date, in which month and day have two digits, or a date and time. -/
def isTimestamp (cs : List Char) : Bool :=
  match dateDigits? cs with
  | none => false
  | some d => d.clock.isSome || (d.month.length == 2 && d.day.length == 2)

/-- The tag of a plain scalar. -/
def implicitTag (text : String) : String :=
  let cs := text.toList
  if boolWords.contains text then Tag.bool
  else if nullWords.contains text then Tag.null
  else if isFloat cs then Tag.float
  else if isInteger cs then Tag.int
  else if text = "<<" then Tag.merge
  else if text = "=" then Tag.value
  else if isTimestamp cs then Tag.timestamp
  else if ["!", "&", "*"].contains text then Tag.indicator
  else Tag.str

end ApiProto.Yaml
