import ApiProto.Number.DecimalText
import ApiProto.Number.IntegerText
import ApiProto.Text.Base64
import ApiProto.Value.Literal
import ApiProto.Yaml.ImplicitTag
import ApiProto.Yaml.Token

/-!
# Values of scalars

* `integerValue`, `floatValue` — numbers, with underscores between digits, a mark of their base, or
  parts in base sixty.
* `timestampValue` — dates and times.
* `binaryValue` — bytes in base sixty-four.
* `scalarValue` — the value of a scalar by its tag.
-/

namespace ApiProto.Yaml

open Text

/-! ## Numbers -/

/-- A text without underscores, split into its sign and what follows. -/
def cutSign (cs : List Char) : Option Char × List Char :=
  let cs := cs.filter (· ≠ '_')
  (cs.head?.filter fun c => c == '+' || c == '-', dropSign cs)

/-- The fault of a number without characters. -/
def emptyNumber : Fault := .unusableValue "string index out of range"

/-- An integer in a base. -/
def integerPart (base : Nat) (cs : List Char) : Except Fault Int :=
  match integerIn? base cs with
  | some n => .ok n
  | none => .error (.meaningless ("invalid literal for int() with base " ++ toString base ++ ": " ++
      literalText (String.ofList cs)))

/-- The number whose digits in base sixty are `parts`. -/
def sexagesimal (parts : List Int) : Int := parts.foldl (fun n d => n * 60 + d) 0

/-- An integer without sign. A leading zero stands for base eight. -/
def magnitudeValue (cs : List Char) : Except Fault Int :=
  match cs with
  | [] => .error emptyNumber
  | ['0'] => .ok 0
  | '0' :: 'b' :: ds => integerPart 2 ds
  | '0' :: 'x' :: ds => integerPart 16 ds
  | '0' :: _ => integerPart 8 cs
  | _ =>
    if cs.contains ':' then return sexagesimal (← (splitAround ':' cs).mapM (integerPart 10))
    else integerPart 10 cs

/-- The value of an integer. -/
def integerValue (text : String) : Except Fault Value := do
  let (sign, cs) := cutSign text.toList
  let n ← magnitudeValue cs
  return .int (if sign = some '-' then -n else n)

/-- A decimal number. -/
def decimalPart (cs : List Char) : Except Fault Binary64 :=
  match decimalOf? cs with
  | some x => .ok x
  | none => .error (.meaningless ("could not convert string to float: " ++
      literalText (String.ofList cs)))

/-- The number whose parts in base sixty are `parts`, the last one first. -/
def sexagesimalFloat (parts : List Binary64) : Binary64 :=
  (parts.foldl (fun (sum, base) x => (sum.add (x.mul (.ofInt base)), base * 60))
    (Binary64.ofInt 0, (1 : Int))).1

/-- The value of a number with a point. -/
def floatValue (text : String) : Except Fault Value := do
  let (sign, cs) := cutSign (text.toList.map Char.toLower)
  let x ←
    if sign.isNone && cs.isEmpty then throw emptyNumber
    else if cs = ".inf".toList then pure (.infinite false)
    else if cs = ".nan".toList then pure .nan
    else if cs.contains ':' then
      pure (sexagesimalFloat (← (splitAround ':' cs).mapM decimalPart).reverse)
    else decimalPart cs
  return .float (if sign = some '-' then x.neg else x)

/-! ## Dates and times -/

/-- The number of a list of digits. -/
def numberOf (cs : List Char) : Nat := digitsValue cs

/-- A date, if its parts are in range. -/
def dateOf (d : DateDigits) : Except Fault Date := do
  let year := numberOf d.year
  let month := numberOf d.month
  let day := numberOf d.day
  if year = 0 then throw (.meaningless "year 0 is out of range")
  if month = 0 ∨ 12 < month then throw (.meaningless "month must be in 1..12")
  if day = 0 ∨ Date.daysIn year month < day then
    throw (.meaningless "day is out of range for month")
  return ⟨year, month, day⟩

/-- The offset of a zone in minutes, which is less than a day. -/
def offsetOf (zone : ZoneDigits) : Except Fault Int := do
  let minutes : Int := (numberOf zone.hours * 60 + numberOf zone.minutes : Nat)
  let offset := if zone.sign = '-' then -minutes else minutes
  if 1440 ≤ minutes then
    throw (.meaningless ("offset must be a timedelta strictly between -timedelta(hours=24) and " ++
      "timedelta(hours=24), not " ++ literalOffset offset ++ "."))
  return offset

/-- The millionths of a second of a fraction; further digits are dropped. -/
def microsecondOf (fraction : List Char) : Nat :=
  let ds := fraction.take 6
  numberOf (ds ++ List.replicate (6 - ds.length) '0')

/-- The value of a date, or of a date and time. -/
def timestampValue (text : String) : Except Fault Value := do
  match dateDigits? text.toList with
  | none => throw (.unexpectedKind "NoneType" "groupdict")
  | some d =>
    match d.clock with
    | none => return .date (← dateOf d)
    | some c =>
      let offset ← match c.zone with
        | none => pure none
        | some none => pure (some 0)
        | some (some zone) => pure (some (← offsetOf zone))
      let date ← dateOf d
      let hour := numberOf c.hour
      let minute := numberOf c.minute
      let second := numberOf c.second
      if 23 < hour then throw (.meaningless "hour must be in 0..23")
      if 59 < minute then throw (.meaningless "minute must be in 0..59")
      if 59 < second then throw (.meaningless "second must be in 0..59")
      return .timestamp ⟨date, hour, minute, second, microsecondOf c.fraction, offset⟩

/-! ## Other scalars -/

/-- The value of a truth value, in which capitals do not count. -/
def boolValue (text : String) : Except Fault Value :=
  let word := text.toLower
  if ["yes", "true", "on"].contains word then .ok (.bool true)
  else if ["no", "false", "off"].contains word then .ok (.bool false)
  else .error (.unusableValue (literalText word))

/-- The value of binary data. -/
def binaryValue (text : String) : Except Fault Value :=
  let cs := text.toList
  if cs.all fun c => c.toNat < 0x80 then
    match decodeBase64? cs with
    | some data => .ok (.bytes data)
    | none => .error .malformed
  else .error .malformed

/-- The values of scalars by their tags. -/
def scalarReaders : List (String × (String → Except Fault Value)) := [
  (Tag.null, fun _ => .ok .null), (Tag.bool, boolValue), (Tag.int, integerValue),
  (Tag.float, floatValue), (Tag.binary, binaryValue), (Tag.timestamp, timestampValue),
  (Tag.str, fun text => .ok (.text text))]

/-- The value of a scalar by its tag. -/
def scalarValue (tag text : String) : Except Fault Value :=
  match scalarReaders.lookup tag with
  | some read => read text
  | none => .error .malformed

end ApiProto.Yaml
