import ApiProto.Number.Binary64
import ApiProto.Text.Character

/-!
# Decimal numbers in text

* `digits` — the digits at the start of a text.
* `exponent?` — the exponent at the start of a text.
* `decimalOf?` — reads a number with an optional point and exponent, white space around it and a
  sign; infinity and not-a-number are words.
-/

namespace ApiProto

open Text

/-- The number that a list of ASCII digits denotes. -/
def digitsValue (cs : List Char) : Nat := cs.foldl (fun n c => n * 10 + (c.toNat - '0'.toNat)) 0

/-- The digits at the start of a text, and the rest. -/
def digits (cs : List Char) : List Char × List Char :=
  (cs.takeWhile Char.isDigit, cs.dropWhile Char.isDigit)

/-- The exponent at the start of a text: a letter E, an optional sign and at least one digit. -/
def exponent? (cs : List Char) : Option (Int × List Char) :=
  match cs with
  | e :: rest =>
    if e = 'e' ∨ e = 'E' then
      let (negative, rest) := match rest with
        | '-' :: rest => (true, rest)
        | '+' :: rest => (false, rest)
        | _ => (false, rest)
      let (ds, rest) := digits rest
      if ds.isEmpty then none
      else some (if negative then -(digitsValue ds : Int) else digitsValue ds, rest)
    else none
  | [] => none

/-- The ASCII digit for a decimal digit of any script; other characters are kept. -/
def asciiDigit (c : Char) : Char :=
  match decimalDigit? c with
  | some d => Char.ofNat ('0'.toNat + d)
  | none => c

/-- Reads a number without sign, which takes up the whole text. -/
def unsignedOf? (negative : Bool) (cs : List Char) : Option Binary64 :=
  let word := String.ofList (cs.map Char.toLower)
  if word = "inf" ∨ word = "infinity" then some (.infinite negative)
  else if word = "nan" then some .nan
  else
    let (whole, rest) := digits cs
    let (part, rest) := match rest with
      | '.' :: rest => digits rest
      | _ => ([], rest)
    let ds := whole ++ part
    let e? := if rest.isEmpty then some (0, []) else exponent? rest
    match e? with
    | some (e, []) =>
      if ds.isEmpty then none else some (.ofDecimal negative (digitsValue ds) (e - part.length))
    | _ => none

/-- Reads a number. -/
def decimalOf? (cs : List Char) : Option Binary64 :=
  match (stripBlank cs).map asciiDigit with
  | '-' :: rest => unsignedOf? true rest
  | '+' :: rest => unsignedOf? false rest
  | rest => unsignedOf? false rest

end ApiProto
