import ApiProto.Text.PrintableTable
import ApiProto.Text.UpperTable

/-!
# Kinds of characters

White space is understood as text processing does: the Unicode space characters, the line and
paragraph separators, and the separator controls U+001C to U+001F. Each script's ten decimal digits
stand in a row, so the digit of value zero determines the other nine.

* `isBlank` — a white-space character.
* `stripBlank` — text without the white space at its two ends.
* `decimalDigit?` — the value of a decimal digit of any script.
* `isPrintable` — searches the ordered table of ranges by halving.
* `upper` — the upper-case form of a character, which may be a sequence of characters: the sharp s
  becomes two letters S.
-/

namespace ApiProto.Text

/-! ## White space -/

/-- A white-space character. Zero-width space and the byte order mark are not white space. -/
def isBlank (c : Char) : Bool :=
  let n := c.toNat
  (0x09 ≤ n && n ≤ 0x0D) || (0x1C ≤ n && n ≤ 0x20) || n == 0x85 || n == 0xA0 || n == 0x1680 ||
    (0x2000 ≤ n && n ≤ 0x200A) || n == 0x2028 || n == 0x2029 || n == 0x202F || n == 0x205F ||
    n == 0x3000

/-- Drops the characters at the end of a list that satisfy `p`. -/
def dropEndWhile (p : Char → Bool) (cs : List Char) : List Char :=
  (cs.reverse.dropWhile p).reverse

/-- Drops white space at both ends. -/
def stripBlank (cs : List Char) : List Char := dropEndWhile isBlank (cs.dropWhile isBlank)

/-- Drops white space at both ends of a string. -/
def strip (s : String) : String := String.ofList (stripBlank s.toList)

/-! ## Decimal digits -/

/-- The decimal digits of value zero in Unicode 14. -/
def decimalZeros : List Nat := [
  0x0030, 0x0660, 0x06F0, 0x07C0, 0x0966, 0x09E6, 0x0A66, 0x0AE6, 0x0B66, 0x0BE6, 0x0C66, 0x0CE6,
  0x0D66, 0x0DE6, 0x0E50, 0x0ED0, 0x0F20, 0x1040, 0x1090, 0x17E0, 0x1810, 0x1946, 0x19D0, 0x1A80,
  0x1A90, 0x1B50, 0x1BB0, 0x1C40, 0x1C50, 0xA620, 0xA8D0, 0xA900, 0xA9D0, 0xA9F0, 0xAA50, 0xABF0,
  0xFF10, 0x104A0, 0x10D30, 0x11066, 0x110F0, 0x11136, 0x111D0, 0x112F0, 0x11450, 0x114D0,
  0x11650, 0x116C0, 0x11730, 0x118E0, 0x11950, 0x11C50, 0x11D50, 0x11DA0, 0x16A60, 0x16AC0,
  0x16B50, 0x1D7CE, 0x1D7D8, 0x1D7E2, 0x1D7EC, 0x1D7F6, 0x1E140, 0x1E2F0, 0x1E950, 0x1FBF0]

/-- The value of a decimal digit of any script. -/
def decimalDigit? (c : Char) : Option Nat :=
  (decimalZeros.find? fun first => first ≤ c.toNat && c.toNat ≤ first + 9).map (c.toNat - ·)

/-! ## Printable characters -/

/-- Searches the ranges with index from `low` up to but not including `low + count` for `n`. -/
def inRanges (ranges : Array (Nat × Nat)) (n low count : Nat) : Bool :=
  match count with
  | 0 => false
  | count + 1 =>
    let middle := low + count / 2
    match ranges[middle]? with
    | none => false
    | some (first, last) =>
      if n < first then inRanges ranges n low (count / 2)
      else if last < n then inRanges ranges n (middle + 1) (count - count / 2)
      else true
termination_by count
decreasing_by all_goals omega

/-- A character with a visible form, or the space. -/
def isPrintable (c : Char) : Bool := inRanges printableRanges c.toNat 0 printableRanges.size

/-! ## Upper case -/

/-- The upper-case form of a character outside ASCII. -/
def upperWide (c : Char) : List Char :=
  let n := c.toNat
  match upperExpansions.lookup n with
  | some us => us.map Char.ofNat
  | none =>
    match upperRuns.find? fun (first, last, step, _) =>
        first ≤ n && n ≤ last && (n - first) % step == 0 with
    | some (_, _, _, distance) => [Char.ofNat (Int.toNat (n + distance))]
    | none => [c]

/-- The upper-case form of a character. -/
def upper (c : Char) : List Char :=
  if c.toNat < 0x80 then [c.toUpper] else upperWide c

end ApiProto.Text
