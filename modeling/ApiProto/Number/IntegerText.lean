import ApiProto.Text.Character

/-!
# Integers in text

* `integerIn?` — reads an integer in a base: white space around it, a sign, the mark of the base,
  digits, the decimal ones of any script, and single underscores between digits.
* `integerOf?` — the same in base ten, which has no mark.
-/

namespace ApiProto

open Text

/-- Reads digits, a single underscore being allowed between two of them. `digit` gives the value of
a digit, and `ready` says whether a digit has just been read. -/
def readDigits (digit : Char → Option Nat) (base : Nat) : Bool → Nat → List Char → Option Nat
  | ready, n, [] => if ready then some n else none
  | ready, n, c :: rest =>
    if c = '_' then (if ready then readDigits digit base false n rest else none)
    else match digit c with
      | some d => readDigits digit base true (n * base + d) rest
      | none => none

/-- The value of a digit in a base up to sixteen. -/
def digitIn? (base : Nat) (c : Char) : Option Nat :=
  let value :=
    match decimalDigit? c with
    | some d => some d
    | none =>
      if 'a' ≤ c ∧ c ≤ 'f' then some (c.toNat - 'a'.toNat + 10)
      else if 'A' ≤ c ∧ c ≤ 'F' then some (c.toNat - 'A'.toNat + 10)
      else none
  value.filter (· < base)

/-- Reads the digits of a natural number in a base up to sixteen. -/
def naturalIn? (base : Nat) (cs : List Char) : Option Nat :=
  readDigits (digitIn? base) base false 0 cs

/-- The letters that mark a base after a zero. -/
def baseMarks (base : Nat) : List Char :=
  match base with
  | 2 => ['b', 'B']
  | 8 => ['o', 'O']
  | 16 => ['x', 'X']
  | _ => []

/-- Drops the mark of a base, with an underscore after it. -/
def dropBaseMark (base : Nat) (cs : List Char) : List Char :=
  match cs with
  | '0' :: c :: '_' :: rest => if (baseMarks base).contains c then rest else cs
  | '0' :: c :: rest => if (baseMarks base).contains c then rest else cs
  | _ => cs

/-- Reads an integer in a base up to sixteen. -/
def integerIn? (base : Nat) (cs : List Char) : Option Int :=
  let natural := fun rest => naturalIn? base (dropBaseMark base rest)
  match stripBlank cs with
  | '-' :: rest => (natural rest).map fun n => -(n : Int)
  | '+' :: rest => (natural rest).map fun n => (n : Int)
  | rest => (natural rest).map fun n => (n : Int)

/-- Reads an integer in base ten. -/
def integerOf? (cs : List Char) : Option Int := integerIn? 10 cs

end ApiProto
