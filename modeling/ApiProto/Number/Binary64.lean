/-!
# Binary64 numbers

Double-precision numbers by their value, in exact integer arithmetic.

* `Binary64` — a finite number `± mantissa · 2 ^ exponent`, an infinity, or not-a-number. A
  non-zero finite number has a mantissa of 53 bits, or the exponent -1074.
* `Binary64.ofRatio` — the number nearest to a quotient; a quotient halfway between two goes to
  the even mantissa.
* `Binary64.ofDecimal` — the number nearest to a decimal numeral.
* `Binary64.add`, `Binary64.mul` — correctly rounded sum and product.
* `Binary64.toInt?` — the value of an integral number.
-/

namespace ApiProto

/-- A power of two. -/
def twoTo (n : Nat) : Nat := Nat.pow 2 n

/-- A power of ten. -/
def tenTo (n : Nat) : Nat := Nat.pow 10 n

/-- A binary64 number. -/
inductive Binary64 where
  | finite (negative : Bool) (mantissa : Nat) (exponent : Int)
  | infinite (negative : Bool)
  | nan
deriving DecidableEq, Inhabited, Repr

namespace Binary64

/-- The exponent of the smallest numbers. -/
def leastExponent : Int := -1074

/-- The largest exponent. -/
def greatestExponent : Int := 971

/-- Zero. -/
def zero (negative : Bool) : Binary64 := .finite negative 0 leastExponent

/-- The quotient `num / den` rounded to an integer, a half to the even neighbour. -/
def roundDiv (num den : Nat) : Nat :=
  let q := num / den
  let r := num % den
  if den < 2 * r ∨ (2 * r = den ∧ q % 2 = 1) then q + 1 else q

/-- `num / den / 2 ^ e` as a quotient of two natural numbers. -/
def unscale (num den : Nat) (e : Int) : Nat × Nat :=
  if e < 0 then (num * twoTo (-e).toNat, den) else (num, den * twoTo e.toNat)

/-- The exponent of the number nearest to `num / den`: the mantissa has 53 bits, unless the exponent
would fall below the least one. -/
def exponentOf (num den : Nat) : Int :=
  let e : Int := (num.log2 : Int) - den.log2 - 53
  let (a, b) := unscale num den e
  max leastExponent (if a / b < twoTo 53 then e else e + 1)

/-- The number nearest to `± num / den`. -/
def ofRatio (negative : Bool) (num den : Nat) : Binary64 :=
  if num = 0 then zero negative
  else
    let e := exponentOf num den
    let (a, b) := unscale num den e
    let m := roundDiv a b
    let (m, e) := if m = twoTo 53 then (twoTo 52, e + 1) else (m, e)
    if greatestExponent < e then .infinite negative else .finite negative m e

/-- The number nearest to `± digits · 10 ^ exponent`. Numerals far outside the range of the format
are decided by their size alone, so that no large power is computed. -/
def ofDecimal (negative : Bool) (digits : Nat) (exponent : Int) : Binary64 :=
  if digits = 0 then zero negative
  else
    let size : Int := (Nat.toDigits 10 digits).length + exponent
    if 310 < size then .infinite negative
    else if size < -330 then zero negative
    else if exponent < 0 then ofRatio negative digits (tenTo (-exponent).toNat)
    else ofRatio negative (digits * tenTo exponent.toNat) 1

/-- The number nearest to an integer quotient with a sign; an exact zero gets the sign given. -/
def ofIntRatio (negativeZero : Bool) (num : Int) (den : Nat) : Binary64 :=
  if num = 0 then zero negativeZero else ofRatio (num < 0) num.natAbs den

/-- A finite number as a quotient of integers. -/
def toRatio (negative : Bool) (mantissa : Nat) (exponent : Int) : Int × Nat :=
  let m : Int := if negative then -mantissa else mantissa
  if exponent < 0 then (m, twoTo (-exponent).toNat) else (m * twoTo exponent.toNat, 1)

/-- The correctly rounded sum. -/
def add : Binary64 → Binary64 → Binary64
  | .finite s m e, .finite t n f =>
    let (a, b) := toRatio s m e
    let (c, d) := toRatio t n f
    ofIntRatio (s && t) (a * d + c * b) (b * d)
  | .nan, _ | _, .nan => .nan
  | .infinite s, .infinite t => if s = t then .infinite s else .nan
  | .infinite s, _ | _, .infinite s => .infinite s

/-- The correctly rounded product. -/
def mul : Binary64 → Binary64 → Binary64
  | .finite s m e, .finite t n f =>
    let (a, b) := toRatio s m e
    let (c, d) := toRatio t n f
    ofIntRatio (s != t) (a * c) (b * d)
  | .nan, _ | _, .nan => .nan
  | .infinite s, .infinite t => .infinite (s != t)
  | .infinite s, .finite t m _ | .finite t m _, .infinite s =>
    if m = 0 then .nan else .infinite (s != t)

/-- The number nearest to an integer. -/
def ofInt (n : Int) : Binary64 := ofIntRatio false n 1

/-- The number with the opposite sign. -/
def neg : Binary64 → Binary64
  | .finite s m e => .finite (!s) m e
  | .infinite s => .infinite (!s)
  | .nan => .nan

/-- The value of a finite number that is an integer. -/
def toInt? : Binary64 → Option Int
  | .finite s m e =>
    let (a, b) := toRatio s m e
    if a % b = 0 then some (a / b) else none
  | _ => none

/-- A zero of either sign. -/
def isZero : Binary64 → Bool
  | .finite _ m _ => m == 0
  | _ => false

end Binary64

end ApiProto
