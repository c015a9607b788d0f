import ApiProto.Number.Binary64

/-!
# Shortest decimals

* `shortest` — the decimal numeral with the fewest digits that reads back as a given number, the
  nearest one if there are several.
* `DecimalLayout` — how a numeral is laid out as text: which exponents are written positionally,
  and what stands for a missing fraction.
* `Binary64.write` — the text of a number in a layout.
-/

namespace ApiProto

/-- The decimal numeral `digits · 10 ^ exponent`. -/
structure Decimal where
  digits : Nat
  exponent : Int
deriving DecidableEq, Inhabited, Repr

namespace Decimal

/-- The number of decimal digits of a natural number. -/
def width (n : Nat) : Nat := (Nat.toDigits 10 n).length

/-- Moves the zeros at the end of the digits into the exponent. -/
def trim (d : Decimal) : Decimal :=
  let ds := Nat.toDigits 10 d.digits
  let zeros := (ds.reverse.takeWhile (· == '0')).length
  if d.digits = 0 then ⟨0, 0⟩ else ⟨d.digits / tenTo zeros, d.exponent + zeros⟩

end Decimal

namespace Binary64

/-- A quotient of two integers with a common power of two and of ten: `num · 2 ^ e / 10 ^ p`. -/
def gridRatio (num : Nat) (e p : Int) : Nat × Nat :=
  let (a, b) := if e < 0 then (num, twoTo (-e).toNat) else (num * twoTo e.toNat, 1)
  if p < 0 then (a * tenTo (-p).toNat, b) else (a, b * tenTo p.toNat)

/-- The place of the first decimal digit of `m · 2 ^ e`: the power of ten just above it. Scaling
by `10 ^ 340` makes every positive number larger than `10 ^ 16`. -/
def magnitude (m : Nat) (e : Int) : Int :=
  let (a, b) := gridRatio m e (-340)
  (Decimal.width (a / b) : Int) - 340

/-- The multiple of `10 ^ p` that reads back as `m · 2 ^ e`, if one of the two multiples next to
the number does; of two such the nearer, and of two equally near the even one. The ends of the
interval of readings belong to it when the mantissa is even. -/
def onGrid? (m : Nat) (e p : Int) : Option Nat :=
  let below := if m = twoTo 52 ∧ leastExponent < e then 1 else 2
  let (value, unit) := gridRatio (4 * m) (e - 2) p
  let (low, _) := gridRatio (4 * m - below) (e - 2) p
  let (high, _) := gridRatio (4 * m + 2) (e - 2) p
  let reads := fun c =>
    let x := c * unit
    if m % 2 = 0 then decide (low ≤ x ∧ x ≤ high) else decide (low < x ∧ x < high)
  let c := value / unit
  let left := value - c * unit
  let right := (c + 1) * unit - value
  let preferLeft := decide (left < right) || (decide (left = right) && c % 2 == 0)
  if reads c && (preferLeft || !reads (c + 1)) then some c
  else if reads (c + 1) then some (c + 1)
  else none

/-- The shortest numeral that reads back as `m · 2 ^ e`; seventeen digits always suffice. -/
def shortest (m : Nat) (e : Int) : Decimal :=
  if m = 0 then ⟨0, 0⟩
  else
    let top := magnitude m e
    let tries := (List.range 17).findSome? fun n =>
      let p := top - (n + 1 : Nat)
      (onGrid? m e p).map fun c => (⟨c, p⟩ : Decimal)
    (tries.getD ⟨m, e⟩).trim

end Binary64

/-- How numbers are laid out as text. -/
structure DecimalLayout where
  /-- Whether a numeral whose first digit stands for `10 ^ k` is written positionally. -/
  positional : Int → Bool
  /-- What follows the digits of an integral number. -/
  noFraction : String
  infinity : String
  notANumber : String

namespace Decimal

/-- The digits with the point before the digit at `place`, places to the left of the first digit
and to the right of the last filled with zeros. -/
def positional (noFraction : String) (digits : List Char) (place : Int) : List Char :=
  if place ≤ 0 then '0' :: '.' :: List.replicate (-place).toNat '0' ++ digits
  else if digits.length ≤ place then
    digits ++ List.replicate (place.toNat - digits.length) '0' ++ noFraction.toList
  else digits.take place.toNat ++ '.' :: digits.drop place.toNat

/-- An exponent with its sign and at least two digits. -/
def exponentText (k : Int) : List Char :=
  let ds := Nat.toDigits 10 k.natAbs
  (if k < 0 then '-' else '+') :: (if ds.length < 2 then '0' :: ds else ds)

/-- One digit, the point and the other digits if there are any, and the exponent. -/
def scientific (digits : List Char) (k : Int) : List Char :=
  match digits with
  | [] => []
  | [d] => d :: 'e' :: exponentText k
  | d :: rest => d :: '.' :: rest ++ 'e' :: exponentText k

/-- A numeral in a layout. -/
def write (layout : DecimalLayout) (d : Decimal) : List Char :=
  let ds := Nat.toDigits 10 d.digits
  let place : Int := ds.length + d.exponent
  if layout.positional (place - 1) then positional layout.noFraction ds place
  else scientific ds (place - 1)

end Decimal

/-- A number in a layout. -/
def Binary64.write (layout : DecimalLayout) : Binary64 → String
  | .finite s m e =>
    (if s then "-" else "") ++ String.ofList ((Binary64.shortest m e).write layout)
  | .infinite s => (if s then "-" else "") ++ layout.infinity
  | .nan => layout.notANumber

end ApiProto
