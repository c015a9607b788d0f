/-!
# Base64

* `sextet?` — the value of a digit in base sixty-four.
* `decodeBase64?` — the bytes that a text stands for. Characters outside of the alphabet are passed
  over, and padding ends the text.
-/

namespace ApiProto.Text

/-- The value of a digit in base sixty-four. -/
def sextet? (c : Char) : Option Nat :=
  if c.isUpper then some (c.toNat - 'A'.toNat)
  else if c.isLower then some (c.toNat - 'a'.toNat + 26)
  else if c.isDigit then some (c.toNat - '0'.toNat + 52)
  else if c = '+' then some 62
  else if c = '/' then some 63
  else none

/-- Reads digits in groups of four, which stand for three bytes. `filled` is the number of digits of
the group so far, `held` the bits of the last one that belong to no byte yet, and `pads` the number
of padding characters since the last digit. -/
def decodeGroups? (filled held pads : Nat) : List Char → Option (List Nat)
  | [] => if filled = 0 then some [] else none
  | c :: rest =>
    if c = '=' then
      if 2 ≤ filled ∧ 4 ≤ filled + pads + 1 then some []
      else decodeGroups? filled held (if 2 ≤ filled then pads + 1 else pads) rest
    else match sextet? c with
      | none => decodeGroups? filled held pads rest
      | some d =>
        match filled with
        | 0 => decodeGroups? 1 d 0 rest
        | 1 => (decodeGroups? 2 (d % 16) 0 rest).map ((held * 4 + d / 16) :: ·)
        | 2 => (decodeGroups? 3 (d % 4) 0 rest).map ((held * 16 + d / 4) :: ·)
        | _ => (decodeGroups? 0 0 0 rest).map ((held * 64 + d) :: ·)

/-- The bytes that a text stands for; `none` if the last group is incomplete. -/
def decodeBase64? (cs : List Char) : Option (List Nat) := decodeGroups? 0 0 0 cs

end ApiProto.Text
