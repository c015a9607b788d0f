/-!
# UTF-8

* `utf8Bytes` — the encoding of a character.
* `decodeUtf8` — decodes bytes and puts U+FFFD in place of each maximal ill-formed piece: a lead
  byte together with the well-formed continuation bytes that follow it, or a single stray byte.
-/

namespace ApiProto.Text

/-- The character that stands for undecodable bytes. -/
def replacement : Char := Char.ofNat 0xFFFD

/-- The UTF-8 encoding of a character. -/
def utf8Bytes (c : Char) : List Nat :=
  let n := c.toNat
  if n < 0x80 then [n]
  else if n < 0x800 then [0xC0 + n / 0x40, 0x80 + n % 0x40]
  else if n < 0x10000 then [0xE0 + n / 0x1000, 0x80 + n / 0x40 % 0x40, 0x80 + n % 0x40]
  else [0xF0 + n / 0x40000, 0x80 + n / 0x1000 % 0x40, 0x80 + n / 0x40 % 0x40, 0x80 + n % 0x40]

/-- The bounds of the second byte after the lead byte `b`, and the number of further continuation
bytes; `none` if `b` does not start a multi-byte sequence. -/
def continuation? (b : Nat) : Option (Nat × Nat × Nat) :=
  if b < 0xC2 then none
  else if b < 0xE0 then some (0x80, 0xBF, 0)
  else if b = 0xE0 then some (0xA0, 0xBF, 1)
  else if b = 0xED then some (0x80, 0x9F, 1)
  else if b < 0xF0 then some (0x80, 0xBF, 1)
  else if b = 0xF0 then some (0x90, 0xBF, 2)
  else if b < 0xF4 then some (0x80, 0xBF, 2)
  else if b = 0xF4 then some (0x80, 0x8F, 2)
  else none

/-- Where a decoder stands: between characters, or inside one whose bits so far are `bits`, whose
next byte must lie between `low` and `high`, and which has `more` bytes after that. -/
inductive DecodeState where
  | between
  | inside (bits low high more : Nat)

/-- Starts a character with the byte `b`. -/
def startCharacter (b : Nat) : List Char × DecodeState :=
  if b < 0x80 then ([Char.ofNat b], .between)
  else match continuation? b with
    | some (low, high, more) =>
      ([], .inside (if more = 0 then b % 0x20 else if more = 1 then b % 0x10 else b % 8) low high
        more)
    | none => ([replacement], .between)

/-- Takes one byte: the characters that it completes, and the next state. -/
def decodeStep : DecodeState → Nat → List Char × DecodeState
  | .between, b => startCharacter b
  | .inside bits low high more, b =>
    if low ≤ b ∧ b ≤ high then
      let bits := bits * 0x40 + b % 0x40
      match more with
      | 0 => ([Char.ofNat bits], .between)
      | more + 1 => ([], .inside bits 0x80 0xBF more)
    else
      let (cs, state) := startCharacter b
      (replacement :: cs, state)

/-- Decodes bytes from a given state. -/
def decodeUtf8From : DecodeState → List Nat → List Char
  | .between, [] => []
  | .inside .., [] => [replacement]
  | state, b :: rest =>
    let (cs, state) := decodeStep state b
    cs ++ decodeUtf8From state rest

/-- Decodes bytes as UTF-8, with U+FFFD for what is ill-formed. -/
def decodeUtf8 (bytes : List Nat) : List Char := decodeUtf8From .between bytes

end ApiProto.Text
