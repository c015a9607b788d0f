import ApiProto.Text.Escape
import ApiProto.Text.Utf8

/-!
# Percent encoding

* `percentEncode` — letters, digits and a few marks stand for themselves; every byte of any other
  character becomes a percent sign with two hexadecimal digits.
* `percentDecode` — undoes it. A percent sign without two digits stands for itself, and bytes that
  are not UTF-8 give U+FFFD.
* `percentWellFormed` — every percent sign is followed by two hexadecimal digits.
-/

namespace ApiProto.Uri

open Text

/-- Characters that need no encoding in a path. -/
def isUnreserved (c : Char) : Bool := c.isAlphanum || "_.-~/".toList.contains c

/-- The encoded form of a character of a path. -/
def percentEncodeChar (c : Char) : List Char :=
  if isUnreserved c then [c]
  else (utf8Bytes c).flatMap fun b => ['%', upperHexDigit (b / 16), upperHexDigit b]

/-- Encodes a path. -/
def percentEncode (cs : List Char) : List Char := cs.flatMap percentEncodeChar

/-- The byte that two hexadecimal digits stand for. -/
def hexByte? (a b : Char) : Option Nat := hexNumber? [a, b]

/-- The bytes of an ASCII text in which percent signs introduce encoded bytes. -/
def percentBytes : List Char → List Nat
  | [] => []
  | '%' :: a :: b :: rest =>
    match hexByte? a b with
    | some n => n :: percentBytes rest
    | none => '%'.toNat :: percentBytes (a :: b :: rest)
  | c :: rest => c.toNat :: percentBytes rest

/-- Decodes a text after the ASCII characters `run`, which are given in reverse. Each maximal run of
ASCII characters is decoded by itself. -/
def percentDecodeFrom (run : List Char) : List Char → List Char
  | [] => decodeUtf8 (percentBytes run.reverse)
  | c :: rest =>
    if c.toNat < 0x80 then percentDecodeFrom (c :: run) rest
    else decodeUtf8 (percentBytes run.reverse) ++ c :: percentDecodeFrom [] rest

/-- Decodes a text. -/
def percentDecode (cs : List Char) : List Char := percentDecodeFrom [] cs

/-- Whether every percent sign introduces an encoded byte. -/
def percentWellFormed : List Char → Bool
  | [] => true
  | '%' :: rest =>
    (match rest with
    | a :: b :: _ => (hexByte? a b).isSome
    | _ => false) && percentWellFormed rest
  | _ :: rest => percentWellFormed rest

/-- Decodes a value of a query, where a plus sign stands for a space; `none` if a percent sign does
not introduce an encoded byte. -/
def queryDecode? (cs : List Char) : Option (List Char) :=
  if percentWellFormed cs then
    some (percentDecode (cs.map fun c => if c = '+' then ' ' else c))
  else none

end ApiProto.Uri
