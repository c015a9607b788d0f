import ApiProto.Text.Cut
import ApiProto.Text.Escape
import ApiProto.Value.Literal

/-!
# Host names

The authority of a URL is checked for two kinds of trouble.

* `bracketFault?` — brackets around something that is no address of the sixth or a later version of
  the internet protocol.
* `deceptiveFault?` — a character that looks like a delimiter of URLs after normalization.
-/

namespace ApiProto.Uri

open Text

/-- Whether a text is an address in four decimal numbers. -/
def isVersion4 (cs : List Char) : Bool :=
  let parts := splitAround '.' cs
  parts.length == 4 && parts.all fun p =>
    !p.isEmpty && p.length ≤ 3 && p.all Char.isDigit && (p.length == 1 || p.head? != some '0') &&
      p.foldl (fun n c => n * 10 + (c.toNat - '0'.toNat)) 0 ≤ 255

/-- Whether a text is one of the groups of an address. -/
def isGroup (cs : List Char) : Bool :=
  !cs.isEmpty && cs.length ≤ 4 && cs.all fun c => (hexValue? c).isSome

/-- Whether groups between colons make up an address: eight of them, or fewer with one gap, which
shows as an empty group inside, and as one more at an end if it stands there. -/
def areGroups (parts : List (List Char)) : Bool :=
  let inner := (parts.drop 1).dropLast
  let first := parts.headD []
  let last := parts.getLastD []
  match inner.countP List.isEmpty with
  | 0 => parts.length == 8 && parts.all isGroup
  | 1 =>
    let before := (inner.takeWhile fun p => !p.isEmpty).length
    let after := inner.length - before - 1
    let high := if first.isEmpty then before else before + 1
    let low := if last.isEmpty then after else after + 1
    (!first.isEmpty || before == 0) && (!last.isEmpty || after == 0) && high + low < 8 &&
      parts.all fun p => p.isEmpty || isGroup p
  | _ => false

/-- Whether a text is an address in eight groups. The last two may be written as an address in four
numbers, and a zone may follow a percent sign. -/
def isVersion6 (cs : List Char) : Bool :=
  let (address, zoned) := match cutFirst '%' cs with
    | some (a, zone) => (a, !zone.isEmpty && !zone.contains '%')
    | none => (cs, true)
  let parts := splitAround ':' address
  let last := parts.getLastD []
  let (parts, tailed) :=
    if last.contains '.' then (parts.dropLast ++ [['0'], ['0']], isVersion4 last)
    else (parts, true)
  zoned && tailed && 3 ≤ (splitAround ':' address).length && parts.length ≤ 9 && areGroups parts

/-- Whether a text is an address of a version to come: the letter v, the version in hexadecimal
digits, a point and more text. -/
def isLaterVersion (cs : List Char) : Bool :=
  match cs with
  | 'v' :: rest =>
    match cutFirst '.' rest with
    | some (version, address) =>
      !version.isEmpty && version.all (fun c => (hexValue? c).isSome) && !address.isEmpty &&
        !address.contains '\n'
    | none => false
  | _ => false

/-- The host of an authority with brackets in it. It follows the last at sign. Its own brackets must
stand at the start and be followed by nothing or by a colon with the port. -/
def bracketedHost? (authority : List Char) : Option (List Char) :=
  let place := afterLast '@' authority
  match cutFirst '[' place with
  | none => some (cutOr ':' place).1
  | some (before, rest) =>
    let (host, after) := cutOr ']' rest
    if before.isEmpty && (after.isEmpty || after.head? == some ':') then some host else none

/-- What is wrong with a host of an authority with brackets in it. -/
def addressFault? (host : List Char) : Option String :=
  if host.head? = some 'v' then
    if isLaterVersion host then none else some "IPvFuture address is invalid"
  else if isVersion4 host then some "An IPv4 address cannot be in brackets"
  else if isVersion6 host then none
  else some (literalText (String.ofList host) ++ " does not appear to be an IPv4 or IPv6 address")

/-- What is wrong with the brackets of an authority: they come in both kinds or not at all. -/
def bracketFault? (authority : List Char) : Option String :=
  match authority.contains '[', authority.contains ']' with
  | false, false => none
  | true, true =>
    match bracketedHost? authority with
    | some host => addressFault? host
    | none => some "Invalid IPv6 URL"
  | _, _ => some "Invalid IPv6 URL"

/-- The characters outside ASCII whose compatibility form contains a delimiter of URLs. -/
def deceptiveCharacters : List Nat := [
  0x2047, 0x2048, 0x2049, 0x2100, 0x2101, 0x2105, 0x2106, 0x2A74, 0xFE13, 0xFE16, 0xFE55, 0xFE56,
  0xFE5F, 0xFE6B, 0xFF03, 0xFF0F, 0xFF1A, 0xFF1F, 0xFF20]

/-- What is wrong with the characters of an authority. -/
def deceptiveFault? (authority : List Char) : Option String :=
  if authority.any fun c => deceptiveCharacters.contains c.toNat then
    some ("netloc '" ++ String.ofList authority ++
      "' contains invalid characters under NFKC normalization")
  else none

end ApiProto.Uri
