import ApiProto.Yaml.Property
import ApiProto.Yaml.Scalar

/-!
# Tokens of a text

A key of a mapping is only recognized by the colon after it. So the places where one may start are
kept, at most one for each level of nested brackets, and the tokens that mark a key are put before
it when its colon comes. Blocks start and end where the indentation changes.

* `Lexer` — the tokens so far, and what decides the next one.
* `tokens` — the tokens of a text.
-/

namespace ApiProto.Yaml

/-- A place where a key may start. -/
structure PossibleKey where
  /-- The number of tokens before it. -/
  token : Nat
  /-- Whether there must be a key, because a block mapping goes on here. -/
  required : Bool
  place : Cursor
deriving Inhabited, Repr

/-- The state of reading tokens. -/
structure Lexer where
  cursor : Cursor
  /-- The tokens so far, the last one first. -/
  reversed : List Token
  count : Nat
  /-- The number of open brackets and braces. -/
  flow : Nat
  /-- The column of the innermost block. -/
  indent : Int
  /-- The columns of the blocks around it. -/
  indents : List Int
  /-- Whether a key may start here. -/
  keyAllowed : Bool
  /-- The possible keys by the number of brackets around them. -/
  keys : List (Nat × PossibleKey)
deriving Inhabited, Repr

namespace Lexer

/-- The start of a text. -/
def start (text : List Char) : Lexer := ⟨Cursor.start text, [], 0, 0, -1, [], true, []⟩

/-- Appends a token. -/
def push (s : Lexer) (t : Token) : Lexer :=
  { s with reversed := t :: s.reversed, count := s.count + 1 }

/-- Puts a token after the first `n`. -/
def insert (s : Lexer) (n : Nat) (t : Token) : Lexer :=
  let later := s.count - n
  { s with
    reversed := s.reversed.take later ++ t :: s.reversed.drop later
    count := s.count + 1 }

/-- Whether a possible key is out of reach: keys stay on one line and have at most 1024
characters. -/
def isStale (s : Lexer) (k : PossibleKey) : Bool :=
  k.place.line != s.cursor.line || 1024 < k.place.left - s.cursor.left

/-- Drops the possible keys that are out of reach. -/
def dropStale (s : Lexer) : Except Fault Lexer :=
  if s.keys.any fun (_, k) => s.isStale k && k.required then .error .malformed
  else .ok { s with keys := s.keys.filter fun (_, k) => !s.isStale k }

/-- Drops the possible key at the present level. -/
def dropKey (s : Lexer) : Except Fault Lexer :=
  match s.keys.lookup s.flow with
  | none => .ok s
  | some k =>
    if k.required then .error .malformed
    else .ok { s with keys := s.keys.filter fun (level, _) => level != s.flow }

/-- Notes that a key may start here. -/
def saveKey (s : Lexer) : Except Fault Lexer :=
  if s.keyAllowed then do
    let required := s.flow == 0 && s.indent == s.cursor.column
    let s ← s.dropKey
    return { s with keys := (s.flow, ⟨s.count, required, s.cursor⟩) :: s.keys }
  else .ok s

/-- Ends the blocks whose column is larger than `column`; there are at most as many as columns. -/
def unwind (column : Int) : Nat → Lexer → Lexer
  | 0, s => s
  | n + 1, s =>
    if s.flow == 0 && column < s.indent then
      unwind column n
        { s.push .blockEnd with indent := s.indents.headD (-1), indents := s.indents.drop 1 }
    else s

/-- Ends the blocks whose column is larger than `column`. -/
def unwindTo (s : Lexer) (column : Int) : Lexer := unwind column (s.indents.length + 1) s

/-- Whether a block at `column` lies inside the present one. -/
def opensBlock (s : Lexer) (column : Nat) : Bool := s.indent < column

/-- Starts a block. -/
def openBlock (s : Lexer) (column : Nat) : Lexer :=
  { s with indent := column, indents := s.indent :: s.indents }

/-- Passes over one character. -/
def skip (s : Lexer) : Lexer := { s with cursor := s.cursor.advance }

/-- Allows or forbids a key to start. -/
def allowKey (s : Lexer) (allowed : Bool) : Lexer := { s with keyAllowed := allowed }

/-- Passes over spaces, comments and line ends. A key may start on a new line of a block. -/
def skipToToken : Nat → Lexer → Lexer
  | 0, s => s
  | n + 1, s =>
    let c := s.cursor.skipComment
    if isBreak c.peek then
      skipToToken n { s with cursor := c.lineBreak.2, keyAllowed := s.keyAllowed || s.flow == 0 }
    else { s with cursor := c }

/-! ## Tokens -/

/-- A mark between documents. -/
def documentMark (s : Lexer) (t : Token) : Except Fault Lexer := do
  let s ← (s.unwindTo (-1)).dropKey
  return { (s.allowKey false).push t with cursor := s.cursor.advanceBy 3 }

/-- A directive. -/
def directive (s : Lexer) : Except Fault Lexer := do
  let s ← (s.unwindTo (-1)).dropKey
  let (d, c) ← scanDirective s.cursor
  return { (s.allowKey false).push (.directive d) with cursor := c }

/-- An opening bracket or brace. -/
def flowStart (s : Lexer) (t : Token) : Except Fault Lexer := do
  let s ← s.saveKey
  return ({ s with flow := s.flow + 1, keyAllowed := true }.push t).skip

/-- A closing bracket or brace. -/
def flowEnd (s : Lexer) (t : Token) : Except Fault Lexer := do
  let s ← s.dropKey
  return ({ s with flow := s.flow - 1, keyAllowed := false }.push t).skip

/-- A comma. -/
def flowEntry (s : Lexer) : Except Fault Lexer := do
  let s ← (s.allowKey true).dropKey
  return (s.push .flowEntry).skip

/-- Starts a block with a token if the present column lies inside the present block. Outside of
brackets this is only allowed where a key may start. -/
def startBlock (s : Lexer) (t : Token) : Except Fault Lexer :=
  if s.flow != 0 then .ok s
  else if !s.keyAllowed then .error .malformed
  else if s.opensBlock s.cursor.column then .ok ((s.openBlock s.cursor.column).push t)
  else .ok s

/-- The hyphen of a list. -/
def blockEntry (s : Lexer) : Except Fault Lexer := do
  let s ← s.startBlock .blockSequenceStart
  let s ← (s.allowKey true).dropKey
  return (s.push .blockEntry).skip

/-- The question mark before a key. -/
def explicitKey (s : Lexer) : Except Fault Lexer := do
  let s ← s.startBlock .blockMappingStart
  let s ← (s.allowKey (s.flow == 0)).dropKey
  return (s.push .key).skip

/-- The colon before a value. If a key may have started at this level, it did. -/
def valueMark (s : Lexer) : Except Fault Lexer := do
  match s.keys.lookup s.flow with
  | some k =>
    let s := { s with keys := s.keys.filter fun (level, _) => level != s.flow }
    let s := s.insert k.token .key
    let column := k.place.column
    let s := if s.flow == 0 && s.opensBlock column then
        (s.openBlock column).insert k.token .blockMappingStart
      else s
    return ((s.allowKey false).push .value).skip
  | none =>
    let s ← s.startBlock .blockMappingStart
    let s ← (s.allowKey (s.flow == 0)).dropKey
    return (s.push .value).skip

/-- An anchor or an alias. -/
def nameToken (s : Lexer) (make : String → Token) : Except Fault Lexer := do
  let s ← s.saveKey
  let (name, c) ← scanName s.cursor
  return { (s.allowKey false).push (make name) with cursor := c }

/-- A tag. -/
def tagToken (s : Lexer) : Except Fault Lexer := do
  let s ← s.saveKey
  let (handle, suffix, c) ← scanTag s.cursor
  return { (s.allowKey false).push (.tag handle suffix) with cursor := c }

/-- A block scalar. A key may follow it. -/
def blockScalar (s : Lexer) (folded : Bool) : Except Fault Lexer := do
  let s ← (s.allowKey true).dropKey
  let (text, c) ← scanBlock folded s.indent s.cursor
  return { s.push (.scalar false (String.ofList text)) with cursor := c }

/-- A quoted scalar. -/
def quotedScalar (s : Lexer) (double : Bool) : Except Fault Lexer := do
  let s ← s.saveKey
  let (text, c) ← scanQuoted double s.cursor
  return { (s.allowKey false).push (.scalar false (String.ofList text)) with cursor := c }

/-- A plain scalar. -/
def plainScalar (s : Lexer) : Except Fault Lexer := do
  let s ← s.saveKey
  let (text, c, allowed) := scanPlain (s.flow != 0) (s.indent + 1).toNat s.cursor
  return { (s.allowKey allowed).push (.scalar true (String.ofList text)) with cursor := c }

/-- Whether a plain scalar may start here. -/
def startsPlain (s : Lexer) : Bool :=
  let c := s.cursor.peek
  (!isBlankOrEnd c && !"-?:,[]\x7b\x7d#&*!|>'\"%@\x60".toList.contains c) ||
    (!isBlankOrEnd (s.cursor.peekAt 1) &&
      (c == '-' || (s.flow == 0 && (c == '?' || c == ':'))))

/-- Reads the next token, which starts with the next character. -/
def token (s : Lexer) : Except Fault Lexer :=
  let c := s.cursor.peek
  let blankNext := isBlankOrEnd (s.cursor.peekAt 1)
  let outside := s.flow == 0
  if c == '%' && s.cursor.column == 0 then s.directive
  else if s.cursor.column == 0 && s.cursor.atMark '-' then s.documentMark .documentStart
  else if s.cursor.column == 0 && s.cursor.atMark '.' then s.documentMark .documentEnd
  else if c == '[' then s.flowStart .flowSequenceStart
  else if c == '\x7b' then s.flowStart .flowMappingStart
  else if c == ']' then s.flowEnd .flowSequenceEnd
  else if c == '\x7d' then s.flowEnd .flowMappingEnd
  else if c == ',' then s.flowEntry
  else if c == '-' && blankNext then s.blockEntry
  else if c == '?' && (!outside || blankNext) then s.explicitKey
  else if c == ':' && (!outside || blankNext) then s.valueMark
  else if c == '*' then s.nameToken .alias
  else if c == '&' then s.nameToken .anchor
  else if c == '!' then s.tagToken
  else if c == '|' && outside then s.blockScalar false
  else if c == '>' && outside then s.blockScalar true
  else if c == '\'' then s.quotedScalar false
  else if c == '"' then s.quotedScalar true
  else if s.startsPlain then s.plainScalar
  else .error .malformed

/-- Reads tokens to the end of the text. -/
def run : Nat → Lexer → Except Fault Lexer
  | 0, _ => .error .malformed
  | n + 1, s => do
    let s ← (skipToToken (s.cursor.left + 1) s).dropStale
    let s := s.unwindTo s.cursor.column
    if s.cursor.rest.isEmpty then (s.unwindTo (-1)).dropKey
    else
      let s ← s.token
      s.run n

end Lexer

/-- A character that may stand in a text. -/
def isAllowed (c : Char) : Bool :=
  let n := c.toNat
  n == 0x09 || n == 0x0A || n == 0x0D || (0x20 ≤ n && n ≤ 0x7E) || n == 0x85 ||
    (0xA0 ≤ n && n ≤ 0xFFFD) || 0x10000 ≤ n

/-- The tokens of a text. A byte order mark at the start is passed over. Every token takes up some
of the text. -/
def tokens (text : String) : Except Fault (List Token) := do
  let cs := text.toList
  if !cs.all isAllowed then throw .malformed
  let s := Lexer.start cs
  let s := if cs.head?.any fun c => c.toNat == 0xFEFF then s.skip else s
  let s ← s.run (cs.length + 2)
  return s.reversed.reverse

end ApiProto.Yaml
