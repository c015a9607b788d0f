/-!
# Places in a text

* `Cursor` — a place in a text: what follows, the number of characters in it, line and column.
* `Cursor.advance` — one character further.
* `Cursor.lineBreak` — takes a line end. A carriage return and a line feed together are one, and
  all line ends but the line and paragraph separators are taken for a line feed.
* `Cursor.atSeparator` — whether a mark between documents comes next.
-/

namespace ApiProto.Yaml

/-- The character that stands for the end of the text. -/
def endMark : Char := Char.ofNat 0

/-- A line end. -/
def isBreak (c : Char) : Bool :=
  c == '\n' || c == '\r' || c.toNat == 0x85 || c.toNat == 0x2028 || c.toNat == 0x2029

/-- A line end, or the end of the text. -/
def isBreakOrEnd (c : Char) : Bool := isBreak c || c == endMark

/-- A space, a line end, or the end of the text. -/
def isSpaceOrEnd (c : Char) : Bool := c == ' ' || isBreakOrEnd c

/-- A space, a tab, a line end, or the end of the text. -/
def isBlankOrEnd (c : Char) : Bool := c == '\t' || isSpaceOrEnd c

/-- A character of names: a letter, a digit, a hyphen or an underscore. -/
def isNameChar (c : Char) : Bool := c.isAlphanum || c == '-' || c == '_'

/-- A place in a text. -/
structure Cursor where
  rest : List Char
  /-- The number of characters that are left. -/
  left : Nat
  line : Nat
  column : Nat
deriving Inhabited, Repr

namespace Cursor

/-- The start of a text. -/
def start (text : List Char) : Cursor := ⟨text, text.length, 0, 0⟩

/-- The next character. -/
def peek (c : Cursor) : Char := c.rest.headD endMark

/-- The character `n` places further on. -/
def peekAt (c : Cursor) (n : Nat) : Char := c.rest.getD n endMark

/-- One character further. The byte order mark takes no column. -/
def advance (c : Cursor) : Cursor :=
  match c.rest with
  | [] => c
  | d :: rest =>
    if isBreak d && !(d == '\r' && rest.head? == some '\n') then
      ⟨rest, c.left - 1, c.line + 1, 0⟩
    else if d.toNat == 0xFEFF then ⟨rest, c.left - 1, c.line, c.column⟩
    else ⟨rest, c.left - 1, c.line, c.column + 1⟩

/-- A number of characters further. -/
def advanceBy (c : Cursor) : Nat → Cursor
  | 0 => c
  | n + 1 => c.advance.advanceBy n

/-- Takes the characters from here that satisfy `p`. -/
def takeWhile (p : Char → Bool) (c : Cursor) : List Char × Cursor :=
  let cs := c.rest.takeWhile p
  (cs, c.advanceBy cs.length)

/-- Passes over the characters from here that satisfy `p`. -/
def skipWhile (p : Char → Bool) (c : Cursor) : Cursor := (c.takeWhile p).2

/-- Takes a line end: what it is taken for, nothing if there is none. -/
def lineBreak (c : Cursor) : List Char × Cursor :=
  match c.rest with
  | '\r' :: '\n' :: _ => (['\n'], c.advanceBy 2)
  | d :: _ =>
    if d == '\n' || d == '\r' || d.toNat == 0x85 then (['\n'], c.advance)
    else if isBreak d then ([d], c.advance)
    else ([], c)
  | [] => ([], c)

/-- Whether the next three characters are a given one and a blank follows. -/
def atMark (c : Cursor) (mark : Char) : Bool :=
  c.rest.take 3 == [mark, mark, mark] && isBlankOrEnd (c.peekAt 3)

/-- Whether a mark between documents comes next. -/
def atSeparator (c : Cursor) : Bool := c.atMark '-' || c.atMark '.'

/-- Passes over spaces and a comment. -/
def skipComment (c : Cursor) : Cursor :=
  let c := c.skipWhile (· == ' ')
  if c.peek == '#' then c.skipWhile fun d => !isBreakOrEnd d else c

/-- Passes over the rest of a line that holds nothing but spaces and a comment. -/
def endLine? (c : Cursor) : Option Cursor :=
  let c := c.skipComment
  if isBreakOrEnd c.peek then some c.lineBreak.2 else none

end Cursor

end ApiProto.Yaml
