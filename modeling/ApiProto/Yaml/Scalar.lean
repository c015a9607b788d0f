import ApiProto.Text.Escape
import ApiProto.Yaml.Cursor
import ApiProto.Yaml.Token

/-!
# Scalars

* `scanPlain` — a scalar without quotes. It ends at an indicator, and line ends inside it are
  folded.
* `scanQuoted` — a scalar between apostrophes or quotes, the latter with escapes.
* `scanBlock` — a literal or folded scalar on lines of its own, with its indentation taken off.
-/

namespace ApiProto.Yaml

/-- The text of folded line ends: a single line feed is a space, and of several the first is
dropped. Other line ends are kept. -/
def foldBreaks (first breaks : List Char) : List Char :=
  if first ≠ ['\n'] then first ++ breaks
  else if breaks.isEmpty then [' '] else breaks

/-! ## Plain scalars -/

/-- The characters of a plain scalar up to a blank or an indicator. -/
def plainRun (flow : Bool) : List Char → List Char
  | [] => []
  | c :: rest =>
    let next := rest.headD endMark
    if isBlankOrEnd c || (flow && ",?[]\x7b\x7d".toList.contains c) ||
        (c == ':' && (isBlankOrEnd next || (flow && ",[]\x7b\x7d".toList.contains next))) then []
    else c :: plainRun flow rest

/-- The space between two runs of a plain scalar: its text, the place after it, and whether it
contains a line end. -/
structure Gap where
  text : List Char
  after : Cursor
  broken : Bool

/-- Passes over line ends and spaces inside a plain scalar; `none` if a mark between documents
follows a line end, in which case the scalar ends there. -/
def plainBreaks : Nat → Cursor → List Char → Cursor × Option (List Char)
  | 0, c, breaks => (c, some breaks)
  | n + 1, c, breaks =>
    if c.peek == ' ' then plainBreaks n c.advance breaks
    else if isBreak c.peek then
      let (b, c) := c.lineBreak
      if c.atSeparator then (c, none) else plainBreaks n c (breaks ++ b)
    else (c, some breaks)

/-- The space after a run of a plain scalar. -/
def plainGap (c : Cursor) : Gap :=
  let (spaces, c) := c.takeWhile (· == ' ')
  if isBreak c.peek then
    let (first, c) := c.lineBreak
    if c.atSeparator then ⟨[], c, true⟩
    else match plainBreaks (c.left + 1) c [] with
      | (c, some breaks) => ⟨foldBreaks first breaks, c, true⟩
      | (c, none) => ⟨[], c, true⟩
  else ⟨spaces, c, false⟩

/-- Reads a plain scalar, having read `text`, with the space `gap` before the next run. The result
says whether a simple key may follow. -/
def scanPlainFrom (flow : Bool) (indent : Nat) :
    Nat → Cursor → List Char → List Char → Bool → List Char × Cursor × Bool
  | 0, c, text, _, allowed => (text, c, allowed)
  | n + 1, c, text, gap, allowed =>
    if c.peek == '#' then (text, c, allowed)
    else
      let run := plainRun flow c.rest
      if run.isEmpty then (text, c, allowed)
      else
        let text := text ++ gap ++ run
        let next := plainGap (c.advanceBy run.length)
        if next.text.isEmpty || next.after.peek == '#' ||
            (!flow && next.after.column < indent) then (text, next.after, next.broken)
        else scanPlainFrom flow indent n next.after text next.text next.broken

/-- Reads a plain scalar: its text, the place after it, and whether a simple key may follow. -/
def scanPlain (flow : Bool) (indent : Nat) (c : Cursor) : List Char × Cursor × Bool :=
  scanPlainFrom flow indent (c.left + 1) c [] [] false

/-! ## Quoted scalars -/

/-- The characters for letters after a backslash. -/
def escapes : List (Char × Nat) := [
  ('0', 0x00), ('a', 0x07), ('b', 0x08), ('t', 0x09), ('\t', 0x09), ('n', 0x0A), ('v', 0x0B),
  ('f', 0x0C), ('r', 0x0D), ('e', 0x1B), (' ', 0x20), ('"', 0x22), ('\\', 0x5C), ('/', 0x2F),
  ('N', 0x85), ('_', 0xA0), ('L', 0x2028), ('P', 0x2029)]

/-- The number of hexadecimal digits after letters after a backslash. -/
def escapeLengths : List (Char × Nat) := [('x', 2), ('u', 4), ('U', 8)]

/-- Passes over line ends and blanks inside a quoted scalar, and gives the line ends. -/
def quotedBreaks : Nat → Cursor → Except Fault (List Char × Cursor)
  | 0, _ => .error .malformed
  | n + 1, c =>
    if c.atSeparator then .error .malformed
    else
      let c := c.skipWhile fun d => d == ' ' || d == '\t'
      if isBreak c.peek then do
        let (b, c) := c.lineBreak
        let (breaks, c) ← quotedBreaks n c
        return (b ++ breaks, c)
      else .ok ([], c)

/-- The number that hexadecimal digits at the start of a text denote. -/
def hexAt? (length : Nat) (cs : List Char) : Option Nat :=
  let ds := cs.take length
  if ds.length = length then Text.hexNumber? ds else none

/-- The code of the second half of a surrogate pair, if it comes next. -/
def lowHalf? (cs : List Char) : Option Nat :=
  match cs with
  | '\\' :: 'u' :: rest => (hexAt? 4 rest).filter Text.isLowHalf
  | _ => none

/-- Reads what stands after a backslash. The two halves of a surrogate pair are one character. -/
def scanEscape (c : Cursor) : Except Fault (List Char × Cursor) :=
  let d := c.peek
  match escapes.lookup d, escapeLengths.lookup d with
  | some code, _ => .ok ([Char.ofNat code], c.advance)
  | none, some length =>
    let c := c.advance
    match hexAt? length c.rest with
    | none => .error .malformed
    | some code =>
      let c := c.advanceBy length
      if 0x110000 ≤ code then .error (.meaningless "chr() arg not in range(0x110000)")
      else match if Text.isHighHalf code then lowHalf? c.rest else none with
        | some low => .ok ([Text.joinHalves code low], c.advanceBy 6)
        | none => .ok ([Text.characterOf code], c)
  | none, none =>
    if isBreak d then
      let c := c.lineBreak.2
      quotedBreaks (c.left + 1) c
    else .error .malformed

/-- Reads the characters of a quoted scalar up to a blank or its end. -/
def quotedRun (double : Bool) : Nat → Cursor → Except Fault (List Char × Cursor)
  | 0, c => .ok ([], c)
  | n + 1, c =>
    let d := c.peek
    if isBlankOrEnd d then .ok ([], c)
    else if d == '\'' && !double then
      if c.peekAt 1 == '\'' then do
        let (cs, c) ← quotedRun double n (c.advanceBy 2)
        return ('\'' :: cs, c)
      else .ok ([], c)
    else if d == '"' && double then .ok ([], c)
    else if d == '\\' && double then do
      let (e, c) ← scanEscape c.advance
      let (cs, c) ← quotedRun double n c
      return (e ++ cs, c)
    else do
      let (cs, c) ← quotedRun double n c.advance
      return (d :: cs, c)

/-- Reads blanks inside a quoted scalar; line ends are folded. -/
def quotedGap (c : Cursor) : Except Fault (List Char × Cursor) :=
  let (blanks, c) := c.takeWhile fun d => d == ' ' || d == '\t'
  if c.peek == endMark then .error .malformed
  else if isBreak c.peek then do
    let (first, c) := c.lineBreak
    let (breaks, c) ← quotedBreaks (c.left + 1) c
    return (foldBreaks first breaks, c)
  else .ok (blanks, c)

/-- Reads a quoted scalar after its opening mark. -/
def scanQuotedFrom (double : Bool) : Nat → Cursor → Except Fault (List Char × Cursor)
  | 0, _ => .error .malformed
  | n + 1, c => do
    let (run, c) ← quotedRun double (c.left + 1) c
    if c.peek == (if double then '"' else '\'') then return (run, c.advance)
    else
      let (gap, c) ← quotedGap c
      let (cs, c) ← scanQuotedFrom double n c
      return (run ++ gap ++ cs, c)

/-- Reads a quoted scalar: its text and the place after it. -/
def scanQuoted (double : Bool) (c : Cursor) : Except Fault (List Char × Cursor) :=
  scanQuotedFrom double (c.left + 1) c.advance

/-! ## Block scalars -/

/-- What happens to the line ends at the end of a block scalar. -/
inductive Chomping where
  /-- The last one is kept. -/
  | clip
  /-- All are dropped. -/
  | strip
  /-- All are kept. -/
  | keep
deriving DecidableEq, Inhabited, Repr

/-- The chomping that a sign asks for. -/
def chompingOf? : Char → Option Chomping
  | '+' => some .keep
  | '-' => some .strip
  | _ => none

/-- Reads an indentation indicator, a digit from one to nine. -/
def blockIncrement (c : Cursor) : Except Fault (Option Nat × Cursor) :=
  if c.peek == '0' then .error .malformed
  else if c.peek.isDigit then .ok (some (c.peek.toNat - '0'.toNat), c.advance)
  else .ok (none, c)

/-- Reads the indicators of a block scalar, a sign and a digit in any order. -/
def blockIndicators (c : Cursor) : Except Fault (Chomping × Option Nat × Cursor) := do
  let (chomping, increment, c) ← match chompingOf? c.peek with
    | some chomping => do
      let (increment, c) ← blockIncrement c.advance
      pure (chomping, increment, c)
    | none => do
      let (increment, c) ← blockIncrement c
      match if increment.isSome then chompingOf? c.peek else none with
      | some chomping => pure (chomping, increment, c.advance)
      | none => pure (Chomping.clip, increment, c)
  if isSpaceOrEnd c.peek then return (chomping, increment, c) else throw .malformed

/-- Passes over spaces as long as the column is less than `indent`. -/
def skipIndent (indent : Nat) : Nat → Cursor → Cursor
  | 0, c => c
  | n + 1, c => if c.column < indent && c.peek == ' ' then skipIndent indent n c.advance else c

/-- Passes over empty lines before a line of a block scalar, and gives their line ends. -/
def blockBreaks (indent : Nat) : Nat → Cursor → List Char × Cursor
  | 0, c => ([], c)
  | n + 1, c =>
    let c := skipIndent indent indent c
    if isBreak c.peek then
      let (b, c) := c.lineBreak
      let (breaks, c) := blockBreaks indent n c
      (b ++ breaks, c)
    else ([], c)

/-- Passes over the empty lines at the start of a block scalar: their line ends, and the largest
column that was reached. -/
def blockStart : Nat → Cursor → Nat → List Char × Nat × Cursor
  | 0, c, column => ([], column, c)
  | n + 1, c, column =>
    if c.peek == ' ' then
      let c := c.advance
      blockStart n c (max column c.column)
    else if isBreak c.peek then
      let (b, c) := c.lineBreak
      let (breaks, column, c) := blockStart n c column
      (b ++ breaks, column, c)
    else ([], column, c)

/-- The text of the line end between two lines of a block scalar. A folded scalar joins lines that
do not start with a blank by a space. -/
def blockJoin (folded : Bool) (lineBreak breaks : List Char) (before after : Char) : List Char :=
  let blank := fun c => c == ' ' || c == '\t'
  if folded && lineBreak == ['\n'] && !blank before && !blank after then
    if breaks.isEmpty then [' '] else []
  else lineBreak

/-- Reads the lines of a block scalar after the line ends `breaks`. -/
def blockLines (folded : Bool) (chomping : Chomping) (indent : Nat) :
    Nat → Cursor → List Char → List Char × Cursor
  | 0, c, _ => ([], c)
  | n + 1, c, breaks =>
    let first := c.peek
    let (line, c) := c.takeWhile fun d => !isBreakOrEnd d
    let (lineBreak, c) := c.lineBreak
    let (next, c) := blockBreaks indent (c.left + 1) c
    if c.column == indent && c.peek != endMark then
      let (cs, c') := blockLines folded chomping indent n c next
      (breaks ++ line ++ blockJoin folded lineBreak next first c.peek ++ cs, c')
    else
      let tail := match chomping with
        | .strip => []
        | .clip => lineBreak
        | .keep => lineBreak ++ next
      (breaks ++ line ++ tail, c)

/-- Reads a block scalar inside a block of indentation `indent`: its text and the place after
it. -/
def scanBlock (folded : Bool) (indent : Int) (c : Cursor) : Except Fault (List Char × Cursor) := do
  let (chomping, increment, c) ← blockIndicators c.advance
  match c.endLine? with
  | none => throw .malformed
  | some c =>
    let least := (max (indent + 1) 1).toNat
    let (indent, breaks, c) := match increment with
      | some k =>
        let indent := least + k - 1
        let (breaks, c) := blockBreaks indent (c.left + 1) c
        (indent, breaks, c)
      | none =>
        let (breaks, column, c) := blockStart (c.left + 1) c 0
        (max least column, breaks, c)
    if c.column == indent && c.peek != endMark then
      return blockLines folded chomping indent (c.left + 1) c breaks
    else
      return (if chomping = .keep then breaks else [], c)

end ApiProto.Yaml
