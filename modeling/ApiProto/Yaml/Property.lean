import ApiProto.Text.Escape
import ApiProto.Text.Utf8
import ApiProto.Yaml.Cursor
import ApiProto.Yaml.Token

/-!
# Anchors, tags and directives

* `scanName` — the name of an anchor or an alias.
* `scanTag` — a tag: a handle and a suffix.
* `scanDirective` — a line that starts with a percent sign.
-/

namespace ApiProto.Yaml

open Text

/-- Reads the name of an anchor or an alias after its indicator. -/
def scanName (c : Cursor) : Except Fault (String × Cursor) :=
  let (name, c) := c.advance.takeWhile isNameChar
  if name.isEmpty then .error .malformed
  else if isBlankOrEnd c.peek || "?:,]\x7d%@\x60".toList.contains c.peek then
    .ok (String.ofList name, c)
  else .error .malformed

/-! ## Tags -/

/-- A character of the text of a tag, except the percent sign. -/
def isTagChar (c : Char) : Bool := c.isAlphanum || "-;/?:@&=+$,_.!~*'()[]".toList.contains c

/-- Reads encoded bytes, each a percent sign with two hexadecimal digits. -/
def scanBytes : Nat → Cursor → Except Fault (List Nat × Cursor)
  | 0, c => .ok ([], c)
  | n + 1, c =>
    if c.peek == '%' then
      match hexNumber? [c.peekAt 1, c.peekAt 2] with
      | none => .error .malformed
      | some b => do
        let (bs, c) ← scanBytes n (c.advanceBy 3)
        return (b :: bs, c)
    else .ok ([], c)

/-- Decodes bytes, which must be well-formed. -/
def decodeBytes (bytes : List Nat) : Except Fault (List Char) :=
  let cs := decodeUtf8 bytes
  if cs.flatMap utf8Bytes = bytes then .ok cs else .error .malformed

/-- Reads the text of a tag. -/
def scanTagText : Nat → Cursor → Except Fault (List Char × Cursor)
  | 0, c => .ok ([], c)
  | n + 1, c =>
    if c.peek == '%' then do
      let (bytes, c) ← scanBytes (c.left + 1) c
      let ds ← decodeBytes bytes
      let (cs, c) ← scanTagText n c
      return (ds ++ cs, c)
    else if isTagChar c.peek then do
      let (cs, after) ← scanTagText n c.advance
      return (c.peek :: cs, after)
    else .ok ([], c)

/-- Reads the text of a tag, which must not be empty. -/
def scanTagSuffix (c : Cursor) : Except Fault (String × Cursor) := do
  let (cs, after) ← scanTagText (c.left + 1) c
  if after.left = c.left then throw .malformed
  return (String.ofList cs, after)

/-- Reads a handle: one exclamation mark, or two with a name between them. -/
def scanHandle (c : Cursor) : Except Fault (String × Cursor) :=
  if c.peek != '!' then .error .malformed
  else if c.peekAt 1 == ' ' then .ok ("!", c.advance)
  else
    let (name, c) := c.advance.takeWhile isNameChar
    if c.peek == '!' then .ok (String.ofList ('!' :: name ++ ['!']), c.advance)
    else .error .malformed

/-- Reads a tag: its handle, none if it is complete without one, and its suffix. -/
def scanTag (c : Cursor) : Except Fault (Option String × String × Cursor) := do
  let next := c.peekAt 1
  let (handle, suffix, c) ←
    if next == '<' then do
      let (suffix, c) ← scanTagSuffix (c.advanceBy 2)
      if c.peek != '>' then throw .malformed
      pure (none, suffix, c.advance)
    else if isBlankOrEnd next then pure (none, "!", c.advance)
    else do
      let handled := ((c.rest.drop 1).takeWhile fun d => !isSpaceOrEnd d).contains '!'
      let (handle, c) ← if handled then scanHandle c else pure ("!", c.advance)
      let (suffix, c) ← scanTagSuffix c
      pure (some handle, suffix, c)
  if isSpaceOrEnd c.peek then return (handle, suffix, c) else throw .malformed

/-! ## Directives -/

/-- Reads a decimal number. -/
def scanNumber (c : Cursor) : Except Fault (Nat × Cursor) :=
  let (ds, c) := c.takeWhile Char.isDigit
  if ds.isEmpty then .error .malformed
  else .ok (ds.foldl (fun n d => n * 10 + (d.toNat - '0'.toNat)) 0, c)

/-- Reads the version in a directive. -/
def scanVersion (c : Cursor) : Except Fault (Directive × Cursor) := do
  let (major, c) ← scanNumber (c.skipWhile (· == ' '))
  if c.peek != '.' then throw .malformed
  let (_, c) ← scanNumber c.advance
  if isSpaceOrEnd c.peek then return (.version major, c) else throw .malformed

/-- Reads the handle in a directive, and what it stands for. -/
def scanTagDirective (c : Cursor) : Except Fault (Directive × Cursor) := do
  let (handle, c) ← scanHandle (c.skipWhile (· == ' '))
  if c.peek != ' ' then throw .malformed
  let (meaning, c) ← scanTagSuffix (c.skipWhile (· == ' '))
  if isSpaceOrEnd c.peek then return (.tag handle meaning, c) else throw .malformed

/-- Reads a directive to the end of its line. -/
def scanDirective (c : Cursor) : Except Fault (Directive × Cursor) := do
  let (name, c) := c.advance.takeWhile isNameChar
  if name.isEmpty || !isSpaceOrEnd c.peek then throw .malformed
  let (directive, c) ← match String.ofList name with
    | "YAML" => scanVersion c
    | "TAG" => scanTagDirective c
    | _ => pure (Directive.other, c.skipWhile fun d => !isBreakOrEnd d)
  match c.endLine? with
  | some c => return (directive, c)
  | none => throw .malformed

end ApiProto.Yaml
