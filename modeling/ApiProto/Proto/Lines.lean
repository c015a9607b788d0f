import ApiProto.Text.Cut

/-!
# Lines

* `linesOf`, `joinLines` — the lines of a text, and the text of lines.
* `prefixLines` — writes the same text before each line.
* `commentLines` — text as comment lines.
* `block` — a head with an indented body between braces.
-/

namespace ApiProto.Proto

/-- The lines of a text; there is always at least one. -/
def linesOf (cs : List Char) : List (List Char) := Text.splitAround '\n' cs

/-- The text of lines, separated by line ends. -/
def joinLines (lines : List (List Char)) : List Char := ['\n'].intercalate lines

/-- The lines of a text of which the last one, if it ends, is not followed by an empty one. -/
def endedLines (cs : List Char) : List (List Char) :=
  let lines := linesOf cs
  if cs.getLast? = some '\n' then lines.dropLast else lines

/-- Writes `start` before each line, and before empty lines only if `all` (`prefix_lines`). -/
def prefixLines (start : List Char) (all : Bool) (cs : List Char) : List Char :=
  if cs.isEmpty then []
  else joinLines ((endedLines cs).map fun line =>
    if !line.isEmpty || all then start ++ line else [])

/-- A text as comment lines (`comment`). An empty line has no space after the comment mark. -/
def commentLines (cs : List Char) : List Char :=
  joinLines ((linesOf (prefixLines "// ".toList true cs)).map fun line =>
    if line = "// ".toList then "//".toList else line)

/-- A head with a body between braces, on a line of its own (`write_block`). A body starts with a
line end unless it is empty. -/
def block (indent head body : List Char) : List Char :=
  let inner := prefixLines indent false body
  '\n' :: head ++ " \x7b".toList ++ inner ++ (if inner.isEmpty then [] else ['\n']) ++
    "\x7d".toList

end ApiProto.Proto
