import ApiProto.Text.Cut

/-!
# File paths

* `segments` — the parts of a path between slashes.
* `normalize` — a path without empty segments, `.` and, as far as possible, `..`.
* `directory`, `baseName` — a path cut at its last slash.
* `join` — a path seen from a directory.
* `splitExtension` — a path cut before its extension.
* `absolute` — a path seen from a directory, in normal form.
-/

namespace ApiProto.Uri

open Text

/-- The parts of a path between slashes. -/
def segments (path : List Char) : List (List Char) := splitAround '/' path

/-- The path of segments. -/
def joinSegments (parts : List (List Char)) : List Char := ['/'].intercalate parts

/-- Takes one more segment; `kept` are the segments so far in reverse. A step upwards removes the
segment before it, is dropped at the root, and stays at the start of a relative path. -/
def normalizeStep (rooted : Bool) (kept : List (List Char)) (part : List Char) :
    List (List Char) :=
  if part = [] ∨ part = ['.'] then kept
  else if part = ['.', '.'] then
    match kept with
    | [] => if rooted then [] else [part]
    | last :: before => if last = ['.', '.'] then part :: kept else before
  else part :: kept

/-- The slashes at the start of a normalized path: exactly two are kept, more count as one. -/
def leadingSlashes (path : List Char) : List Char :=
  match (path.takeWhile (· == '/')).length with
  | 0 => []
  | 2 => ['/', '/']
  | _ => ['/']

/-- A path without empty segments, `.` and, as far as possible, `..`. -/
def normalize (path : List Char) : List Char :=
  let start := leadingSlashes path
  let kept := (segments path).foldl (normalizeStep (!start.isEmpty)) []
  let result := start ++ joinSegments kept.reverse
  if result.isEmpty then ['.'] else result

/-- What comes before the last slash of a path. The slashes before it are dropped unless nothing
else is there. -/
def directory (path : List Char) : List Char :=
  match cutLast '/' path with
  | none => []
  | some (before, _) =>
    let head := before ++ ['/']
    let trimmed := (head.reverse.dropWhile (· == '/')).reverse
    if trimmed.isEmpty then head else trimmed

/-- What comes after the last slash of a path. -/
def baseName (path : List Char) : List Char := afterLast '/' path

/-- The path `path` seen from a directory. -/
def join (base path : List Char) : List Char :=
  if path.head? = some '/' then path
  else if base.isEmpty ∨ base.getLast? = some '/' then base ++ path
  else base ++ '/' :: path

/-- A path, and its extension with the point. Points at the start of a file name do not start an
extension. -/
def splitExtension (path : List Char) : List Char × List Char :=
  let file := baseName path
  match cutLast '.' file with
  | none => (path, [])
  | some (stem, extension) =>
    if stem.all (· == '.') then (path, [])
    else (path.take (path.length - extension.length - 1), '.' :: extension)

/-- A path seen from a directory, in normal form. -/
def absolute (current path : List Char) : List Char := normalize (join current path)

end ApiProto.Uri
