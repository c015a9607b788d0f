import ApiProto.Name.Case
import ApiProto.Text.Cut

/-!
# Names and comments of operations

* `endpointName` — the name of an operation: its identifier if it has one, else its verb and path.
  `get` and `/queue/{id}/enqueue_player` give `GetQueueIdEnqueuePlayer`.
* `joinComment` — a summary and a description as one text, with an empty line between them.
-/

namespace ApiProto.Name

open Text

/-- The path before the last point of its last segment. -/
def withoutExtension (path : List Char) : List Char :=
  match cutLast '.' path with
  | some (before, after) => if after.contains '/' then path else before
  | none => path

/-- The path before its last question mark, unless it starts with that. -/
def withoutQuery (path : List Char) : List Char :=
  match cutLast '?' path with
  | some (before, _) => if before.isEmpty then path else before
  | none => path

/-- Separators become spaces, and brackets are dropped. -/
def pathWords (path : List Char) : List Char :=
  path.filterMap fun c =>
    if "_-./".toList.contains c then some ' '
    else if "\x7b\x7d[]()".toList.contains c then none
    else some c

/-- The name of an operation identifier (`operation_id_name`). -/
def operationName (identifier : String) : String :=
  String.ofList (pascalChars (snakeChars identifier.toList))

/-- The name of an operation (`endpoint_name`). -/
def endpointName (verb path identifier : String) : String :=
  if identifier.isEmpty then
    String.ofList (pascalChars verb.toList ++
      pascalChars (pathWords (withoutQuery (withoutExtension path.toList))))
  else operationName identifier

/-- Summary and description without white space at their ends; parts without text are left out
(`make_comment`). -/
def joinComment (summary description : String) : String :=
  "\n\n".intercalate ([Text.strip summary, Text.strip description].filter fun s => !s.isEmpty)

/-- The text of the parts that have text, and an empty line between them if both have. -/
theorem joinComment_eq (summary description : String) : joinComment summary description =
    if strip summary = "" then strip description
    else if strip description = "" then strip summary
    else strip summary ++ "\n\n" ++ strip description := by
  unfold joinComment
  by_cases hs : strip summary = "" <;> by_cases hd : strip description = "" <;> simp [hs, hd]

end ApiProto.Name
