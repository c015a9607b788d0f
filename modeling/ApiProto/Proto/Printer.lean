import ApiProto.Error
import ApiProto.Number.Shortest
import ApiProto.Proto.File
import ApiProto.Proto.Lines
import ApiProto.Sorting
import ApiProto.Text.Escape

/-!
# Printing files

The text of a file does not depend on the order in which declarations were made: they are sorted by
kind and name, fields by number, and procedures, options and imports by name.

* `optionLiteral` — the value of an option.
* `Declaration.print` — the text of a declaration.
* `File.print` — the text of a file.
-/

namespace ApiProto.Proto

open Text

/-- Numbers in options are positional, whatever their size. -/
def optionLayout : DecimalLayout where
  positional := fun _ => true
  noFraction := ""
  infinity := "Infinity"
  notANumber := "NaN"

/-- The value of an option as a literal (`stringify`). -/
def optionLiteral : Value → String
  | .bool b => if b then "true" else "false"
  | .text s => quote s
  | .int n => toString n
  | .float x =>
    match x.toInt? with
    | some n => toString n
    | none => x.write optionLayout
  | _ => "(invalid)"

/-- A comment on lines of its own, nothing if it is empty. -/
def printComment (comment : String) : List Char :=
  if comment.isEmpty then [] else '\n' :: commentLines comment.toList

/-- A field (`encode_field`). -/
def printField (f : NamedField String) : List Char :=
  printComment f.comment ++ '\n' :: (if f.repeated then "repeated ".toList else []) ++
    (f.type ++ " " ++ f.name ++ " = " ++ toString f.number ++ ";").toList

/-- The fields of a message after `body`. An empty line stands before a field that has a comment,
and between nested declarations and fields. -/
def printFields (body : List Char) (fields : List (NamedField String)) : List Char :=
  match fields with
  | [] => body
  | first :: rest =>
    body ++ (if body.isEmpty then [] else ['\n']) ++ printField first ++
      rest.flatMap fun f => (if f.comment.isEmpty then [] else ['\n']) ++ printField f

/-- An enum (`encode_enum`). -/
def printEnumeration (indent : List Char) (e : Enumeration) : List Char :=
  printComment e.comment ++ block indent ("enum " ++ e.name).toList
    (e.elements.zipIdx.flatMap fun (element, i) =>
      ("\n" ++ element ++ " = " ++ toString i ++ ";").toList)

/-- An extension (`encode_extension`). -/
def printExtension (indent : List Char) (e : Extension) : List Char :=
  block indent ("extend " ++ e.base).toList
    (e.fields.flatMap fun f =>
      ("\n" ++ f.type ++ " " ++ f.name ++ " = " ++ toString f.number ++ ";").toList)

/-- The HTTP option of a procedure (`encode_http_annotation`). -/
def printHttp (indent : List Char) (method path body : String) : List Char :=
  block indent "option (google.api.http) =".toList
    (("\n" ++ method ++ ": " ++ quote path).toList ++
      (if body.isEmpty then [] else ("\nbody: " ++ quote body).toList)) ++ [';']

/-- The HTTP options among the options of a procedure. -/
def printHttpOptions (indent : List Char) (options : List RpcOption) : List Char :=
  options.flatMap fun
    | .http method path body => printHttp indent method path body
    | .custom .. => []

/-- The options of a procedure that are not HTTP options. -/
def customOptions (options : List RpcOption) : List (String × Value) :=
  options.filterMap fun
    | .custom name value => some (name, value)
    | .http .. => none

/-- Custom options, sorted by name. -/
def printCustomOptions (options : List (String × Value)) : List Char :=
  (sortEntries options).flatMap fun (name, value) =>
    ("\noption (" ++ name ++ ") = " ++ optionLiteral value ++ ";").toList

/-- A procedure (`encode_rpc`). -/
def printRpc (indent : List Char) (r : NamedRpc) : List Char :=
  printComment r.comment ++
    block indent
      ("rpc " ++ r.name ++ "(" ++ r.parameter ++ ") returns (" ++ r.response ++ ")").toList
      (printHttpOptions indent r.options ++
        (if r.deprecated then "\noption deprecated = true;".toList else []) ++
        printCustomOptions (customOptions r.options))

/-- A service; nothing if it has no procedures (`encode_service`). -/
def printService (indent : List Char) (name : String) (rpcs : List NamedRpc) : List Char :=
  if rpcs.isEmpty then []
  else block indent ("service " ++ name).toList
    (joinLines ((sortBy (fun a b => a.name ≤ b.name) rpcs).map (printRpc indent)))

/-- The key by which declarations are sorted: kind, then name. -/
abbrev SortKey := Int × String

/-- The order of sort keys. -/
def SortKey.before (a b : SortKey) : Bool := a.1 < b.1 || (a.1 == b.1 && a.2 ≤ b.2)

/-- The texts of sibling declarations in sorted order, separated by empty lines (`encode_children`).
The first one that cannot be printed decides the error. -/
def joinDeclarations (printed : List (SortKey × Except Error (List Char))) :
    Except Error (List Char) := do
  let texts ← (sortBy (fun a b => a.1.before b.1) printed).mapM (·.2)
  return joinLines (texts.filter fun text => !text.isEmpty)

mutual

/-- The text of a declaration (`encode_type`). -/
def Declaration.print (indent : List Char) : Declaration String → Except Error (List Char)
  | .message name comment fields children => do
    let body ← joinDeclarations (printAll indent children)
    return printComment comment ++ block indent ("message " ++ name).toList
      (printFields body (sortBy (fun a b => a.number ≤ b.number) fields))
  | .enumeration e => return printEnumeration indent e
  | .extension e => return printExtension indent e
  | .service name rpcs => return printService indent name rpcs
  | .other kind name => fail (.unprintable kind name)

/-- The texts of declarations, with the keys by which they are sorted. -/
def printAll (indent : List Char) :
    List (Declaration String) → List (SortKey × Except Error (List Char))
  | [] => []
  | d :: rest => ((d.priority, d.name), d.print indent) :: printAll indent rest

end

/-- The lines of a file before its declarations. -/
def File.printHead (f : File String) : List Char :=
  ("syntax = \"proto3\";\n\npackage " ++ f.name ++ ";").toList ++
    (if f.imports.isEmpty then []
      else '\n' :: (sortBy (fun a b => a ≤ b) f.imports).flatMap fun file =>
        ("\nimport " ++ quote file ++ ";").toList) ++
    (if f.options.isEmpty then []
      else '\n' :: (sortEntries f.options).flatMap fun (name, value) =>
        ("\noption " ++ name ++ " = " ++ quote value ++ ";").toList)

/-- The text of a file, of which nested lines are indented by `indent` (`encode_package`). -/
def File.print (indent : String) (f : File String) : Except Error String := do
  let body ← joinDeclarations (printAll indent.toList f.children)
  return String.ofList (f.printHead ++ '\n' :: body ++ ['\n'])

/-- The text of a package. -/
def Graph.print (indent : String) (g : Graph) (package : Nat) : Except Error String :=
  match g.file? package with
  | some f => f.withTexts.bind (File.print indent)
  | none => fail .endless

end ApiProto.Proto
