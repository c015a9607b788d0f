import ApiProto.Proto.Graph
import ApiProto.Value.Access

/-!
# Files

The contents of a file as a tree: each declaration with the declarations inside it, and types by
their names.

* `Declaration`, `File` — the tree, with comments of the form `κ`.
* `Graph.file?` — the tree of a package; there is none if a declaration contains itself.
* `File.withTexts` — the tree with texts for comments.
-/

namespace ApiProto.Proto

/-- A field of which the type is known by its name. -/
abbrev NamedField := Field String

/-- A procedure of which the types are known by their names. -/
abbrev NamedRpc := Rpc String

/-- A declaration with all that it contains. -/
inductive Declaration (κ : Type) where
  | message (name : String) (comment : κ) (fields : List (NamedField κ))
      (children : List (Declaration κ))
  | enumeration (enumeration : Enumeration)
  | extension (extension : Extension)
  | service (name : String) (rpcs : List NamedRpc)
  /-- Something that cannot be declared. -/
  | other (kind name : String)
deriving Inhabited, Repr

/-- A file. -/
structure File (κ : Type) where
  name : String
  imports : List String
  options : List (String × String)
  children : List (Declaration κ)
deriving Inhabited, Repr

/-- The text of a comment, which is written line by line. -/
def commentText (comment : Value) : Except Error String :=
  if comment.isEmpty then .ok "" else comment.textWith "split"

namespace Declaration

variable {κ : Type}

/-- The name under which a declaration is sorted. -/
def name : Declaration κ → String
  | .message name .. => name
  | .enumeration e => e.name
  | .extension e => e.base
  | .service name _ => name
  | .other _ name => name

/-- The rank of a kind of declaration: enums stand before messages, then extensions and services. -/
def priority : Declaration κ → Int
  | .enumeration _ => 0
  | .message .. => 1
  | .extension _ => 2
  | .service .. => 3
  | .other .. => -1

/-- The word for a kind of declaration. -/
def kindName : Declaration κ → String
  | .message .. => "Message"
  | .enumeration _ => "Enum"
  | .extension _ => "Extension"
  | .service .. => "Service"
  | .other kind _ => kind

mutual

/-- The declaration with texts for comments. -/
def withTexts : Declaration Value → Except Error (Declaration String)
  | .message name comment fields children => do
    let children ← allWithTexts children
    let fields ← fields.mapM fun f => (commentText f.comment).map fun c => { f with comment := c }
    return .message name (← commentText comment) fields children
  | .enumeration e => return .enumeration e
  | .extension e => return .extension e
  | .service name rpcs => return .service name rpcs
  | .other kind name => return .other kind name

/-- The declarations with texts for comments. -/
def allWithTexts : List (Declaration Value) → Except Error (List (Declaration String))
  | [] => return []
  | d :: rest => return (← d.withTexts) :: (← allWithTexts rest)

end

end Declaration

/-- The file with texts for comments. -/
def File.withTexts (f : File Value) : Except Error (File String) :=
  (Declaration.allWithTexts f.children).map fun children => { f with children := children }

namespace Graph

/-- A field with the name of its type. -/
def namedField {κ : Type} (g : Graph) (f : Field TypeRef κ) : NamedField κ :=
  { f with type := g.typeName f.type }

/-- A procedure with the names of its types. -/
def namedRpc (g : Graph) (r : Rpc TypeRef) : NamedRpc :=
  { r with parameter := g.typeName r.parameter, response := g.typeName r.response }

/-- A declaration as a tree of at most `depth` levels. -/
def declarationWithin? (g : Graph) : Nat → TypeRef → Option (Declaration Value)
  | 0, _ => none
  | depth + 1, t =>
    let other := some (.other (g.kindName t) (g.typeName t))
    match t with
    | .builtin _ => other
    | .node id =>
      match g.node? id with
      | some (.message m) => do
        let children ← m.children.mapM fun c => g.declarationWithin? depth c
        return .message m.name m.comment (m.fields.map g.namedField) children
      | some (.enumeration e) => some (.enumeration e)
      | some (.extension e) => some (.extension e)
      | some (.service s) => some (.service s.name (s.rpcs.map g.namedRpc))
      | _ => other

/-- A declaration as a tree. A tree with more levels than there are nodes would contain a node
inside itself. -/
def declaration? (g : Graph) (t : TypeRef) : Option (Declaration Value) :=
  g.declarationWithin? (g.size + 1) t

/-- The file of a package. -/
def file? (g : Graph) (package : Nat) : Option (File Value) := do
  let p ← g.package? package
  let children ← p.children.mapM g.declaration?
  return ⟨p.name, p.imports, p.options, children⟩

end Graph

end ApiProto.Proto
