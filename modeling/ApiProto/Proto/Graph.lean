import ApiProto.Proto.Builtin
import ApiProto.Value.Basic

/-!
# Type graphs

Messages refer to one another, also in cycles, so declarations are nodes of a graph and types are
references to nodes. A node is known by its place in the graph, not by its contents: two messages
of the same name are different nodes.

* `TypeRef` — a builtin type, or a node.
* `Node` — a package, a declaration, or a type that is no declaration.
* `Graph` — the nodes; `Graph.add`, `Graph.put` and `Graph.node?` with their laws.
* `Graph.typeName`, `Graph.kindName` — the name of a type, and the word for its kind.
-/

namespace ApiProto.Proto

/-- A type: builtin, or a node of a graph. -/
inductive TypeRef where
  | builtin (type : Builtin)
  | node (id : Nat)
deriving DecidableEq, Inhabited, Repr

/-- A numbered field, with a type of the form `τ` and a comment of the form `κ`. -/
structure Field (τ κ : Type) where
  type : τ
  name : String
  number : Int
  repeated : Bool
  comment : κ
deriving DecidableEq, Inhabited, Repr

/-- A message with numbered fields and nested declarations. Its comment and those of its fields are
descriptions as they were given, which may be other values than texts. -/
structure Message where
  name : String
  fields : List (Field TypeRef Value)
  children : List TypeRef
  comment : Value
deriving Inhabited, Repr

/-- An enum. Its values are numbered from zero in the order in which they are listed. -/
structure Enumeration where
  name : String
  elements : List String
  comment : String
deriving DecidableEq, Inhabited, Repr

/-- A field that extends a type from elsewhere. -/
structure ExtensionField where
  name : String
  type : String
  number : Int
deriving DecidableEq, Inhabited, Repr

/-- Fields for the type `base`. -/
structure Extension where
  base : String
  fields : List ExtensionField
deriving DecidableEq, Inhabited, Repr

/-- An option of a procedure. -/
inductive RpcOption where
  /-- The HTTP method and path that it answers to, and the field that holds the body. -/
  | http (method path body : String)
  | custom (name : String) (value : Value)
deriving Inhabited, Repr

/-- A remote procedure. -/
structure Rpc (τ : Type) where
  name : String
  parameter : τ
  response : τ
  comment : String
  options : List RpcOption
  deprecated : Bool
deriving Inhabited, Repr

/-- A service. -/
structure Service (τ : Type) where
  name : String
  rpcs : List (Rpc τ)
deriving Inhabited, Repr

/-- The contents of one file. -/
structure Package where
  name : String
  imports : List String
  options : List (String × String)
  children : List TypeRef
deriving Inhabited, Repr

/-- A node of a type graph. -/
inductive Node where
  | package (package : Package)
  | message (message : Message)
  | enumeration (enumeration : Enumeration)
  | extension (extension : Extension)
  | service (service : Service TypeRef)
  | map (key value : TypeRef)
  /-- A reference that has not been resolved. -/
  | reference (ref : String)
  | builtin (type : Builtin)
deriving Inhabited, Repr

/-- Nodes, each known by its index. -/
structure Graph where
  nodes : Array Node
deriving Inhabited, Repr

namespace Graph

/-- The graph without nodes. -/
def empty : Graph := ⟨#[]⟩

/-- The number of nodes. -/
def size (g : Graph) : Nat := g.nodes.size

/-- The node with a given index. -/
def node? (g : Graph) (id : Nat) : Option Node := g.nodes[id]?

/-- A node for a new index. -/
def add (g : Graph) (n : Node) : Graph × Nat := (⟨g.nodes.push n⟩, g.nodes.size)

/-- Replaces the node of an index. -/
def put (g : Graph) (id : Nat) (n : Node) : Graph := ⟨g.nodes.setIfInBounds id n⟩

@[simp] theorem size_add (g : Graph) (n : Node) : (g.add n).1.size = g.size + 1 := by
  simp [add, size]

@[simp] theorem size_put (g : Graph) (id : Nat) (n : Node) : (g.put id n).size = g.size := by
  simp [put, size]

theorem node?_add (g : Graph) (n : Node) (id : Nat) :
    (g.add n).1.node? id = if id = g.size then some n else g.node? id :=
  Array.getElem?_push

theorem node?_put (g : Graph) (id k : Nat) (n : Node) :
    (g.put id n).node? k = if id = k ∧ id < g.size then some n else g.node? k := by
  simp only [put, node?, size, Array.getElem?_setIfInBounds]
  by_cases h : id = k
  · subst h
    by_cases hl : id < g.nodes.size <;> simp [hl]
  · simp [h]

/-- The message with a given index. -/
def message? (g : Graph) (id : Nat) : Option Message :=
  match g.node? id with
  | some (.message m) => some m
  | _ => none

/-- The package with a given index. -/
def package? (g : Graph) (id : Nat) : Option Package :=
  match g.node? id with
  | some (.package p) => some p
  | _ => none

/-- The service with a given index. -/
def service? (g : Graph) (id : Nat) : Option (Service TypeRef) :=
  match g.node? id with
  | some (.service s) => some s
  | _ => none

/-- The name of a type, of which at most `depth` nested maps are spelled out. -/
def nameWithin (g : Graph) (depth : Nat) : TypeRef → String
  | .builtin b => b.name
  | .node id =>
    match g.node? id with
    | some (.package p) => p.name
    | some (.message m) => m.name
    | some (.enumeration e) => e.name
    | some (.extension e) => e.base
    | some (.service s) => s.name
    | some (.reference ref) => ref
    | some (.builtin b) => b.name
    | some (.map key value) =>
      match depth with
      | 0 => ""
      | depth + 1 => "map<" ++ g.nameWithin depth key ++ ", " ++ g.nameWithin depth value ++ ">"
    | none => ""

/-- The name of a type. Maps that nest more deeply than there are nodes contain themselves. -/
def typeName (g : Graph) (t : TypeRef) : String := g.nameWithin g.size t

/-- The word for the kind of a type. -/
def kindName (g : Graph) : TypeRef → String
  | .builtin _ => "Builtin"
  | .node id =>
    match g.node? id with
    | some (.package _) => "Package"
    | some (.message _) => "Message"
    | some (.enumeration _) => "Enum"
    | some (.extension _) => "Extension"
    | some (.service _) => "Service"
    | some (.map ..) => "Map"
    | some (.reference _) => "Reference"
    | some (.builtin _) | none => "Builtin"

/-- Whether a type is a message (`is_message`): declared, or well-known. -/
def isMessage (g : Graph) : TypeRef → Bool
  | .builtin b => b.isMessage
  | .node id =>
    match g.node? id with
    | some (.message _) => true
    | some (.builtin b) => b.isMessage
    | _ => false

/-- Whether a type is declared under its name: a message or an enum. -/
def isDeclared (g : Graph) : TypeRef → Bool
  | .builtin _ => false
  | .node id =>
    match g.node? id with
    | some (.message _) | some (.enumeration _) => true
    | _ => false

/-- The declarations inside a package or a message. -/
def children (g : Graph) (id : Nat) : List TypeRef :=
  match g.node? id with
  | some (.package p) => p.children
  | some (.message m) => m.children
  | _ => []

/-- Appends a declaration to a package or a message (`add_type`). -/
def addChild (g : Graph) (parent : Nat) (t : TypeRef) : Graph :=
  match g.node? parent with
  | some (.package p) => g.put parent (.package { p with children := p.children ++ [t] })
  | some (.message m) => g.put parent (.message { m with children := m.children ++ [t] })
  | _ => g

/-- Appends an import to a package unless it is there already (`add_import`). -/
def addImport (g : Graph) (package : Nat) (file : String) : Graph :=
  match g.package? package with
  | some p =>
    if p.imports.contains file then g
    else g.put package (.package { p with imports := p.imports ++ [file] })
  | none => g

end Graph

end ApiProto.Proto
