import ApiProto.Proto.Reference

/-!
# Resolving references

Puts the types that references name in the place of the references, wherever a field or a map value
of a message holds one.

* `resolveType`, `resolveMessage` — resolve all that is reached from a type or a message. A message
  is visited once, so that messages may refer to one another.
* `resolvePackage` — resolves all that is reached from the declarations of a package.

When a reference has no definition, what was resolved before stays resolved.
-/

namespace ApiProto.Proto

/-- A graph with the messages that have been visited. -/
structure Resolution where
  graph : Graph
  visited : List Nat
deriving Inhabited, Repr

/-- A step of resolution, which may fail after having changed the graph. -/
abbrev ResolveM := ExceptT Error (StateM Resolution)

/-- Puts a type into the field at a position of a message. -/
def Message.setFieldType (m : Message) (position : Nat) (type : TypeRef) : Message :=
  { m with fields := m.fields.modify position fun f => { f with type := type } }

namespace Resolution

/-- Marks a message as visited. -/
def visit (r : Resolution) (id : Nat) : Resolution := { r with visited := id :: r.visited }

/-- Puts a type into the field at a position of a message. -/
def setFieldType (r : Resolution) (id position : Nat) (type : TypeRef) : Resolution :=
  match r.graph.message? id with
  | some m => { r with graph := r.graph.put id (.message (m.setFieldType position type)) }
  | none => r

/-- Puts a type into a map as its value type. -/
def setMapValue (r : Resolution) (id : Nat) (key value : TypeRef) : Resolution :=
  { r with graph := r.graph.put id (.map key value) }

end Resolution

/-- Adds a frame to the error of a step. -/
def ResolveM.within {α : Type} (frame : String) (step : ResolveM α) : ResolveM α :=
  ExceptT.mk (step.run.map fun result => framed frame result)

mutual

/-- Resolves a type (`resolve_type`): a reference gives the type at the end of its chain, and what a
map or a message holds is resolved. The first number bounds the depth of nesting. -/
def resolveType (targets : Targets) : Nat → TypeRef → ResolveM TypeRef
  | _, .builtin b => return .builtin b
  | 0, .node _ => throw (.of .endless)
  | depth + 1, .node id => do
    match (← get).graph.node? id with
    | some (.reference ref) =>
      match follow (← get).graph targets ref with
      | .ok t => resolveType targets depth t
      | .error e => throw e
    | some (.map key value) =>
      let value ← resolveType targets depth value
      modify fun r => r.setMapValue id key value
      return .node id
    | some (.message _) =>
      resolveMessage targets depth id
      return .node id
    | _ => return .node id

/-- Resolves the fields of a message and, before them, its nested messages (`resolve_message`). -/
def resolveMessage (targets : Targets) : Nat → Nat → ResolveM Unit
  | 0, _ => throw (.of .endless)
  | depth + 1, id => do
    let r ← get
    match r.graph.message? id with
    | none => return
    | some m =>
      if r.visited.contains id then return
      modify fun r => r.visit id
      m.children.forM fun child => do
        match child with
        | .node c => if ((← get).graph.message? c).isSome then resolveMessage targets depth c
        | .builtin _ => return
      m.fields.zipIdx.forM fun (field, position) => do
        let type ← ResolveM.within
          ("failed to resolve type of field " ++ field.name ++ " in " ++ m.name)
          (resolveType targets depth field.type)
        modify fun r => r.setFieldType id position type

end

/-- A bound on the depth of nesting in a graph. On a way down each message is entered once, and
between two of them lie at most the maps, each with a reference before it. -/
def Graph.depth (g : Graph) : Nat := (g.size + 1) * (2 * g.size + 4)

/-- Resolves all that is reached from a type. -/
def resolveAt (targets : Targets) (t : TypeRef) : ResolveM TypeRef := do
  resolveType targets (← get).graph.depth t

/-- Resolves all that is reached from the messages declared in a package (`resolve_package`). -/
def resolvePackage (targets : Targets) (package : Nat) : ResolveM Unit := do
  let r ← get
  (r.graph.children package).forM fun child => do
    match child with
    | .node c =>
      if ((← get).graph.message? c).isSome then resolveMessage targets r.graph.depth c
    | .builtin _ => return

/-- Resolves the references of a package (`resolve_references`): the outcome, and the graph that
results. -/
def resolveReferences (g : Graph) (targets : Targets) (package : Nat) :
    Except Error Unit × Graph :=
  let (outcome, r) := (resolvePackage targets package).run.run ⟨g, []⟩
  (outcome, r.graph)

end ApiProto.Proto
