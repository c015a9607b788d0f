import ApiProto.Proto.Graph

/-!
# Declared types

The messages and enums that have been declared, each under the package or message that contains
it. A scope is a chain of containers, the innermost first.

* `Registry.lookup` — the type of a name: reserved names first, then the containers of the scope
  from the inside out.
* `Registry.register` — declares a type, unless its name is taken or qualified.
-/

namespace ApiProto.Proto

/-- Containers around a place, the innermost first. -/
abbrev Scope := List Nat

/-- What has been declared (`TypeRegistry`). -/
structure Registry where
  /-- The package around all scopes. -/
  package : Nat
  /-- The declared nodes with their containers, in the order of declaration. -/
  log : List (Nat × Nat)
  /-- The qualified names under which types have been offered. -/
  keys : List String
deriving Inhabited, Repr

namespace Registry

/-- The registry without declarations. -/
def new (package : Nat) : Registry := ⟨package, [], []⟩

/-- The nodes declared in a container. -/
def declaredIn (r : Registry) (container : Nat) : List Nat :=
  r.log.filterMap fun (c, t) => if c = container then some t else none

/-- The type of a name in a scope (`TypeRegistry.lookup`). -/
def lookup (g : Graph) (r : Registry) (name : String) (scope : Scope) : Option TypeRef :=
  match reservedTypes.lookup name with
  | some b => some (.builtin b)
  | none =>
    scope.findSome? fun container =>
      ((r.declaredIn container).find? fun t => g.typeName (.node t) == name).map .node

/-- The qualified name of a type under a scope. -/
def key (g : Graph) (scope : Scope) (name : String) : String :=
  "#".intercalate (scope.reverse.map fun c => g.typeName (.node c)) ++ "#" ++ name

/-- Declares a type inside `parent`, where it becomes the last child (`TypeRegistry.register`).
Nothing is declared if the type is no message and no enum, if its name is qualified, if it is
declared in the package already, or if its name has been offered under the same scope. -/
def register (g : Graph) (r : Registry) (type : TypeRef) (parent : Nat) (scope : Scope) :
    Bool × Graph × Registry :=
  match type with
  | .builtin _ => (false, g, r)
  | .node t =>
    let name := g.typeName type
    let k := key g scope name
    if !g.isDeclared type || name.toList.contains '.' || (r.declaredIn r.package).contains t ||
        r.keys.contains k then (false, g, r)
    else
      let r := { r with keys := r.keys ++ [k] }
      if (r.declaredIn parent).contains t then (false, g, r)
      else (true, g.addChild parent type, { r with log := r.log ++ [(parent, t)] })

end Registry

end ApiProto.Proto
