import ApiProto.Document.Spec
import ApiProto.Proto.Numbering
import ApiProto.Proto.Registry
import ApiProto.Proto.Resolver
import ApiProto.Value.Access

/-!
# The state of a compilation

* `Options`, `Environment` — what a compilation is asked to do, and the description it works on.
* `Compilation` — the graph under construction with what has been declared and defined.
* `CompileM` — a step of a compilation, and the steps that others are made of.
-/

namespace ApiProto.Compile

open Proto Document

/-- What a compilation is asked to do. -/
structure Options where
  /-- Give procedures their HTTP method and path. -/
  annotate : Bool
  /-- Compile schemas and no procedures. -/
  skipRpcs : Bool
  /-- Start the values of all enums with the name of the enum. -/
  prefixEnums : Bool
  /-- Use wrapper messages for scalar fields. -/
  wrapPrimitives : Bool
  /-- The name of the package of a description without title. -/
  defaultPackage : String
deriving DecidableEq, Inhabited, Repr

/-- The options and the description of a compilation. -/
structure Environment where
  options : Options
  spec : Spec
deriving Inhabited

/-- What a reference stands for: a type, or a shared parameter, which also determines the field. -/
inductive Definition where
  | type (type : TypeRef)
  | parameter (type : TypeRef) (name : String) (number : Int) (repeated : Bool)
deriving DecidableEq, Inhabited, Repr

namespace Definition

/-- The type of a definition. -/
def unwrap : Definition → TypeRef
  | .type t => t
  | .parameter t .. => t

/-- Changes a type. Shared parameters keep theirs. -/
def mapType (f : TypeRef → TypeRef) : Definition → Definition
  | .type t => .type (f t)
  | d => d

end Definition

/-- The state of a compilation (`CompilationContext`). -/
structure Compilation where
  graph : Graph
  registry : Registry
  /-- The service of the package. -/
  service : Nat
  /-- What references stand for. -/
  definitions : List (String × Definition)
  /-- The list wrappers for referenced types, by the names of these types. -/
  wrappers : List (String × Nat)
  /-- Whether references without definition may still get one. -/
  deferring : Bool
deriving Inhabited, Repr

namespace Compilation

/-- The package under construction. -/
def package (c : Compilation) : Nat := c.registry.package

/-- The definition of a reference; those of well-known types come first
(`get_type_from_reference`). -/
def definition? (c : Compilation) (ref : String) : Option Definition :=
  match knownDefinition? ref with
  | some b => some (.type (.builtin b))
  | none => c.definitions.lookup ref

/-- The types that references stand for. -/
def table (c : Compilation) : Definitions :=
  (knownDefinitions.map fun (ref, b) => (ref, .builtin b)) ++
    c.definitions.map fun (ref, d) => (ref, d.unwrap)

end Compilation

/-- A step of a compilation. -/
abbrev CompileM := StateT Compilation (Except Error)

namespace CompileM

/-- Fails with a cause. -/
def failWith {α : Type} (cause : Cause) : CompileM α := fun _ => fail cause

/-- A step that only gives a result or fails. -/
def ofResult {α : Type} (result : Except Error α) : CompileM α :=
  fun c => result.map fun a => (a, c)

/-- Adds a frame to the error of a step. -/
def within {α : Type} (frame : String) (step : CompileM α) : CompileM α :=
  fun c => framed frame (step c)

end CompileM

open CompileM

/-- Adds a node to the graph. -/
def newNode (n : Node) : CompileM Nat := fun c =>
  let (g, id) := c.graph.add n
  .ok (id, { c with graph := g })

/-- Looks a type up by its name. -/
def lookupType (name : String) (scope : Scope) : CompileM (Option TypeRef) := fun c =>
  .ok (c.registry.lookup c.graph name scope, c)

/-- Declares a type in a container. -/
def declareIn (scope : Scope) (parent : Nat) (t : TypeRef) : CompileM Unit := fun c =>
  let (_, g, r) := c.registry.register c.graph t parent scope
  .ok ((), { c with graph := g, registry := r })

/-- Declares a type in the innermost container of a scope. Shared parameters are not declared. -/
def declareDefinition (scope : Scope) (d : Definition) : CompileM Unit :=
  match scope, d with
  | parent :: _, .type t => declareIn scope parent t
  | _, _ => return

/-- Adds an import (`add_import`). -/
def addImport (file : String) : CompileM Unit := fun c =>
  .ok ((), { c with graph := c.graph.addImport c.package file })

/-- Adds the import that a type name needs, if any (`add_import_for_type`). -/
def addImportFor (name : String) : CompileM Unit :=
  match importOf? name with
  | some file => addImport file
  | none => return

/-- The name of a type. -/
def nameOf (t : TypeRef) : CompileM String := fun c => .ok (c.graph.typeName t, c)

/-- Appends a field to a message. -/
def addField (message : Nat) (f : Proto.Field TypeRef Value) : CompileM Unit := fun c =>
  match c.graph.message? message with
  | none => .ok ((), c)
  | some m => (m.addField f).map fun m => ((), { c with graph := c.graph.put message (.message m) })

/-- Gives a reference its definition, unless it has one (`add_definition`). -/
def define (ref : String) (d : Definition) : CompileM Unit := fun c =>
  if (c.definitions.lookup ref).isSome then .ok ((), c)
  else .ok ((), { c with definitions := c.definitions ++ [(ref, d)] })

/-- What a reference stands for (`compile_reference_schema`). As long as definitions may still be
added, a reference without one stands for itself. -/
def compileReference (ref : String) : CompileM Definition := do
  match (← get).definition? ref with
  | some d => return d
  | none =>
    if (← get).deferring then return .type (.node (← newNode (.reference ref)))
    else failWith (.unresolved ref)

/-- What the reference of a schema stands for. -/
def compileReferenceValue (ref : Value) : CompileM Definition := do
  compileReference (← ofResult ref.keyText)

end ApiProto.Compile
