import ApiProto.Compile.Operation
import ApiProto.Document.SpecReader
import ApiProto.Name.Title
import ApiProto.Proto.Printer

/-!
# Compiling descriptions

A description is compiled in phases: options, named schemas, shared parameters, references,
extensions, and at last the operations, if they are wanted. As long as named schemas and shared
parameters are compiled, references may be to what comes later; after that they are put in place,
and every reference must have a definition.

* `compile` — the package of a description.
* `compileDocument` — the package of a decoded document.
-/

namespace ApiProto.Compile

open Proto Document CompileM

/-- The outcome of a compilation: a graph, and the package in it. -/
structure Output where
  graph : Graph
  package : Nat
deriving Inhabited, Repr

/-- The start of a compilation: a package with an empty service. -/
def start (packageName serviceName : String) (options : List (String × String)) : Compilation :=
  let (g, package) := Graph.empty.add (.package ⟨packageName, [], options, [.node 1]⟩)
  let (g, service) := g.add (.service ⟨serviceName, []⟩)
  ⟨g, Registry.new package, service, [], [], true⟩

/-- The start of the compilation of a description. A title without text counts as none. -/
def startOf (env : Environment) : Compilation :=
  let title := env.spec.title
  let options := sortEntries env.spec.globalOptions
  if (Text.strip title).isEmpty then
    start env.options.defaultPackage (Name.serviceName env.options.defaultPackage) options
  else start (Name.packageName title) (Name.serviceName title) options

/-- Compiles the named schemas, in the order of their names (`compile_definitions`). -/
def compileDefinitions (env : Environment) (scope : Scope) : CompileM Unit :=
  (sortEntries env.spec.definitions).forM fun (name, s) => do
    let ref := env.spec.definitionsPrefix ++ name
    let d ← within ("failed to compile " ++ ref)
      (compileSchema env s scope (Name.pascal name) s.description)
    define ref d

/-- Compiles the shared parameters, in the order of their names (`compile_parameters`). -/
def compileParameters (env : Environment) (scope : Scope) : CompileM Unit :=
  (sortEntries env.spec.parameters).forM fun (name, p) => do
    let ref := env.spec.parametersPrefix ++ name
    let d ← within ("failed to compile " ++ ref) do
      let (_, s) ← parameterSchema p
      compileSchema env s scope (Name.pascal name) s.description
    let t := d.unwrap
    let fieldName ← if p.name.isEmpty then nameOf t else ofResult p.name.wordText
    define ref (.parameter t fieldName p.tag p.isArray)

/-- Runs a step of resolution on the graph of a compilation. -/
def resolving {α : Type} (visited : List Nat) (step : Definitions → ResolveM α) :
    CompileM (α × List Nat) := fun c =>
  let (outcome, r) := (step c.table).run.run ⟨c.graph, visited⟩
  outcome.map fun a => ((a, r.visited), { c with graph := r.graph })

/-- Puts a resolved type into a definition. -/
def Definition.withType (t : TypeRef) : Definition → Definition
  | .type _ => .type t
  | .parameter _ name number repeated => .parameter t name number repeated

/-- Changes the definition of a reference. -/
def redefine (ref : String) (d : Definition) : CompileM Unit :=
  modify fun c => { c with
    definitions := c.definitions.map fun (k, old) => (k, if k = ref then d else old) }

/-- Resolves the definitions one after the other. -/
def resolveDefinitions : List (String × Definition) → List Nat → CompileM Unit
  | [], _ => return
  | (ref, d) :: rest, visited => do
    let (t, visited) ← within ("failed to resolve " ++ ref)
      (resolving visited fun table => resolveAt table d.unwrap)
    redefine ref (d.withType t)
    resolveDefinitions rest visited

/-- Puts the types that references name in their places, in the package and in the definitions
(`resolve`). -/
def resolveAll : CompileM Unit := do
  let c ← get
  let (_, visited) ← resolving [] fun table => resolvePackage table c.package
  resolveDefinitions c.definitions visited

/-- The name of an extended type, which is written after a word. -/
def baseName (base : Value) : Except Error String :=
  match base with
  | .text s => .ok s
  | v => v.keyText.bind fun _ =>
    fail (.unusableValue ("can only concatenate str (not \"" ++ v.fullKindName ++ "\") to str"))

/-- Compiles an extension (`compile_extension`). -/
def compileExtension (e : Document.Extension) : CompileM Unit := do
  let fields ← e.fields.mapM fun f => do
    let type ← ofResult f.type.keyText
    addImportFor type
    return (⟨f.name.display, type, f.number⟩ : Proto.ExtensionField)
  let base ← ofResult (baseName e.base)
  addImportFor base
  let id ← newNode (.extension ⟨base, fields⟩)
  modify fun c => { c with graph := c.graph.addChild c.package (.node id) }

/-- Compiles the operations of all paths, in the order of the paths (`compile_paths`). -/
def compilePaths (env : Environment) (scope : Scope) : CompileM Unit :=
  (sortEntries env.spec.paths).forM fun (path, item) =>
    within ("failed to compile path " ++ path) (compilePath env scope path item)

/-- Fails if a reference has been left over. -/
def checkResolved : CompileM Unit := fun c =>
  match dangling c.graph c.package with
  | [] => .ok ((), c)
  | ref :: _ =>
    .error ((Error.of (.unresolved ref)).wrap "reference left unresolved after compilation")

/-- The phases of a compilation. -/
def compileAll (env : Environment) : CompileM Unit := do
  let scope := [(← get).package]
  if env.options.annotate then addImport "google/api/annotations.proto"
  within "failed to compile definitions" (compileDefinitions env scope)
  within "failed to compile parameters" (compileParameters env scope)
  within "failed to resolve references" resolveAll
  modify fun c => { c with deferring := false }
  env.spec.extensions.forM compileExtension
  if !env.options.skipRpcs then within "failed to compile paths" (compilePaths env scope)
  checkResolved

/-- The package of a description (`compile_openapi`). -/
def compile (options : Options) (spec : Spec) : Except Error Output := do
  let env : Environment := ⟨options, spec⟩
  let (_, c) ← (compileAll env).run (startOf env)
  return ⟨c.graph, c.package⟩

/-- The package of a decoded document. -/
def compileDocument [Libraries] (options : Options) (doc : Value) : Except Error Output := do
  compile options (← Spec.read doc)

/-- The text of a compiled package. -/
def Output.print (indent : String) (o : Output) : Except Error String :=
  o.graph.print indent o.package

end ApiProto.Compile
