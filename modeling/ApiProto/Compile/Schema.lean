import ApiProto.Compile.State
import ApiProto.Name.Case
import ApiProto.Text.Cut

/-!
# Compiling schemas

An object becomes a message with a field for each property, a scalar a builtin type or an enum, and
an array the type of its items: what holds it marks its field as repeated. An object with values
under arbitrary keys becomes a map.

* `compileSchema` — the type of a schema.
* `compileEnum`, `compileMap`, `compileProperty`, `compileProperties` — the steps it is made of.

Schemas nest, and the steps for a schema inside another one are handed to the steps for the outer
one as a `Part`. So the recursion follows the schema alone.
-/

namespace ApiProto.Compile

open Proto Document CompileM

/-- A schema at a place: the scope, the name for a type made from it, and the comment of that
type. -/
abbrev Action := Scope → String → Value → CompileM Definition

/-- A schema inside another one, with the ways to compile it and its items. -/
structure Part where
  schema : Schema
  whole : Action
  items : Option Action

/-- The names of primitive types. -/
def scalarTypes : List String := ["string", "integer", "number", "boolean"]

/-- The scalar of a primitive type under a format (`apply_builtin_format`). -/
def withFormat (format : String) : TypeRef → TypeRef
  | .builtin b => .builtin (b.withFormat format)
  | t => t

/-- The wrapper message of a scalar. -/
def boxed : TypeRef → TypeRef
  | .builtin b => .builtin b.boxed
  | t => t

/-- The name without the ending that names of types for properties have. -/
def withoutMessage (name : String) : String := Text.withoutEnd "Message" name

/-- The type of a schema with two types or more (`compile_schema_multi_type`): a primitive type that
can be null becomes its wrapper message, and all else can be anything. -/
def compileMultiType (s : Schema) : CompileM TypeRef :=
  match s.types.filter fun t => t.toList.map Char.toLower ≠ "null".toList with
  | [t] =>
    match (if scalarTypes.contains t then reservedTypes.lookup t else none) with
    | some b => return .builtin (b.withFormat s.format).boxed
    | none => failWith (.unknownType t)
  | _ => return .builtin .any

/-- An enum of listed values (`compile_enum`). Values of enums share a namespace, so they start with
the name of the enum unless it is declared in the package; so does a value that is a number. -/
def compileEnum (env : Environment) (scope : Scope) (name : String) (choices : List String) :
    CompileM TypeRef := do
  let package := (← get).package
  let named := scope.head? ≠ some package || env.options.prefixEnums
  let elements := choices.map fun choice =>
    Name.enumValueName
      (if named || Name.allDigits choice.toList then name ++ "_" ++ choice else choice)
  return .node (← newNode (.enumeration ⟨Name.pascal name, elements, ""⟩))

/-! ## Maps -/

/-- The comment of a list wrapper. -/
def wrapperComment (name : String) : String :=
  "automatically generated wrapper for a list of " ++ name ++ " items"

/-- A message with one repeated field (`create_list_wrapper`). -/
def newListWrapper (name field about : String) (comment : Value) (item : TypeRef) : CompileM Nat :=
  newNode (.message
    ⟨name, [⟨item, field, 1, true, comment⟩], [], .text (wrapperComment about)⟩)

/-- The names that a list wrapper may take, in order of preference. -/
def wrapperCandidate (base : String) : Nat → String
  | 0 => base ++ "List"
  | 1 => base ++ "ListWrapper"
  | n => base ++ "ListWrapper" ++ toString n

/-- The names that named schemas and shared parameters will take. -/
def reservedNames (spec : Spec) : List String :=
  (spec.definitions.map fun (name, _) => Name.pascal name) ++
    spec.parameters.map fun (name, _) => Name.pascal name

/-- The name of a list wrapper (`list_wrapper_name`): the first candidate that is not reserved and
not declared in the package. All candidates differ, so there is one among as many as there are taken
names, and one more. -/
def listWrapperName (spec : Spec) (c : Compilation) (base : String) : String :=
  let reserved := reservedNames spec
  let tries := reserved.length + reservedTypes.length + c.registry.log.length + 1
  let free := fun name =>
    !reserved.contains name && (c.registry.lookup c.graph name [c.package]).isNone
  (((List.range tries).map (wrapperCandidate base)).find? free).getD (base ++ "List")

/-- The message for a list of a referenced type (`create_ref_list_wrapper`). It is declared in the
package, once for each name of a type. -/
def refListWrapper (env : Environment) (scope : Scope) (ref : Value) : CompileM TypeRef := do
  let ref ← ofResult (ref.textWith "rsplit")
  let base := Name.pascal (String.ofList (Text.afterLast '/' ref.toList))
  match (← get).wrappers.lookup base with
  | some wrapper => return .node wrapper
  | none =>
    let item := (← compileReference ref).unwrap
    let name := listWrapperName env.spec (← get) base
    let wrapper ← newListWrapper name "items" base (.text "") item
    modify fun c => { c with wrappers := c.wrappers ++ [(base, wrapper)] }
    declareIn scope (← get).package (.node wrapper)
    return .node wrapper

/-- The message for a list of objects. -/
def objectListWrapper (scope : Scope) (name rawName : String) (comment : Value) (items : Action)
    (itemComment : Value) : CompileM TypeRef := do
  let item := (← items scope name itemComment).unwrap
  declareDefinition scope (.type item)
  let field := Name.fieldName rawName
  let wrapper ← newListWrapper (withoutMessage name ++ "List")
    (if field.isEmpty then "items" else field) (← nameOf item) comment item
  declareDefinition scope (.type (.node wrapper))
  return .node wrapper

/-- Whether a type is a map. -/
def isMap (t : TypeRef) : CompileM Bool := fun c =>
  match t with
  | .builtin _ => .ok (false, c)
  | .node id => .ok ((c.graph.node? id) matches some (.map ..), c)

/-- The type of the values of a map. A list becomes a wrapper message, and a map, which cannot be a
value, a struct. -/
def compileMapValue (env : Environment) (scope : Scope) (name rawName : String) (p : Part) :
    CompileM TypeRef := do
  let s := p.schema
  if !s.ref.isEmpty then return (← compileReferenceValue s.ref).unwrap
  else if s.firstType = "array" then
    match s.items, p.items with
    | some items, some action =>
      if !items.ref.isEmpty then refListWrapper env scope items.ref
      else if !items.properties.isEmpty then
        objectListWrapper scope name rawName s.description action items.description
      else
        addImportFor Builtin.listValue.name
        return .builtin .listValue
    | _, _ =>
      addImportFor Builtin.listValue.name
      return .builtin .listValue
  else
    let t := (← p.whole scope name s.description).unwrap
    if ← isMap t then
      addImportFor Builtin.struct.name
      return .builtin .struct
    else return t

/-- The map for an object whose values have a schema (`compile_map`). -/
def compileMap (env : Environment) (scope : Scope) (name rawName : String) (p : Part) :
    CompileM TypeRef := do
  let value ← compileMapValue env scope name rawName p
  return .node (← newNode (.map (.builtin .string) value))

/-! ## Messages -/

/-- A property as it will become a field. -/
structure CompiledProperty where
  name : String
  type : TypeRef
  number : Int
  repeated : Bool
  comment : Value
deriving Inhabited, Repr

/-- What a property is compiled to, before its field is named. -/
def compilePropertyType (env : Environment) (scope : Scope) (name : String) (p : Part) :
    CompileM Definition := do
  let s := p.schema.denull
  let typeName := name ++ "Message"
  let boxes := fun t => if env.options.wrapPrimitives then boxed t else t
  if 1 < s.types.length then return .type (← compileMultiType s)
  else if s.types.isEmpty || s.types.contains "object" then p.whole scope typeName (.text "")
  else if s.types.contains "array" then
    match p.items with
    | none => failWith (.arrayWithoutItems "property" name)
    | some items => return (← items scope typeName (.text "")).mapType boxes
  else
    let d ← if s.choices.isEmpty then do
        match ← lookupType s.firstType scope with
        | some t => pure (.type t)
        | none => p.whole scope typeName (.text "")
      else do
        let owner ← nameOf (.node (scope.headD 0))
        pure (.type (← compileEnum env scope (owner ++ "_" ++ name) s.choices))
    return d.mapType fun t => boxes (withFormat s.format t)

/-- Compiles a property (`compile_property`). A shared parameter determines the name and the number
of the field. -/
def compileProperty (env : Environment) (scope : Scope) (name : String) (p : Part) :
    CompileM CompiledProperty := do
  let s := p.schema
  let field ← match ← compilePropertyType env scope name p with
    | .parameter t name number repeated => pure ⟨name, t, number, repeated, s.description⟩
    | .type t => do
      let name ← if s.protoName.isEmpty then pure name else ofResult s.protoName.wordText
      pure ⟨name, t, s.tag, s.denull.types.contains "array", s.description⟩
  declareDefinition scope (.type field.type)
  return field

/-- The type whose file a field of a given type needs: for a map, that of its values. -/
def importedType (g : Graph) : TypeRef → TypeRef
  | .builtin b => .builtin b
  | .node id =>
    match g.node? id with
    | some (.map _ value) => value
    | _ => .node id

/-- Adds the field of a property to a message, and the import that its type needs. -/
def addPropertyField (message : Nat) (p : CompiledProperty) (number : Int) : CompileM Unit := do
  addField message ⟨p.type, Name.fieldName p.name, number, p.repeated, p.comment⟩
  addImportFor (← nameOf (importedType (← get).graph p.type))

/-- Compiles the properties of an object into the fields of a message, in the order of their
names (`compile_schema_properties`). -/
def compileProperties (env : Environment) (scope : Scope) (message : Nat) (name : String)
    (properties : List (String × Part)) : CompileM Unit := do
  let compiled ← (sortEntries properties).mapM fun (key, p) =>
    within ("failed to compile property " ++ key) (compileProperty env scope key p)
  match assignNumbers name (compiled.map fun p => (Name.fieldName p.name, p.number)) with
  | .error e => throw e
  | .ok numbers => (compiled.zip numbers).forM fun (p, number) => addPropertyField message p number

/-- Compiles an object with properties. -/
def compileMessage (env : Environment) (scope : Scope) (name : String) (comment : Value)
    (properties : List (String × Part)) : CompileM Definition := do
  let message ← newNode (.message ⟨name, [], [], comment⟩)
  within ("failed to compile properties for " ++ name)
    (compileProperties env (message :: scope) message name properties)
  declareDefinition scope (.type (.node message))
  return .type (.node message)

/-! ## Schemas -/

/-- Whether a schema has no conditions that a map could express. -/
def isOpen (s : Schema) : Bool :=
  s.types.isEmpty && s.ref.isEmpty && s.properties.isEmpty

/-- The type of a schema without reference for which no declared type of its name exists. -/
def compileNew (env : Environment) (s : Schema) (scope : Scope)
    (rawName name : String) (comment : Value) (items : Option Action) (additional : Option Part)
    (properties : List (String × Part)) : CompileM Definition := do
  if 1 < s.types.length then return .type (← compileMultiType s)
  else if s.types.isEmpty || s.types.contains "object" then
    match additional with
    | none => compileMessage env scope name comment properties
    | some p =>
      if isOpen p.schema then
        addImportFor Builtin.struct.name
        return .type (.builtin .struct)
      else return .type (← compileMap env scope name (withoutMessage rawName) p)
  else if s.types.contains "array" then
    match items with
    | none => failWith (.arrayWithoutItems "schema" name)
    | some items =>
      let d ← items scope name (.text "")
      declareDefinition scope d
      return d
  else if s.types.any scalarTypes.contains then
    if s.choices.isEmpty then
      match ← lookupType s.firstType scope with
      | some t => return .type (withFormat s.format t)
      | none => failWith (.unsupportedType s.firstType)
    else
      let t ← compileEnum env scope (withoutMessage name) s.choices
      declareDefinition scope (.type t)
      return .type t
  else if s.types = ["null"] then return .type (.builtin .nullValue)
  else failWith (.unsupportedType s.firstType)

/-- The type of a schema, given the ways to compile the schemas inside it. A schema without
reference whose name is that of a declared type stands for that type. -/
def compileWith (env : Environment) (s : Schema) (items : Option Action)
    (additional : Option Part) (properties : List (String × Part)) : Action :=
  fun scope rawName comment => do
    if !s.ref.isEmpty then within "failed to resolve reference" (compileReferenceValue s.ref)
    else
      let s := s.denull
      let name := Name.pascal rawName
      match ← lookupType rawName scope with
      | some t => return .type (withFormat s.format t)
      | none =>
        match ← lookupType name scope with
        | some t => return .type (withFormat s.format t)
        | none => compileNew env s scope rawName name comment items additional properties

mutual

/-- The type of a schema (`compile_schema`). -/
def compileSchema (env : Environment) : Schema → Action
  | ⟨ref, types, format, choices, description, properties, items, additional, tag, protoName⟩ =>
    compileWith env
      ⟨ref, types, format, choices, description, properties, items, additional, tag, protoName⟩
      (compileOption env items) (partOption env additional) (partList env properties)
termination_by structural s => s

/-- The type of the items of a schema, if it has items. -/
def compileItems (env : Environment) : Schema → Option Action
  | ⟨_, _, _, _, _, _, items, _, _, _⟩ => compileOption env items
termination_by structural s => s

/-- The type of a schema, if there is one. -/
def compileOption (env : Environment) : Option Schema → Option Action
  | none => none
  | some s => some (compileSchema env s)
termination_by structural s => s

/-- A schema inside another one, if there is one. -/
def partOption (env : Environment) : Option Schema → Option Part
  | none => none
  | some s => some ⟨s, compileSchema env s, compileItems env s⟩
termination_by structural s => s

/-- The schemas of properties. -/
def partList (env : Environment) : List (String × Schema) → List (String × Part)
  | [] => []
  | (key, s) :: rest => (key, ⟨s, compileSchema env s, compileItems env s⟩) :: partList env rest
termination_by structural s => s

end

end ApiProto.Compile
