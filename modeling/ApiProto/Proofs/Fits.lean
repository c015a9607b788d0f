import ApiProto.Proofs.Settling

/-!
# Types that fit their schemas

A type fits a schema if it is what the schema describes: a scalar, an enum with an element for each
choice, a message with a field for each property, a map, and so on, and all inside it fits as well.
A schema whose name is visible where it is compiled stands for the type of that name instead.

* `Fits`, `FitsAnew` — types for schemas, and for schemas whose names are not visible.
* `ValueFits`, `PropertyFits`, `FieldsFit` — values of maps, properties, and the fields of messages.
-/

namespace ApiProto.Compile

open Proto Document CompileM

/-- An enum in a graph, with an element for each choice. -/
def IsEnum (env : Environment) (g : Graph) (c : Compilation) (scope : Scope) (name : String)
    (choices : List String) (id : Nat) : Prop :=
  g.node? id = some (.enumeration
    ⟨Name.pascal name, choices.map (enumElement env c.package scope name), ""⟩)

mutual

/-- The types for a schema in a scope under a name, when it is compiled in a given state. -/
inductive Fits (env : Environment) (g : Graph) :
    Scope → String → Schema → Compilation → TypeRef → Prop
  | reference {scope : Scope} {rawName : String} {s : Schema} {c : Compilation} {t : TypeRef} :
      s.ref.isEmpty = false → Fits env g scope rawName s c t
  /-- A type that is visible under the name of the schema. -/
  | found {scope : Scope} {rawName : String} {s : Schema} {c : Compilation} {t : TypeRef}
      (name : String) : s.ref.isEmpty = true → name = rawName ∨ name = Name.pascal rawName →
      c.registry.lookup c.graph name scope = some t →
      Fits env g scope rawName s c (withFormat s.format t)
  | anew {scope : Scope} {rawName : String} {s : Schema} {c : Compilation} {t : TypeRef} :
      s.ref.isEmpty = true → c.registry.lookup c.graph rawName scope = none →
      c.registry.lookup c.graph (Name.pascal rawName) scope = none →
      FitsAnew env g scope rawName s.denull c t → Fits env g scope rawName s c t

/-- The types for a schema without reference whose name is not visible. Messages, enums and maps are
new. -/
inductive FitsAnew (env : Environment) (g : Graph) :
    Scope → String → Schema → Compilation → TypeRef → Prop
  /-- A schema with two types or more. -/
  | several {scope : Scope} {rawName : String} {s : Schema} {c : Compilation} (b : Builtin) :
      1 < s.types.length → FitsAnew env g scope rawName s c (.builtin b)
  | message {scope : Scope} {rawName : String} {s : Schema} {c : Compilation} {m : Message}
      (comment : Value) : isObject s → s.additional = none →
      g.node? c.graph.size = some (.message m) → m.name = Name.pascal rawName →
      FieldsFit env g (c.graph.size :: scope) (sortEntries s.properties)
        (c.withNode (.message ⟨Name.pascal rawName, [], [], comment⟩)) m.fields →
      FitsAnew env g scope rawName s c (.node c.graph.size)
  /-- An object with values of any kind. -/
  | struct {scope : Scope} {rawName : String} {s : Schema} {c : Compilation} {p : Schema} :
      isObject s → s.additional = some p → isOpen p = true →
      FitsAnew env g scope rawName s c (.builtin .struct)
  | map {scope : Scope} {rawName : String} {s : Schema} {c : Compilation} {p : Schema} {id : Nat}
      {value value' : TypeRef} : isObject s → s.additional = some p → isOpen p = false →
      c.graph.size ≤ id → g.node? id = some (.map (.builtin .string) value') →
      ValueFits env g scope (Name.pascal rawName) p c value → g.Becomes value value' →
      FitsAnew env g scope rawName s c (.node id)
  /-- The type of a list is that of its items. -/
  | array {scope : Scope} {rawName : String} {s : Schema} {c : Compilation} {items : Schema}
      {t : TypeRef} : s.types = ["array"] → s.items = some items →
      Fits env g scope (Name.pascal rawName) items c t → FitsAnew env g scope rawName s c t
  | scalar {scope : Scope} {rawName : String} {s : Schema} {c : Compilation} {type : String}
      {b : Builtin} : s.types = [type] → type ∈ scalarTypes → s.choices = [] →
      reservedTypes.lookup type = some b →
      FitsAnew env g scope rawName s c (.builtin (b.withFormat s.format))
  | enumeration {scope : Scope} {rawName : String} {s : Schema} {c : Compilation} {type : String} :
      s.types = [type] → type ∈ scalarTypes → s.choices ≠ [] →
      IsEnum env g c scope (withoutMessage (Name.pascal rawName)) s.choices c.graph.size →
      FitsAnew env g scope rawName s c (.node c.graph.size)
  | null {scope : Scope} {rawName : String} {s : Schema} {c : Compilation} :
      s.types = ["null"] → FitsAnew env g scope rawName s c (.builtin .nullValue)

/-- The types for the values of a map. -/
inductive ValueFits (env : Environment) (g : Graph) :
    Scope → String → Schema → Compilation → TypeRef → Prop
  | reference {scope : Scope} {name : String} {p : Schema} {c : Compilation} {t : TypeRef} :
      p.ref.isEmpty = false → ValueFits env g scope name p c t
  | listOfReference {scope : Scope} {name : String} {p : Schema} {c : Compilation} {items : Schema}
      {t : TypeRef} : p.ref.isEmpty = true → p.firstType = "array" → p.items = some items →
      items.ref.isEmpty = false → ValueFits env g scope name p c t
  /-- A list of objects: a message with a repeated field. -/
  | listOfObjects {scope : Scope} {name : String} {p : Schema} {c : Compilation} {items : Schema}
      {id : Nat} {m : Message} {f : Proto.Field TypeRef Value} {item : TypeRef} :
      p.ref.isEmpty = true → p.firstType = "array" → p.items = some items →
      items.ref.isEmpty = true → items.properties ≠ [] → c.graph.size ≤ id →
      g.node? id = some (.message m) → m.fields = [f] → f.repeated = true →
      Fits env g scope name items c item → g.Becomes item f.type →
      ValueFits env g scope name p c (.node id)
  /-- All other lists. -/
  | list {scope : Scope} {name : String} {p : Schema} {c : Compilation} :
      p.ref.isEmpty = true → p.firstType = "array" →
      (∀ items, p.items = some items → items.ref.isEmpty = true ∧ items.properties = []) →
      ValueFits env g scope name p c (.builtin .listValue)
  /-- A map inside a map. -/
  | nested {scope : Scope} {name : String} {p : Schema} {c : Compilation} {id : Nat}
      {key value : TypeRef} : p.ref.isEmpty = true → p.firstType ≠ "array" →
      Fits env g scope name p c (.node id) → g.node? id = some (.map key value) →
      ValueFits env g scope name p c (.builtin .struct)
  | value {scope : Scope} {name : String} {p : Schema} {c : Compilation} {t : TypeRef} :
      p.ref.isEmpty = true → p.firstType ≠ "array" → Fits env g scope name p c t →
      (∀ id key value, t = .node id → g.node? id ≠ some (.map key value)) →
      ValueFits env g scope name p c t

/-- The types for the property of an object. -/
inductive PropertyFits (env : Environment) (g : Graph) :
    Scope → String → Schema → Compilation → TypeRef → Prop
  | reference {scope : Scope} {key : String} {s : Schema} {c : Compilation} {t : TypeRef} :
      s.ref.isEmpty = false → PropertyFits env g scope key s c t
  /-- A property with two types or more. -/
  | several {scope : Scope} {key : String} {s : Schema} {c : Compilation} (b : Builtin) :
      1 < s.denull.types.length → PropertyFits env g scope key s c (.builtin b)
  | object {scope : Scope} {key : String} {s : Schema} {c : Compilation} {t : TypeRef} :
      isObject s.denull → Fits env g scope (key ++ "Message") s c t →
      PropertyFits env g scope key s c t
  | array {scope : Scope} {key : String} {s : Schema} {c : Compilation} {items : Schema}
      {t : TypeRef} : s.denull.types = ["array"] → s.items = some items →
      Fits env g scope (key ++ "Message") items c t → PropertyFits env g scope key s c (boxes env t)
  /-- Items that stand for a shared parameter, which keeps its type. -/
  | arrayOfParameter {scope : Scope} {key : String} {s : Schema} {c c₁ : Compilation}
      {items : Schema} {t : TypeRef} {name : String} {number : Int} {repeated : Bool} :
      s.denull.types = ["array"] → s.items = some items →
      compileSchema env items scope (key ++ "Message") (.text "") c =
        .ok (.parameter t name number repeated, c₁) → PropertyFits env g scope key s c t
  | scalar {scope : Scope} {key : String} {s : Schema} {c : Compilation} {type : String}
      {b : Builtin} : s.denull.types = [type] → type ∈ scalarTypes → s.choices = [] →
      reservedTypes.lookup type = some b →
      PropertyFits env g scope key s c (boxes env (.builtin (b.withFormat s.format)))
  | enumeration {scope : Scope} {key : String} {s : Schema} {c : Compilation} {type : String} :
      s.denull.types = [type] → type ≠ "object" → type ≠ "array" → s.choices ≠ [] →
      IsEnum env g c scope (c.graph.typeName (.node (scope.headD 0)) ++ "_" ++ key) s.choices
        c.graph.size → PropertyFits env g scope key s c (.node c.graph.size)
  /-- A property whose type is no primitive one: a visible type of that name. -/
  | named {scope : Scope} {key : String} {s : Schema} {c : Compilation} {type : String}
      {t : TypeRef} : s.denull.types = [type] → type ∉ scalarTypes → s.choices = [] →
      c.registry.lookup c.graph type scope = some t →
      PropertyFits env g scope key s c (boxes env (withFormat s.format t))
  | unnamed {scope : Scope} {key : String} {s : Schema} {c : Compilation} {type : String}
      {t : TypeRef} : s.denull.types = [type] → type ∉ scalarTypes → s.choices = [] →
      c.registry.lookup c.graph type scope = none → Fits env g scope (key ++ "Message") s c t →
      PropertyFits env g scope key s c (boxes env (withFormat s.format t))

/-- The fields for the properties of an object, one for each, which are compiled one after the
other. -/
inductive FieldsFit (env : Environment) (g : Graph) :
    Scope → List (String × Schema) → Compilation → List (Proto.Field TypeRef Value) → Prop
  | nil {scope : Scope} {c : Compilation} : FieldsFit env g scope [] c []
  | cons {scope : Scope} {key : String} {s : Schema} {rest : List (String × Schema)}
      {c c₁ : Compilation} {p : CompiledProperty} {f : Proto.Field TypeRef Value}
      {fields : List (Proto.Field TypeRef Value)} (number : Int) :
      compileProperty env scope key (part env s) c = .ok (p, c₁) →
      PropertyFits env g scope key s c p.type → (p.field number).Becomes g f →
      FieldsFit env g scope rest c₁ fields →
      FieldsFit env g scope ((key, s) :: rest) c (f :: fields)

end

end ApiProto.Compile
