import ApiProto.Proofs.PlainName
import ApiProto.Proofs.Step

/-!
# Runs

What compiling schemas in a scope does, said without the schemas: which types come out, and how the
state changes. All that holds of every compilation is proved by induction on runs.

* `Runs` — the runs of a compilation in a scope.
* `MapValue`, `PropertyType`, `NewType` — the ways to compile the values of a map, a property, and a
  schema that stands for no visible type.
* `compileSchema_runs` — compiling a schema is a run.
-/

namespace ApiProto.Compile

open Proto Document CompileM

/-- The message for a list: one repeated field. -/
def listWrapper (name field about : String) (comment : Value) (item : TypeRef) : Message :=
  ⟨name, [⟨item, field, 1, true, comment⟩], [], .text (wrapperComment about)⟩

/-- The name of the type that a reference names, which a shared list wrapper is known by. -/
def refBase (ref : String) : String :=
  Name.pascal (String.ofList (Text.afterLast '/' ref.toList))

/-- The shared list wrapper for a reference. -/
def madeWrapper (env : Environment) (c : Compilation) (ref : String) (item : TypeRef) : Message :=
  listWrapper (listWrapperName env.spec c (refBase ref)) "items" (refBase ref) (.text "") item

/-- The message of a response that is an array. -/
def arrayMessage (name : String) (item : TypeRef) : Message :=
  ⟨name, [⟨item, "items", 1, true, .text ""⟩], [], .text ""⟩

/-- The element for a choice in an enum. -/
def enumElement (env : Environment) (package : Nat) (scope : Scope) (name choice : String) : String :=
  let named := scope.head? ≠ some package || env.options.prefixEnums
  Name.enumValueName
    (if named || Name.allDigits choice.toList then name ++ "_" ++ choice else choice)

/-- Adds the fields of compiled properties to a message, with their numbers. -/
def addFields (message : Nat) (fields : List (CompiledProperty × Int)) : CompileM Unit :=
  fields.forM fun (p, number) => addPropertyField message p number

/-- The runs of a compilation: in a scope, from one state to another, with the types that come
out. -/
inductive Runs (env : Environment) : Scope → Compilation → List TypeRef → Compilation → Prop
  | nil {scope : Scope} {c : Compilation} : Runs env scope c [] c
  | cons {scope : Scope} {c c₁ c₂ : Compilation} {t : TypeRef} {ts : List TypeRef} :
      Runs env scope c [t] c₁ → Runs env scope c₁ ts c₂ → Runs env scope c (t :: ts) c₂
  /-- What has been compiled is given up for a builtin type. -/
  | builtin {scope : Scope} {c c₁ : Compilation} {ts : List TypeRef} (b : Builtin) :
      Runs env scope c ts c₁ → Runs env scope c [.builtin b] c₁
  | importing {scope : Scope} {c c₁ : Compilation} {ts : List TypeRef} (name : String) :
      Runs env scope c ts c₁ → Runs env scope c ts (c₁.importing name)
  | reference {scope : Scope} {c c₁ : Compilation} {ref : String} {d : Definition} :
      compileReference ref c = .ok (d, c₁) → Runs env scope c [d.unwrap] c₁
  /-- A declared type of a name. -/
  | found {scope : Scope} {c : Compilation} {t : TypeRef} (name : String) :
      c.registry.lookup c.graph name scope = some t → Runs env scope c [t] c
  /-- A type that has been compiled is declared in the innermost container. -/
  | declared {scope : Scope} {c c₁ : Compilation} {t : TypeRef} :
      Runs env scope c [t] c₁ → Runs env scope c [t] (c₁.declareHere scope t)
  | enumeration {scope : Scope} {c : Compilation} (rawName : String) (elements : List String) :
      Runs env scope c [.node c.graph.size]
        ((c.withNode (.enumeration ⟨Name.pascal rawName, elements, ""⟩)).declareHere scope
          (.node c.graph.size))
  | map {scope : Scope} {c c₁ : Compilation} {value : TypeRef} :
      Runs env scope c [value] c₁ →
      Runs env scope c [.node c₁.graph.size] (c₁.withNode (.map (.builtin .string) value))
  /-- The wrapper for a list of objects. -/
  | objectWrapper {scope : Scope} {c c₁ : Compilation} {item : TypeRef}
      (rawName field about : String) (comment : Value) :
      Runs env scope c [item] c₁ →
      Runs env scope c [.node c₁.graph.size]
        ((c₁.withNode (.message (listWrapper (withoutMessage (Name.pascal rawName) ++ "List")
          field about comment item))).declareHere scope (.node c₁.graph.size))
  /-- The wrapper for a list of a referenced type, which all such lists share. -/
  | sharedWrapper {scope : Scope} {c c₁ : Compilation} {ref : String} {d : Definition}
      (rawName : String) :
      c.wrappers.lookup (Name.pascal rawName) = none →
      compileReference ref c = .ok (d, c₁) →
      Runs env scope c [.node c₁.graph.size]
        (((c₁.withNode (.message (listWrapper
            (listWrapperName env.spec c₁ (Name.pascal rawName)) "items" (Name.pascal rawName)
            (.text "") d.unwrap))).remember (Name.pascal rawName) c₁.graph.size).declare scope
              c₁.package (.node c₁.graph.size))
  | wrapped {scope : Scope} {c : Compilation} {base : String} {wrapper : Nat} :
      c.wrappers.lookup base = some wrapper → Runs env scope c [.node wrapper] c
  /-- A message: its properties are compiled inside it, and added as fields. -/
  | message {scope : Scope} {c c₁ c₂ : Compilation} {ts : List TypeRef} (rawName : String)
      (comment : Value) (fields : List (CompiledProperty × Int)) :
      c.registry.lookup c.graph (Name.pascal rawName) scope = none →
      Runs env (c.graph.size :: scope)
        (c.withNode (.message ⟨Name.pascal rawName, [], [], comment⟩)) ts c₁ →
      (∀ field ∈ fields, field.1.type ∈ ts) →
      addFields c.graph.size fields c₁ = .ok ((), c₂) →
      Runs env scope c [.node c.graph.size] (c₂.declareHere scope (.node c.graph.size))
  /-- The message of a response that is an array. -/
  | arrayResponse {scope : Scope} {c c₁ : Compilation} {item : TypeRef} (name : String) :
      Name.IsPlain name → Runs env scope c [item] c₁ →
      Runs env scope c [.node c₁.graph.size]
        (((c₁.withNode (.message (arrayMessage name item))).importing
          ((c₁.withNode (.message (arrayMessage name item))).graph.typeName item)).declareHere scope
            (.node c₁.graph.size))

variable {env : Environment} {scope : Scope} {c c' : Compilation}

/-! ## Parts of schemas -/

/-- A way to compile a schema of which all successes are runs. -/
def ActionRuns (env : Environment) (a : Action) : Prop :=
  ∀ scope rawName comment c d c', a scope rawName comment c = .ok (d, c') →
    Runs env scope c [d.unwrap] c'

/-- An inner schema of which all successes are runs. -/
structure PartRuns (env : Environment) (p : Part) : Prop where
  whole : ActionRuns env p.whole
  items : ∀ a, p.items = some a → ActionRuns env a

theorem compileReferenceValue_runs {ref : Value} {d : Definition}
    (h : compileReferenceValue ref c = .ok (d, c')) : Runs env scope c [d.unwrap] c' := by
  simp only [compileReferenceValue, bind_ok_iff, ofResult_ok_iff] at h
  obtain ⟨text, _, ⟨-, rfl⟩, h⟩ := h
  exact .reference h

theorem compileMultiType_runs {s : Schema} {t : TypeRef} (h : compileMultiType s c = .ok (t, c')) :
    Runs env scope c [t] c' := by
  have hbuiltin : ∀ b : Builtin, (pure (.builtin b) : CompileM TypeRef) c = .ok (t, c') →
      Runs env scope c [t] c' := by
    intro b h
    obtain ⟨rfl, rfl⟩ : .builtin b = t ∧ c = c' := by simpa using h
    exact .builtin b .nil
  generalize hm : compileMultiType s = m at h
  unfold compileMultiType at hm
  split at hm
  · split at hm
    · subst hm
      exact hbuiltin _ h
    · subst hm
      simp at h
  · subst hm
    exact hbuiltin _ h

theorem compileEnum_ok {rawName : String} {choices : List String} {t : TypeRef}
    (h : compileEnum env scope rawName choices c = .ok (t, c')) :
    t = .node c.graph.size ∧ c' = c.withNode (.enumeration ⟨Name.pascal rawName,
      choices.map (enumElement env c.package scope rawName), ""⟩) := by
  simp only [compileEnum, get_bind, newNode_bind, pure_run, Except.ok.injEq, Prod.mk.injEq] at h
  obtain ⟨rfl, rfl⟩ := h
  exact ⟨rfl, rfl⟩

theorem withFormat_runs {format : String} {t : TypeRef} (h : Runs env scope c [t] c') :
    Runs env scope c [withFormat format t] c' := by
  cases t with
  | builtin b => exact .builtin _ h
  | node id => exact h

theorem boxed_runs {t : TypeRef} (h : Runs env scope c [t] c') :
    Runs env scope c [boxed t] c' := by
  cases t with
  | builtin b => exact .builtin _ h
  | node id => exact h

/-! ## Maps -/

/-- A list of what a reference refers to is in the wrapper that its name has, or in a new one. -/
theorem refListWrapper_ok {ref : Value} {t : TypeRef}
    (h : refListWrapper env scope ref c = .ok (t, c')) :
    ∃ text, ref.textWith "rsplit" = .ok text ∧
      ((∃ wrapper, c.wrappers.lookup (refBase text) = some wrapper ∧ t = .node wrapper ∧ c' = c) ∨
        c.wrappers.lookup (refBase text) = none ∧ ∃ d c₁, compileReference text c = .ok (d, c₁) ∧
          t = .node c₁.graph.size ∧
          c' = ((c₁.withNode (.message (madeWrapper env c₁ text d.unwrap))).remember (refBase text)
            c₁.graph.size).declare scope c₁.package (.node c₁.graph.size)) := by
  simp only [refListWrapper, bind_ok_iff, get_bind, ofResult_ok_iff] at h
  obtain ⟨text, _, ⟨htext, rfl⟩, h⟩ := h
  rw [show Name.pascal (String.ofList (Text.afterLast '/' text.toList)) = refBase text from rfl] at h
  refine ⟨text, htext, ?_⟩
  rcases hwrapper : c.wrappers.lookup (refBase text) with _ | wrapper <;> rw [hwrapper] at h
  · obtain ⟨d, c₁, hitem, h⟩ := bind_ok_iff.1 h
    simp only [newListWrapper, get_bind, newNode_bind, modify_bind, declareIn_bind, pure_run,
      Except.ok.injEq, Prod.mk.injEq] at h
    obtain ⟨rfl, rfl⟩ := h
    exact .inr ⟨rfl, d, c₁, hitem, rfl, rfl⟩
  · obtain ⟨rfl, rfl⟩ : .node wrapper = t ∧ c = c' := by simpa using h
    exact .inl ⟨wrapper, rfl, rfl, rfl⟩

theorem refListWrapper_runs {ref : Value} {t : TypeRef}
    (h : refListWrapper env scope ref c = .ok (t, c')) : Runs env scope c [t] c' := by
  obtain ⟨text, -, ⟨wrapper, hwrapper, rfl, rfl⟩ | ⟨hnone, d, c₁, hitem, rfl, rfl⟩⟩ :=
    refListWrapper_ok h
  · exact .wrapped hwrapper
  · exact .sharedWrapper _ hnone hitem

/-- A list of objects is in a new wrapper, after the type of its items has been declared. -/
theorem objectListWrapper_ok {name rawField : String} {comment itemComment : Value}
    {items : Action} {t : TypeRef}
    (h : objectListWrapper scope name rawField comment items itemComment c = .ok (t, c')) :
    ∃ d c₁ c₂, items scope name itemComment c = .ok (d, c₁) ∧ c₂ = c₁.declareHere scope d.unwrap ∧
      t = .node c₂.graph.size ∧
      c' = (c₂.withNode (.message (listWrapper (withoutMessage name ++ "List")
        (if (Name.fieldName rawField).isEmpty then "items" else Name.fieldName rawField)
        (c₂.graph.typeName d.unwrap) comment d.unwrap))).declareHere scope
          (.node c₂.graph.size) := by
  unfold objectListWrapper at h
  obtain ⟨d, c₁, hitem, h⟩ := bind_ok_iff.1 h
  simp only [newListWrapper, declareDefinition_bind, nameOf_bind, newNode_bind, pure_run,
    Except.ok.injEq, Prod.mk.injEq] at h
  obtain ⟨rfl, rfl⟩ := h
  exact ⟨d, c₁, _, hitem, rfl, rfl, rfl⟩

theorem objectListWrapper_runs {rawName rawField : String} {comment itemComment : Value}
    {items : Action} {t : TypeRef} (hitems : ActionRuns env items)
    (h : objectListWrapper scope (Name.pascal rawName) rawField comment items itemComment c =
      .ok (t, c')) : Runs env scope c [t] c' := by
  obtain ⟨d, c₁, c₂, hitem, rfl, rfl, rfl⟩ := objectListWrapper_ok h
  exact .objectWrapper _ _ _ _ (.declared (hitems _ _ _ _ _ _ hitem))

/-- The ways to compile the schema of the values of a map: what comes out, and the state after. -/
inductive MapValue (env : Environment) (scope : Scope) (name rawField : String) (p : Part)
    (c : Compilation) : TypeRef → Compilation → Prop
  | reference {d : Definition} {c' : Compilation} : p.schema.ref.isEmpty = false →
      compileReferenceValue p.schema.ref c = .ok (d, c') →
      MapValue env scope name rawField p c d.unwrap c'
  | listOfReference {i : Schema} {items : Action} {t : TypeRef} {c' : Compilation} :
      p.schema.ref.isEmpty = true → p.schema.firstType = "array" → p.schema.items = some i →
      p.items = some items → i.ref.isEmpty = false →
      refListWrapper env scope i.ref c = .ok (t, c') → MapValue env scope name rawField p c t c'
  | listOfObjects {i : Schema} {items : Action} {t : TypeRef} {c' : Compilation} :
      p.schema.ref.isEmpty = true → p.schema.firstType = "array" → p.schema.items = some i →
      p.items = some items → i.ref.isEmpty = true → i.properties ≠ [] →
      objectListWrapper scope name rawField p.schema.description items i.description c =
        .ok (t, c') → MapValue env scope name rawField p c t c'
  | list : p.schema.ref.isEmpty = true → p.schema.firstType = "array" →
      (∀ i items, p.schema.items = some i → p.items = some items →
        i.ref.isEmpty = true ∧ i.properties = []) →
      MapValue env scope name rawField p c (.builtin .listValue)
        (c.importing Builtin.listValue.name)
  | nested {d : Definition} {c₁ : Compilation} :
      p.schema.ref.isEmpty = true → p.schema.firstType ≠ "array" →
      p.whole scope name p.schema.description c = .ok (d, c₁) →
      isMap d.unwrap c₁ = .ok (true, c₁) →
      MapValue env scope name rawField p c (.builtin .struct) (c₁.importing Builtin.struct.name)
  | value {d : Definition} {c' : Compilation} :
      p.schema.ref.isEmpty = true → p.schema.firstType ≠ "array" →
      p.whole scope name p.schema.description c = .ok (d, c') →
      isMap d.unwrap c' = .ok (false, c') → MapValue env scope name rawField p c d.unwrap c'

theorem compileMapValue_cases {name rawField : String} {p : Part} {t : TypeRef}
    (h : compileMapValue env scope name rawField p c = .ok (t, c')) :
    MapValue env scope name rawField p c t c' := by
  have hlist : (do addImportFor Builtin.listValue.name; return .builtin .listValue :
        CompileM TypeRef) c = .ok (t, c') → p.schema.ref.isEmpty = true →
      p.schema.firstType = "array" → (∀ i items, p.schema.items = some i → p.items = some items →
        i.ref.isEmpty = true ∧ i.properties = []) → MapValue env scope name rawField p c t c' := by
    intro h href harray hother
    simp only [addImportFor_bind, pure_run, Except.ok.injEq, Prod.mk.injEq] at h
    obtain ⟨rfl, rfl⟩ := h
    exact .list href harray hother
  unfold compileMapValue at h
  dsimp only at h
  split at h
  · next href =>
    obtain ⟨d, c₁, hd, h⟩ := bind_ok_iff.1 h
    obtain ⟨rfl, rfl⟩ : d.unwrap = t ∧ c₁ = c' := by simpa using h
    exact .reference (by simpa using href) hd
  · next href =>
    have href : p.schema.ref.isEmpty = true := by simpa using href
    split at h
    · next harray =>
      rcases hi : p.schema.items with _ | i <;> rw [hi] at h
      · exact hlist h href harray (by simp [hi])
      · rcases haction : p.items with _ | items <;> rw [haction] at h
        · exact hlist h href harray (by simp [haction])
        · dsimp only at h
          split at h
          · next hitem => exact .listOfReference href harray hi haction (by simpa using hitem) h
          · next hitem =>
            have hitem : i.ref.isEmpty = true := by simpa using hitem
            split at h
            · next hproperties =>
              exact .listOfObjects href harray hi haction hitem (by simpa using hproperties) h
            · next hproperties =>
              refine hlist h href harray fun other _ hother _ => ?_
              obtain rfl := Option.some.inj (hi.symm.trans hother)
              exact ⟨hitem, by simpa using hproperties⟩
    · next harray =>
      obtain ⟨d, c₁, hd, h⟩ := bind_ok_iff.1 h
      obtain ⟨nested, c₂, hn, h⟩ := bind_ok_iff.1 h
      obtain rfl := isMap_ok hn
      cases nested with
      | true =>
        simp only [↓reduceIte, addImportFor_bind, pure_run, Except.ok.injEq, Prod.mk.injEq] at h
        obtain ⟨rfl, rfl⟩ := h
        exact .nested href harray hd hn
      | false =>
        obtain ⟨rfl, rfl⟩ : d.unwrap = t ∧ c₁ = c' := by simpa using h
        exact .value href harray hd hn

theorem compileMapValue_runs {rawName rawField : String} {p : Part} (hp : PartRuns env p)
    {t : TypeRef} (h : MapValue env scope (Name.pascal rawName) rawField p c t c') :
    Runs env scope c [t] c' := by
  cases h with
  | reference _ hd => exact compileReferenceValue_runs hd
  | listOfReference _ _ _ _ _ hlist => exact refListWrapper_runs hlist
  | listOfObjects _ _ _ haction _ _ hlist =>
    exact objectListWrapper_runs (hp.items _ haction) hlist
  | list => exact .importing _ (.builtin _ .nil)
  | nested _ _ hd => exact .importing _ (.builtin _ (hp.whole _ _ _ _ _ _ hd))
  | value _ _ hd => exact hp.whole _ _ _ _ _ _ hd

/-- A map is a new node, made after its values have been compiled. -/
theorem compileMap_ok {name rawField : String} {p : Part} {t : TypeRef}
    (h : compileMap env scope name rawField p c = .ok (t, c')) :
    ∃ value c₁, MapValue env scope name rawField p c value c₁ ∧ t = .node c₁.graph.size ∧
      c' = c₁.withNode (.map (.builtin .string) value) := by
  unfold compileMap at h
  obtain ⟨value, c₁, hvalue, h⟩ := bind_ok_iff.1 h
  simp only [newNode_bind, pure_run, Except.ok.injEq, Prod.mk.injEq] at h
  obtain ⟨rfl, rfl⟩ := h
  exact ⟨value, c₁, compileMapValue_cases hvalue, rfl, rfl⟩

theorem compileMap_runs {rawName rawField : String} {p : Part} (hp : PartRuns env p)
    {t : TypeRef} (h : compileMap env scope (Name.pascal rawName) rawField p c = .ok (t, c')) :
    Runs env scope c [t] c' := by
  obtain ⟨value, c₁, hvalue, rfl, rfl⟩ := compileMap_ok h
  exact .map (compileMapValue_runs hp hvalue)

/-! ## Kinds of schemas -/

/-- Whether a schema describes an object. -/
def isObject (s : Schema) : Prop := s.types.length ≤ 1 ∧ (s.types = [] ∨ "object" ∈ s.types)

theorem eq_singleton_of_mem {l : List String} {type : String} (hlength : ¬ 1 < l.length)
    (hmem : type ∈ l) : l = [type] := by
  match l with
  | [other] => rw [List.mem_singleton.1 hmem]
  | _ :: _ :: _ => simp at hlength

theorem isObject.not_array {s : Schema} (h : isObject s) : "array" ∉ s.types := by
  intro harray
  rcases h with ⟨hone, hnone | hobject⟩
  · rw [hnone] at harray
    cases harray
  · have htypes := eq_singleton_of_mem (Nat.not_lt.2 hone) hobject
    rw [htypes] at harray
    exact absurd (List.mem_singleton.1 harray) (by decide)

/-- The type of a property, which is boxed if scalars are to be wrapped. -/
def boxes (env : Environment) (t : TypeRef) : TypeRef :=
  if env.options.wrapPrimitives then boxed t else t

/-! ## Messages -/

/-- A change to types that keeps runs keeps them for definitions. -/
theorem mapType_runs {k : TypeRef → TypeRef} {d : Definition}
    (hk : ∀ {t}, Runs env scope c [t] c' → Runs env scope c [k t] c')
    (h : Runs env scope c [d.unwrap] c') : Runs env scope c [(d.mapType k).unwrap] c' := by
  cases d with
  | parameter => exact h
  | type t => exact hk h

section PropertyType

variable (env : Environment) (scope : Scope) (key : String) (p : Part)

/-- The ways to compile a property: what comes out, and the state after. -/
inductive PropertyType (c : Compilation) : Definition → Compilation → Prop
  | several {t : TypeRef} {c' : Compilation} : 1 < p.schema.denull.types.length →
      compileMultiType p.schema.denull c = .ok (t, c') → PropertyType c (.type t) c'
  | object {d : Definition} {c' : Compilation} : isObject p.schema.denull →
      p.whole scope (key ++ "Message") (.text "") c = .ok (d, c') → PropertyType c d c'
  | array {items : Action} {d : Definition} {c' : Compilation} :
      p.schema.denull.types = ["array"] → p.items = some items →
      items scope (key ++ "Message") (.text "") c = .ok (d, c') →
      PropertyType c (d.mapType (boxes env)) c'
  | named {type : String} {t : TypeRef} : p.schema.denull.types = [type] →
      p.schema.denull.choices = [] → c.registry.lookup c.graph type scope = some t →
      PropertyType c (.type (boxes env (withFormat p.schema.denull.format t))) c
  | unnamed {type : String} {d : Definition} {c' : Compilation} :
      p.schema.denull.types = [type] → "array" ∉ p.schema.denull.types →
      p.schema.denull.choices = [] → c.registry.lookup c.graph type scope = none →
      p.whole scope (key ++ "Message") (.text "") c = .ok (d, c') →
      PropertyType c (d.mapType fun t => boxes env (withFormat p.schema.denull.format t)) c'
  | enumeration {type : String} {t : TypeRef} {c' : Compilation} :
      p.schema.denull.types = [type] → type ≠ "object" → type ≠ "array" →
      p.schema.denull.choices ≠ [] →
      compileEnum env scope (c.graph.typeName (.node (scope.headD 0)) ++ "_" ++ key)
        p.schema.denull.choices c = .ok (t, c') → PropertyType c (.type t) c'

end PropertyType

theorem compilePropertyType_cases {key : String} {p : Part} {d : Definition}
    (h : compilePropertyType env scope key p c = .ok (d, c')) :
    PropertyType env scope key p c d c' := by
  unfold compilePropertyType at h
  dsimp only at h
  split at h
  · next hseveral =>
    obtain ⟨t, c₁, ht, h⟩ := bind_ok_iff.1 h
    obtain ⟨rfl, rfl⟩ : .type t = d ∧ c₁ = c' := by simpa using h
    exact .several hseveral ht
  · next hone =>
    split at h
    · next hobject => exact .object ⟨Nat.le_of_not_lt hone, by simpa using hobject⟩ h
    · next hobject =>
      split at h
      · next harray =>
        rcases hitems : p.items with _ | items <;> rw [hitems] at h
        · simp at h
        · obtain ⟨d', c₁, hd, h⟩ := bind_ok_iff.1 h
          obtain ⟨rfl, rfl⟩ : d'.mapType (boxes env) = d ∧ c₁ = c' :=
            Prod.mk.inj (Except.ok.inj h)
          exact .array (eq_singleton_of_mem hone (List.contains_iff_mem.1 harray)) hitems hd
      · next harray =>
        obtain ⟨type, htypes, hnotObject, hnotArray⟩ : ∃ type,
            p.schema.denull.types = [type] ∧ type ≠ "object" ∧ type ≠ "array" := by
          match htypes : p.schema.denull.types with
          | [] => simp [htypes] at hobject
          | [type] =>
            rw [htypes] at hobject harray
            exact ⟨type, rfl, by simpa [eq_comm] using hobject, by simpa [eq_comm] using harray⟩
          | _ :: _ :: _ => simp [htypes] at hone
        have hfirst : p.schema.denull.firstType = type := by rw [Schema.firstType, htypes]; rfl
        split at h
        · next hchoices =>
          have hchoices : p.schema.denull.choices = [] := by simpa using hchoices
          rw [lookupType_bind, hfirst] at h
          rcases hfound : c.registry.lookup c.graph type scope with _ | t <;> rw [hfound] at h
          · obtain ⟨d', c₁, hd, h⟩ := bind_ok_iff.1 h
            obtain ⟨rfl, rfl⟩ := Prod.mk.inj (Except.ok.inj h)
            exact .unnamed htypes (by simpa using harray) hchoices hfound hd
          · obtain ⟨rfl, rfl⟩ := Prod.mk.inj (Except.ok.inj h)
            exact .named htypes hchoices hfound
        · next hchoices =>
          rw [nameOf_bind] at h
          obtain ⟨t, c₁, ht, h⟩ := bind_ok_iff.1 h
          -- an enum is a node, which formats and boxes leave as it is
          obtain rfl : d = .type t := by
            obtain ⟨rfl, -⟩ := compileEnum_ok ht
            obtain ⟨rfl, -⟩ := Prod.mk.inj (Except.ok.inj h)
            show Definition.type (if _ then _ else _) = _
            split <;> rfl
          obtain rfl := (Prod.mk.inj (Except.ok.inj h)).2
          exact .enumeration htypes hnotObject hnotArray (by simpa using hchoices) ht

/-- What a property is compiled to: a type that comes out of a run, or a new enum, which is still to
be declared. -/
theorem compilePropertyType_ok {name : String} {p : Part} (hp : PartRuns env p) {d : Definition}
    (h : compilePropertyType env scope name p c = .ok (d, c')) :
    Runs env scope c [d.unwrap] c' ∨ ∃ rawName elements, d = .type (.node c.graph.size) ∧
      c' = c.withNode (.enumeration ⟨Name.pascal rawName, elements, ""⟩) := by
  have hboxes : ∀ {c₁ t}, Runs env scope c [t] c₁ → Runs env scope c [boxes env t] c₁ := by
    intro c₁ t hrun
    unfold boxes
    split
    · exact boxed_runs hrun
    · exact hrun
  cases compilePropertyType_cases h with
  | several _ ht => exact .inl (compileMultiType_runs ht)
  | object _ hd => exact .inl (hp.whole _ _ _ _ _ _ hd)
  | array _ hitems hd => exact .inl (mapType_runs hboxes (hp.items _ hitems _ _ _ _ _ _ hd))
  | named _ _ hfound => exact .inl (hboxes (withFormat_runs (.found _ hfound)))
  | unnamed _ _ _ _ hd =>
    exact .inl (mapType_runs (fun ht => hboxes (withFormat_runs ht)) (hp.whole _ _ _ _ _ _ hd))
  | enumeration _ _ _ _ ht =>
    obtain ⟨rfl, rfl⟩ := compileEnum_ok ht
    exact .inr ⟨_, _, rfl, rfl⟩

/-- Whether the field of a property is repeated, given what the property is compiled to. -/
def Definition.repeats (s : Schema) : Definition → Bool
  | .type _ => s.denull.types.contains "array"
  | .parameter _ _ _ repeated => repeated

/-- A property becomes a field once its type has been compiled and declared. A shared parameter
determines the field; otherwise the schema does. -/
theorem compileProperty_cases {name : String} {p : Part} {field : CompiledProperty}
    (h : compileProperty env scope name p c = .ok (field, c')) :
    ∃ d c₁, compilePropertyType env scope name p c = .ok (d, c₁) ∧
      c' = c₁.declareHere scope d.unwrap ∧
      ((∃ t given number repeated, d = .parameter t given number repeated ∧
          field = ⟨given, t, number, repeated, p.schema.description⟩) ∨
        ∃ t word, d = .type t ∧
          (if p.schema.protoName.isEmpty then word = name
            else p.schema.protoName.wordText = .ok word) ∧
          field = ⟨word, t, p.schema.tag, p.schema.denull.types.contains "array",
            p.schema.description⟩) := by
  unfold compileProperty at h
  dsimp only at h
  obtain ⟨d, c₁, hd, h⟩ := bind_ok_iff.1 h
  refine ⟨d, c₁, hd, ?_⟩
  cases d with
  | parameter t given number repeated =>
    simp only [pure_bind_run, declareDefinition_bind, pure_run, Except.ok.injEq,
      Prod.mk.injEq] at h
    obtain ⟨rfl, rfl⟩ := h
    exact ⟨rfl, .inl ⟨t, given, number, repeated, rfl, rfl⟩⟩
  | type t =>
    dsimp only at h
    split at h
    · next hnone =>
      simp only [pure_bind_run, declareDefinition_bind, pure_run, Except.ok.injEq,
        Prod.mk.injEq] at h
      obtain ⟨rfl, rfl⟩ := h
      exact ⟨rfl, .inr ⟨t, name, rfl, by rw [if_pos hnone], rfl⟩⟩
    · next hsome =>
      obtain ⟨word, c₂, hword, h⟩ := bind_ok_iff.1 h
      obtain ⟨hword, rfl⟩ := ofResult_ok_iff.1 hword
      simp only [pure_bind_run, declareDefinition_bind, pure_run, Except.ok.injEq,
        Prod.mk.injEq] at h
      obtain ⟨rfl, rfl⟩ := h
      exact ⟨rfl, .inr ⟨t, word, rfl, by rw [if_neg hsome, hword], rfl⟩⟩

/-- A property is declared once its type has been compiled. -/
theorem compileProperty_ok {name : String} {p : Part} {field : CompiledProperty}
    (h : compileProperty env scope name p c = .ok (field, c')) :
    ∃ d c₁, compilePropertyType env scope name p c = .ok (d, c₁) ∧ field.type = d.unwrap ∧
      c' = c₁.declareHere scope d.unwrap ∧ field.repeated = d.repeats p.schema := by
  obtain ⟨d, c₁, hd, hdeclared, ⟨t, given, number, repeated, rfl, rfl⟩ | ⟨t, word, rfl, -, rfl⟩⟩ :=
    compileProperty_cases h
  · exact ⟨_, c₁, hd, rfl, hdeclared, rfl⟩
  · exact ⟨_, c₁, hd, rfl, hdeclared, rfl⟩

theorem compileProperty_runs {name : String} {p : Part} (hp : PartRuns env p)
    {field : CompiledProperty} (h : compileProperty env scope name p c = .ok (field, c')) :
    Runs env scope c [field.type] c' := by
  obtain ⟨d, c₁, hd, htype, rfl, -⟩ := compileProperty_ok h
  rw [htype]
  rcases compilePropertyType_ok hp hd with hrun | ⟨rawName, elements, rfl, rfl⟩
  · exact .declared hrun
  · exact .enumeration rawName elements

theorem mapM_compileProperty_runs {properties : List (String × Part)}
    (hp : ∀ entry ∈ properties, PartRuns env entry.2) {fields : List CompiledProperty}
    (h : (properties.mapM fun (key, p) =>
      within ("failed to compile property " ++ key) (compileProperty env scope key p)) c =
        .ok (fields, c')) :
    Runs env scope c (fields.map (·.type)) c' := by
  induction properties generalizing c fields with
  | nil =>
    obtain ⟨rfl, rfl⟩ : [] = fields ∧ c = c' := by simpa using h
    exact .nil
  | cons entry rest ih =>
    rw [List.mapM_cons] at h
    obtain ⟨field, c₁, hfield, h⟩ := bind_ok_iff.1 h
    obtain ⟨others, c₂, hrest, h⟩ := bind_ok_iff.1 h
    obtain ⟨rfl, rfl⟩ : field :: others = fields ∧ c₂ = c' := by simpa using h
    exact .cons (compileProperty_runs (hp entry (List.mem_cons_self ..)) (within_ok_iff.1 hfield))
      (ih (fun e he => hp e (List.mem_cons_of_mem _ he)) hrest)

theorem compileProperties_ok {message : Nat} {name : String} {properties : List (String × Part)}
    (hp : ∀ entry ∈ properties, PartRuns env entry.2)
    (h : compileProperties env scope message name properties c = .ok ((), c')) :
    ∃ ts c₁ fields, Runs env scope c ts c₁ ∧ (∀ field ∈ fields, field.1.type ∈ ts) ∧
      addFields message fields c₁ = .ok ((), c') := by
  unfold compileProperties at h
  obtain ⟨compiled, c₁, hcompiled, h⟩ := bind_ok_iff.1 h
  have hruns := mapM_compileProperty_runs (fun e he => hp e (mem_sortEntries.1 he)) hcompiled
  rcases hnumbers : assignNumbers name (compiled.map fun p => (Name.fieldName p.name, p.number))
    with e | numbers <;> rw [hnumbers] at h
  · simp at h
  · refine ⟨_, c₁, compiled.zip numbers, hruns, fun field hfield => ?_, h⟩
    obtain ⟨property, number⟩ := field
    exact List.mem_map.2 ⟨property, (List.of_mem_zip hfield).1, rfl⟩

/-- The properties of an object are compiled inside a new message, in the order of their names,
numbered, and added to it as fields. -/
theorem compileMessage_ok {name : String} {comment : Value} {properties : List (String × Schema)}
    {d : Definition}
    (h : compileMessage env scope name comment (partList env properties) c = .ok (d, c')) :
    d = .type (.node c.graph.size) ∧ ∃ compiled c₁ numbers c₂,
      ((partList env (sortEntries properties)).mapM fun (key, p) =>
        within ("failed to compile property " ++ key)
          (compileProperty env (c.graph.size :: scope) key p))
        (c.withNode (.message ⟨name, [], [], comment⟩)) = .ok (compiled, c₁) ∧
      assignNumbers name (compiled.map fun p => (Name.fieldName p.name, p.number)) = .ok numbers ∧
      addFields c.graph.size (compiled.zip numbers) c₁ = .ok ((), c₂) ∧
      c' = c₂.declareHere scope (.node c.graph.size) := by
  have hsort : sortEntries (partList env properties) = partList env (sortEntries properties) := by
    rw [partList_eq_map, partList_eq_map]
    exact sortBy_map (fun _ _ => rfl) properties
  unfold compileMessage at h
  rw [newNode_bind] at h
  obtain ⟨_, c₂, hproperties, h⟩ := bind_ok_iff.1 h
  simp only [declareDefinition_bind, pure_run, Except.ok.injEq, Prod.mk.injEq] at h
  obtain ⟨rfl, rfl⟩ := h
  have hproperties := within_ok_iff.1 hproperties
  unfold compileProperties at hproperties
  rw [hsort] at hproperties
  obtain ⟨compiled, c₁, hcompiled, hproperties⟩ := bind_ok_iff.1 hproperties
  rcases hnumbers : assignNumbers name
    (compiled.map fun p => (Name.fieldName p.name, p.number)) with e | numbers <;>
    rw [hnumbers] at hproperties
  · simp at hproperties
  · exact ⟨rfl, compiled, c₁, numbers, c₂, hcompiled, hnumbers, hproperties, rfl⟩

theorem compileMessage_runs {rawName : String} {comment : Value}
    {properties : List (String × Part)} (hp : ∀ entry ∈ properties, PartRuns env entry.2)
    (free : c.registry.lookup c.graph (Name.pascal rawName) scope = none) {d : Definition}
    (h : compileMessage env scope (Name.pascal rawName) comment properties c = .ok (d, c')) :
    Runs env scope c [d.unwrap] c' := by
  unfold compileMessage at h
  rw [newNode_bind] at h
  obtain ⟨_, c₁, hproperties, h⟩ := bind_ok_iff.1 h
  obtain ⟨ts, c₂, fields, hruns, htypes, hadd⟩ := compileProperties_ok hp (within_ok_iff.1 hproperties)
  simp only [declareDefinition_bind, pure_run, Except.ok.injEq, Prod.mk.injEq] at h
  obtain ⟨rfl, rfl⟩ := h
  exact .message rawName comment fields free hruns htypes hadd

/-! ## Schemas -/

section NewType

variable (env : Environment) (s : Schema) (scope : Scope) (rawName name : String) (comment : Value)
  (items : Option Action) (additional : Option Part) (properties : List (String × Part))

/-- The ways to compile a schema that stands for no visible type: what comes out, and the state
after. -/
inductive NewType (c : Compilation) : Definition → Compilation → Prop
  | several {t : TypeRef} {c' : Compilation} : 1 < s.types.length →
      compileMultiType s c = .ok (t, c') → NewType c (.type t) c'
  | message {d : Definition} {c' : Compilation} : isObject s → additional = none →
      compileMessage env scope name comment properties c = .ok (d, c') → NewType c d c'
  | struct {p : Part} : isObject s → additional = some p → isOpen p.schema = true →
      NewType c (.type (.builtin .struct)) (c.importing Builtin.struct.name)
  | map {p : Part} {t : TypeRef} {c' : Compilation} : isObject s → additional = some p →
      isOpen p.schema = false →
      compileMap env scope name (withoutMessage rawName) p c = .ok (t, c') → NewType c (.type t) c'
  | parameters {action : Action} {t : TypeRef} {given : String} {number : Int} {repeated : Bool}
      {c' : Compilation} : s.types = ["array"] → items = some action →
      action scope name (.text "") c = .ok (.parameter t given number repeated, c') →
      NewType c (.parameter t given number repeated) c'
  | list {action : Action} {t : TypeRef} {c₁ : Compilation} : s.types = ["array"] →
      items = some action → action scope name (.text "") c = .ok (.type t, c₁) →
      NewType c (.type t) (c₁.declareHere scope t)
  | scalar {type : String} {t : TypeRef} : s.types = [type] → type ∈ scalarTypes → s.choices = [] →
      c.registry.lookup c.graph type scope = some t → NewType c (.type (withFormat s.format t)) c
  | enumeration {type : String} {t : TypeRef} {c₁ : Compilation} : s.types = [type] →
      type ∈ scalarTypes → s.choices ≠ [] →
      compileEnum env scope (withoutMessage name) s.choices c = .ok (t, c₁) →
      NewType c (.type t) (c₁.declareHere scope t)
  | null : s.types = ["null"] → NewType c (.type (.builtin .nullValue)) c

end NewType

theorem compileNew_cases {s : Schema} {rawName name : String} {comment : Value}
    {items : Option Action} {additional : Option Part} {properties : List (String × Part)}
    {d : Definition}
    (h : compileNew env s scope rawName name comment items additional properties c = .ok (d, c')) :
    NewType env s scope rawName name comment items additional properties c d c' := by
  unfold compileNew at h
  split at h
  · next hseveral =>
    obtain ⟨t, c₁, ht, h⟩ := bind_ok_iff.1 h
    obtain ⟨rfl, rfl⟩ : .type t = d ∧ c₁ = c' := by simpa using h
    exact .several hseveral ht
  · next hone =>
    split at h
    · next hobject =>
      have hobject : isObject s := ⟨Nat.le_of_not_lt hone, by simpa using hobject⟩
      rcases additional with _ | p
      · exact .message hobject rfl h
      · dsimp only at h
        split at h
        · next hopen =>
          simp only [addImportFor_bind, pure_run, Except.ok.injEq, Prod.mk.injEq] at h
          obtain ⟨rfl, rfl⟩ := h
          exact .struct hobject rfl hopen
        · next hopen =>
          obtain ⟨t, c₁, ht, h⟩ := bind_ok_iff.1 h
          obtain ⟨rfl, rfl⟩ : .type t = d ∧ c₁ = c' := by simpa using h
          exact .map hobject rfl (Bool.eq_false_iff.2 hopen) ht
    · split at h
      · next harray =>
        have htypes := eq_singleton_of_mem hone (List.contains_iff_mem.1 harray)
        rcases items with _ | action
        · simp at h
        · obtain ⟨d', c₁, hd, h⟩ := bind_ok_iff.1 h
          cases d' with
          | parameter t given number repeated =>
            obtain ⟨rfl, rfl⟩ : .parameter t given number repeated = d ∧ c₁ = c' := by
              cases scope <;> simpa [declareDefinition] using h
            exact .parameters htypes rfl hd
          | type t =>
            simp only [declareDefinition_bind, pure_run, Except.ok.injEq, Prod.mk.injEq] at h
            obtain ⟨rfl, rfl⟩ := h
            exact .list htypes rfl hd
      · split at h
        · next hscalars =>
          obtain ⟨type, hmem, hscalar⟩ := List.any_eq_true.1 hscalars
          have hscalar := List.contains_iff_mem.1 hscalar
          have htypes := eq_singleton_of_mem hone hmem
          have hfirst : s.firstType = type := by rw [Schema.firstType, htypes]; rfl
          split at h
          · next hchoices =>
            rw [lookupType_bind, hfirst] at h
            rcases hfound : c.registry.lookup c.graph type scope with _ | t <;> rw [hfound] at h
            · simp at h
            · obtain ⟨rfl, rfl⟩ : .type (withFormat s.format t) = d ∧ c = c' := by simpa using h
              exact .scalar htypes hscalar (by simpa using hchoices) hfound
          · next hchoices =>
            obtain ⟨t, c₁, ht, h⟩ := bind_ok_iff.1 h
            simp only [declareDefinition_bind, pure_run, Except.ok.injEq, Prod.mk.injEq] at h
            obtain ⟨rfl, rfl⟩ := h
            exact .enumeration htypes hscalar (by simpa using hchoices) ht
        · split at h
          · next hnull =>
            obtain ⟨rfl, rfl⟩ : .type (.builtin .nullValue) = d ∧ c = c' := by simpa using h
            exact .null hnull
          · simp at h

theorem compileNew_runs {s : Schema} {rawName : String} {comment : Value} {items : Option Action}
    {additional : Option Part} {properties : List (String × Part)}
    (hitems : ∀ a, items = some a → ActionRuns env a)
    (hadditional : ∀ p, additional = some p → PartRuns env p)
    (hp : ∀ entry ∈ properties, PartRuns env entry.2)
    (free : c.registry.lookup c.graph (Name.pascal rawName) scope = none) {d : Definition}
    (h : compileNew env s scope rawName (Name.pascal rawName) comment items additional properties c =
      .ok (d, c')) : Runs env scope c [d.unwrap] c' := by
  cases compileNew_cases h with
  | several _ ht => exact compileMultiType_runs ht
  | message _ _ hmessage => exact compileMessage_runs hp free hmessage
  | struct => exact .importing _ (.builtin _ .nil)
  | map _ hadd _ ht => exact compileMap_runs (hadditional _ hadd) ht
  | parameters _ hi hd => exact hitems _ hi _ _ _ _ _ _ hd
  | list _ hi hd => exact .declared (hitems _ hi _ _ _ _ _ _ hd)
  | scalar _ _ _ hfound => exact withFormat_runs (.found _ hfound)
  | enumeration _ _ _ ht =>
    obtain ⟨rfl, rfl⟩ := compileEnum_ok ht
    exact .enumeration _ _
  | null => exact .builtin _ .nil

theorem compileWith_runs {s : Schema} {items : Option Action} {additional : Option Part}
    {properties : List (String × Part)} (hitems : ∀ a, items = some a → ActionRuns env a)
    (hadditional : ∀ p, additional = some p → PartRuns env p)
    (hp : ∀ entry ∈ properties, PartRuns env entry.2) :
    ActionRuns env (compileWith env s items additional properties) := by
  intro scope rawName comment c d c' h
  unfold compileWith at h
  split at h
  · exact compileReferenceValue_runs (within_ok_iff.1 h)
  · dsimp only at h
    rw [lookupType_bind] at h
    rcases hfound : c.registry.lookup c.graph rawName scope with _ | t <;> rw [hfound] at h
    · dsimp only at h
      rw [lookupType_bind] at h
      rcases hfound : c.registry.lookup c.graph (Name.pascal rawName) scope with _ | t <;>
        rw [hfound] at h
      · exact compileNew_runs hitems hadditional hp hfound h
      · obtain ⟨rfl, rfl⟩ : .type (withFormat s.denull.format t) = d ∧ c = c' := by simpa using h
        exact withFormat_runs (.found _ hfound)
    · obtain ⟨rfl, rfl⟩ : .type (withFormat s.denull.format t) = d ∧ c = c' := by simpa using h
      exact withFormat_runs (.found _ hfound)

mutual

/-- Compiling a schema is a run. -/
theorem compileSchema_runs (env : Environment) : ∀ s : Schema, ActionRuns env (compileSchema env s)
  | ⟨_, _, _, _, _, properties, items, additional, _, _⟩ =>
    compileWith_runs (compileOption_runs env items) (partOption_runs env additional)
      (partList_runs env properties)
termination_by structural s => s

theorem compileItems_runs (env : Environment) : ∀ (s : Schema) (a : Action),
    compileItems env s = some a → ActionRuns env a
  | ⟨_, _, _, _, _, _, items, _, _, _⟩ => compileOption_runs env items
termination_by structural s => s

theorem compileOption_runs (env : Environment) : ∀ (o : Option Schema) (a : Action),
    compileOption env o = some a → ActionRuns env a
  | some s, a, h => by
    have hs := compileSchema_runs env s
    obtain rfl : compileSchema env s = a := Option.some.inj h
    exact hs
termination_by structural o => o

theorem partOption_runs (env : Environment) : ∀ (o : Option Schema) (p : Part),
    partOption env o = some p → PartRuns env p
  | some s, p, h => by
    have hs := compileSchema_runs env s
    have hi := compileItems_runs env s
    obtain rfl : ⟨s, compileSchema env s, compileItems env s⟩ = p := Option.some.inj h
    exact ⟨hs, hi⟩
termination_by structural o => o

theorem partList_runs (env : Environment) : ∀ (l : List (String × Schema)),
    ∀ entry ∈ partList env l, PartRuns env entry.2
  | (key, s) :: rest, entry, h => by
    have hs := compileSchema_runs env s
    have hi := compileItems_runs env s
    have hrest := partList_runs env rest
    rcases List.mem_cons.1 h with rfl | h
    · exact ⟨hs, hi⟩
    · exact hrest entry h
termination_by structural l => l

end

end ApiProto.Compile
