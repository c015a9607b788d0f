import ApiProto.Proofs.Capitals
import ApiProto.Proofs.SchemaMaps

/-!
# Runs and what they are made from

A run says what becomes of the state, and leaves open where names and listed values come from. What
is made in the course of a compilation comes from the description: an enum has its values from a
schema that lists them, and its name from a property or from the place where it is compiled; a shared
list wrapper belongs to a reference.

* `Spec.schemas` — the schemas of a description, with those inside them.
* `Draws` — the runs of a compilation, with the sources of enums and of shared list wrappers.
* `compileSchema_draws` — compiling a schema of a description is such a run.
-/

namespace ApiProto.Document

/-! ## The schemas of a description -/

mutual

/-- A schema and all schemas inside it. -/
def Schema.inner : Schema → List Schema
  | ⟨ref, types, format, choices, description, properties, items, additional, tag, protoName⟩ =>
    ⟨ref, types, format, choices, description, properties, items, additional, tag, protoName⟩ ::
      (innerProperties properties ++ (innerOption items ++ innerOption additional))
termination_by structural s => s

/-- A schema and all schemas inside it, if there is one. -/
def innerOption : Option Schema → List Schema
  | none => []
  | some s => s.inner
termination_by structural o => o

/-- The schemas of properties, and all schemas inside them. -/
def innerProperties : List (String × Schema) → List Schema
  | [] => []
  | (_, s) :: rest => s.inner ++ innerProperties rest
termination_by structural l => l

end

theorem Schema.inner_eq (s : Schema) : s.inner =
    s :: (innerProperties s.properties ++ (innerOption s.items ++ innerOption s.additional)) := by
  cases s
  rw [inner]

theorem mem_innerProperties {t : Schema} {entry : String × Schema}
    {properties : List (String × Schema)} (hentry : entry ∈ properties) (ht : t ∈ entry.2.inner) :
    t ∈ innerProperties properties := by
  induction properties with
  | nil => cases hentry
  | cons first rest ih =>
    rw [innerProperties]
    rcases List.mem_cons.1 hentry with rfl | hentry
    · exact List.mem_append_left _ ht
    · exact List.mem_append_right _ (ih hentry)

namespace Schema

/-- The reference of the items, for a list without a reference of its own. -/
def itemReference? (s : Schema) : Option String :=
  match s.items with
  | none => none
  | some i =>
    match i.ref with
    | .text ref => if s.ref.isEmpty && s.firstType == "array" && ref != "" then some ref else none
    | _ => none

/-- The reference of the items of the values, for a map of lists. -/
def listedReference? (s : Schema) : Option String := s.additional.bind itemReference?

theorem itemReference?_eq_some_iff {s : Schema} {ref : String} : s.itemReference? = some ref ↔
    s.ref.isEmpty = true ∧ s.firstType = "array" ∧ ref ≠ "" ∧
      ∃ i, s.items = some i ∧ i.ref = .text ref := by
  unfold itemReference?
  constructor
  · intro h
    split at h
    · cases h
    · next i hi =>
      split at h
      · next ref' href =>
        split at h
        · next hcond =>
          obtain rfl := Option.some.inj h
          simp only [Bool.and_eq_true, beq_iff_eq, bne_iff_ne] at hcond
          exact ⟨hcond.1.1, hcond.1.2, hcond.2, i, hi, href⟩
        · cases h
      · cases h
  · rintro ⟨hempty, harray, hne, i, hi, href⟩
    rw [hi]
    dsimp only
    rw [href]
    dsimp only
    rw [if_pos (by simp [hempty, harray, hne])]

end Schema

/-- What a parameter says of its value. -/
def Parameter.described (p : Parameter) : Schema :=
  p.schema.getD { Schema.blank with
    types := p.types, choices := p.choices, format := p.format, items := p.items }

namespace Spec

/-- The schemas of a description that are not inside of others. -/
def roots (spec : Spec) : List Schema :=
  spec.definitions.map Prod.snd ++ spec.parameters.map (fun entry => entry.2.described) ++
    spec.paths.flatMap fun (_, item) => item.parameters.map Parameter.described ++
      item.endpoints.flatMap fun e => e.parameters.map Parameter.described ++
        e.responses.filterMap fun entry => entry.2.schema

/-- The schemas of a description, with those inside them. -/
def schemas (spec : Spec) : List Schema := spec.roots.flatMap Schema.inner

/-- The keys of properties in a description. -/
def propertyKeys (spec : Spec) : List String :=
  spec.schemas.flatMap fun s => s.properties.map Prod.fst

/-- The lists of values in a description. -/
def choiceLists (spec : Spec) : List (List String) := spec.schemas.map (·.choices)

/-- The references that maps of lists have for their items in a description. -/
def listedReferences (spec : Spec) : List String := spec.schemas.filterMap Schema.listedReference?

theorem definition_mem_roots {spec : Spec} {entry : String × Schema}
    (h : entry ∈ spec.definitions) : entry.2 ∈ spec.roots :=
  List.mem_append_left _ (List.mem_append_left _ (List.mem_map.2 ⟨_, h, rfl⟩))

theorem parameter_mem_roots {spec : Spec} {entry : String × Parameter}
    (h : entry ∈ spec.parameters) : entry.2.described ∈ spec.roots :=
  List.mem_append_left _ (List.mem_append_right _ (List.mem_map.2 ⟨_, h, rfl⟩))

theorem path_mem_roots {spec : Spec} {path : String} {item : PathItem}
    (h : (path, item) ∈ spec.paths) {s : Schema}
    (hs : s ∈ item.parameters.map Parameter.described ++
      item.endpoints.flatMap fun e => e.parameters.map Parameter.described ++
        e.responses.filterMap fun entry => entry.2.schema) : s ∈ spec.roots :=
  List.mem_append_right _ (List.mem_flatMap.2 ⟨_, h, hs⟩)

/-- A key of a property: one of the description, or the name of a parameter in snake case. -/
def HasKey (spec : Spec) (key : String) : Prop :=
  key ∈ spec.propertyKeys ∨ ∃ name, key = Name.snake name

end Spec

end ApiProto.Document

namespace ApiProto.Compile

open Proto Document CompileM

theorem Inside.mem_inner {t s : Schema} (h : Inside t s) : t ∈ s.inner := by
  induction h with
  | self =>
    rw [Schema.inner_eq]
    exact List.mem_cons_self ..
  | @items s i hi _ ih =>
    rw [Schema.inner_eq, hi]
    exact List.mem_cons_of_mem _ (List.mem_append_right _ (List.mem_append_left _ ih))
  | @additional s p hp _ ih =>
    rw [Schema.inner_eq, hp]
    exact List.mem_cons_of_mem _ (List.mem_append_right _ (List.mem_append_right _ ih))
  | @property s entry hentry _ ih =>
    rw [Schema.inner_eq]
    exact List.mem_cons_of_mem _ (List.mem_append_left _ (mem_innerProperties hentry ih))

/-- What is inside a schema is inside every schema with the same inner schemas. -/
theorem Inside.of_same {t s s' : Schema} (h : Inside t s') (hproperties : s'.properties = s.properties)
    (hitems : s'.items = s.items) (hadditional : s'.additional = s.additional) :
    t = s' ∨ Inside t s := by
  cases h with
  | self => exact .inl rfl
  | items hi ht => exact .inr (.items (hitems ▸ hi) ht)
  | additional ha ht => exact .inr (.additional (hadditional ▸ ha) ht)
  | property he ht => exact .inr (.property (hproperties ▸ he) ht)

/-- A schema with keys, values and listed references of a description only. -/
structure Schema.DrawnFrom (spec : Spec) (s : Schema) : Prop where
  keys : ∀ t, Inside t s → ∀ entry ∈ t.properties, spec.HasKey entry.1
  choices : ∀ t, Inside t s → t.choices ≠ [] → t.choices ∈ spec.choiceLists
  listed : ∀ t, Inside t s → ∀ ref, t.listedReference? = some ref → ref ∈ spec.listedReferences

variable {env : Environment} {scope : Scope} {c c₁ c' : Compilation}

namespace Schema.DrawnFrom

variable {spec : Spec} {s i p : Schema}

theorem of_mem_roots (h : s ∈ spec.roots) : DrawnFrom spec s where
  keys t ht entry hentry := .inl (List.mem_flatMap.2
    ⟨t, List.mem_flatMap.2 ⟨s, h, ht.mem_inner⟩, List.mem_map.2 ⟨entry, hentry, rfl⟩⟩)
  choices t ht _ := List.mem_map.2 ⟨t, List.mem_flatMap.2 ⟨s, h, ht.mem_inner⟩, rfl⟩
  listed t ht _ href := List.mem_filterMap.2 ⟨t, List.mem_flatMap.2 ⟨s, h, ht.mem_inner⟩, href⟩

variable (h : DrawnFrom spec s)
include h

theorem inside {t : Schema} (ht : ∀ u, Inside u t → Inside u s) : DrawnFrom spec t :=
  ⟨fun u hu => h.keys u (ht u hu), fun u hu => h.choices u (ht u hu), fun u hu => h.listed u (ht u hu)⟩

theorem items (hi : s.items = some i) : DrawnFrom spec i := h.inside fun _ => .items hi

theorem additional (hp : s.additional = some p) : DrawnFrom spec p :=
  h.inside fun _ => .additional hp

theorem property {entry : String × Schema} (hentry : entry ∈ s.properties) :
    DrawnFrom spec entry.2 :=
  h.inside fun _ => .property hentry

/-- The inner schemas and the listed values decide. -/
theorem of_same {s' : Schema} (hchoices : s'.choices = s.choices)
    (hproperties : s'.properties = s.properties) (hitems : s'.items = s.items)
    (hadditional : s'.additional = s.additional) : DrawnFrom spec s' where
  keys t ht := by
    rcases ht.of_same hproperties hitems hadditional with rfl | ht
    · exact hproperties ▸ h.keys s (.self s)
    · exact h.keys t ht
  choices t ht := by
    rcases ht.of_same hproperties hitems hadditional with rfl | ht
    · exact hchoices ▸ h.choices s (.self s)
    · exact h.choices t ht
  listed t ht := by
    rcases ht.of_same hproperties hitems hadditional with rfl | ht
    · intro ref href
      unfold Schema.listedReference? at href
      rw [hadditional] at href
      exact h.listed s (.self s) ref href
    · exact h.listed t ht

end Schema.DrawnFrom

/-! ## Runs with sources -/

/-- A name for a type in the package: if it ends in `Message`, it is that of a named schema or of a
shared parameter. -/
def IsPackageName (spec : Spec) (rawName : String) : Prop :=
  withoutMessage (Name.pascal rawName) = Name.pascal rawName ∨
    Name.pascal rawName ∈ reservedNames spec

/-- A place to compile a schema under a name. -/
structure Placed (spec : Spec) (scope : Scope) (rawName : String) : Prop where
  within : scope ≠ []
  name : scope.length = 1 → IsPackageName spec rawName

/-- The names that enums are made from: that of the place where one is compiled, if no type of that
name is visible, and the key of a property together with the message around it. -/
inductive EnumName (env : Environment) (scope : Scope) (c : Compilation) : String → Prop
  | own {rawName : String} : c.registry.lookup c.graph (Name.pascal rawName) scope = none →
      Placed env.spec scope rawName → EnumName env scope c (withoutMessage (Name.pascal rawName))
  | member {message : Nat} {outer : Scope} {key : String} : scope = message :: outer →
      outer ≠ [] → env.spec.HasKey key →
      EnumName env scope c (c.graph.typeName (.node message) ++ "_" ++ key)

/-- The enum of a name for listed values. -/
def madeEnum (env : Environment) (scope : Scope) (c : Compilation) (name : String)
    (choices : List String) : Enumeration :=
  ⟨Name.pascal name, choices.map (enumElement env c.package scope name), ""⟩

/-- The runs of a compilation, with the sources of enums and of shared list wrappers. -/
inductive Draws (env : Environment) : Scope → Compilation → List TypeRef → Compilation → Prop
  | nil {scope : Scope} {c : Compilation} : Draws env scope c [] c
  | cons {scope : Scope} {c c₁ c₂ : Compilation} {t : TypeRef} {ts : List TypeRef} :
      Draws env scope c [t] c₁ → Draws env scope c₁ ts c₂ → Draws env scope c (t :: ts) c₂
  | builtin {scope : Scope} {c c₁ : Compilation} {ts : List TypeRef} (b : Builtin) :
      Draws env scope c ts c₁ → Draws env scope c [.builtin b] c₁
  | importing {scope : Scope} {c c₁ : Compilation} {ts : List TypeRef} (name : String) :
      Draws env scope c ts c₁ → Draws env scope c ts (c₁.importing name)
  | reference {scope : Scope} {c c₁ : Compilation} {ref : String} {d : Definition} :
      compileReference ref c = .ok (d, c₁) → Draws env scope c [d.unwrap] c₁
  | found {scope : Scope} {c : Compilation} {t : TypeRef} (name : String) :
      c.registry.lookup c.graph name scope = some t → Draws env scope c [t] c
  | declared {scope : Scope} {c c₁ : Compilation} {t : TypeRef} :
      Draws env scope c [t] c₁ → Draws env scope c [t] (c₁.declareHere scope t)
  | enumeration {scope : Scope} {c : Compilation} {name : String} {choices : List String} :
      EnumName env scope c name → choices ∈ env.spec.choiceLists →
      Draws env scope c [.node c.graph.size]
        ((c.withNode (.enumeration (madeEnum env scope c name choices))).declareHere scope
          (.node c.graph.size))
  | map {scope : Scope} {c c₁ : Compilation} {value : TypeRef} :
      Draws env scope c [value] c₁ →
      Draws env scope c [.node c₁.graph.size] (c₁.withNode (.map (.builtin .string) value))
  | objectWrapper {scope : Scope} {c c₁ : Compilation} {item : TypeRef}
      (rawName field about : String) (comment : Value) :
      Draws env scope c [item] c₁ →
      Draws env scope c [.node c₁.graph.size]
        ((c₁.withNode (.message (listWrapper (withoutMessage (Name.pascal rawName) ++ "List")
          field about comment item))).declareHere scope (.node c₁.graph.size))
  | sharedWrapper {scope : Scope} {c c₁ : Compilation} {ref : String} {d : Definition} :
      ref ∈ env.spec.listedReferences → c.wrappers.lookup (refBase ref) = none →
      compileReference ref c = .ok (d, c₁) →
      Draws env scope c [.node c₁.graph.size]
        (((c₁.withNode (.message (madeWrapper env c₁ ref d.unwrap))).remember (refBase ref)
          c₁.graph.size).declare scope c₁.package (.node c₁.graph.size))
  | wrapped {scope : Scope} {c : Compilation} {ref : String} {wrapper : Nat} :
      c.wrappers.lookup (refBase ref) = some wrapper → Draws env scope c [.node wrapper] c
  | message {scope : Scope} {c c₁ c₂ : Compilation} {ts : List TypeRef} (rawName : String)
      (comment : Value) (fields : List (CompiledProperty × Int)) :
      c.registry.lookup c.graph (Name.pascal rawName) scope = none →
      Draws env (c.graph.size :: scope)
        (c.withNode (.message ⟨Name.pascal rawName, [], [], comment⟩)) ts c₁ →
      (∀ field ∈ fields, field.1.type ∈ ts) →
      addFields c.graph.size fields c₁ = .ok ((), c₂) →
      Draws env scope c [.node c.graph.size] (c₂.declareHere scope (.node c.graph.size))
  | arrayResponse {scope : Scope} {c c₁ : Compilation} {item : TypeRef} (name : String) :
      Name.IsPlain name → Draws env scope c [item] c₁ →
      Draws env scope c [.node c₁.graph.size]
        (((c₁.withNode (.message (arrayMessage name item))).importing
          ((c₁.withNode (.message (arrayMessage name item))).graph.typeName item)).declareHere scope
            (.node c₁.graph.size))

/-- Without the sources it is a run. -/
theorem Draws.runs {ts : List TypeRef} (h : Draws env scope c ts c') : Runs env scope c ts c' := by
  induction h with
  | nil => exact .nil
  | cons _ _ ih ih' => exact .cons ih ih'
  | builtin b _ ih => exact .builtin b ih
  | importing name _ ih => exact .importing name ih
  | reference h => exact .reference h
  | found name h => exact .found name h
  | declared _ ih => exact .declared ih
  | enumeration => exact .enumeration _ _
  | map _ ih => exact .map ih
  | objectWrapper rawName field about comment _ ih =>
    exact .objectWrapper rawName field about comment ih
  | sharedWrapper _ hnone href => exact .sharedWrapper _ hnone href
  | wrapped h => exact .wrapped h
  | message rawName comment fields hfree _ hfields hadd ih =>
    exact .message rawName comment fields hfree ih hfields hadd
  | arrayResponse name plain _ ih => exact .arrayResponse name plain ih

/-! ## Places -/

section Places

variable {spec : Spec} {rawName : String}

theorem Placed.pascal (h : Placed spec scope rawName) : Placed spec scope (Name.pascal rawName) where
  within := h.within
  name hone := by
    have hname := h.name hone
    unfold IsPackageName at hname ⊢
    rwa [Name.pascal_pascal]

theorem Placed.inside (hscope : scope ≠ []) (message : Nat) (rawName : String) :
    Placed spec (message :: scope) rawName where
  within := List.cons_ne_nil message scope
  name hone := absurd (List.length_eq_zero_iff.1 (Nat.succ.inj hone)) hscope

end Places

/-! ## Parts of schemas -/

/-- A way to compile a schema of which all successes are runs with sources. -/
def ActionDraws (env : Environment) (a : Action) : Prop :=
  ∀ scope rawName comment c d c', Placed env.spec scope rawName →
    a scope rawName comment c = .ok (d, c') → Draws env scope c [d.unwrap] c'

/-- An inner schema of which all successes are runs with sources, and so are those of its items. -/
structure PartDraws (env : Environment) (s : Schema) : Prop where
  whole : ActionDraws env (compileSchema env s)
  items : ∀ i, s.items = some i → ActionDraws env (compileSchema env i)

variable {t : TypeRef} {d : Definition} {s p : Schema} {rawName : String}

theorem compileReferenceValue_draws {ref : Value} (h : compileReferenceValue ref c = .ok (d, c')) :
    Draws env scope c [d.unwrap] c' := by
  simp only [compileReferenceValue, bind_ok_iff, ofResult_ok_iff] at h
  obtain ⟨text, _, ⟨-, rfl⟩, h⟩ := h
  exact .reference h

theorem compileMultiType_draws (h : compileMultiType s c = .ok (t, c')) :
    Draws env scope c [t] c' := by
  obtain ⟨rfl, b, rfl⟩ := compileMultiType_ok h
  exact .builtin b .nil

theorem withFormat_draws {format : String} (h : Draws env scope c [t] c') :
    Draws env scope c [withFormat format t] c' := by
  cases t with
  | builtin b => exact .builtin _ h
  | node id => exact h

theorem boxed_draws (h : Draws env scope c [t] c') : Draws env scope c [boxed t] c' := by
  cases t with
  | builtin b => exact .builtin _ h
  | node id => exact h

/-- A change to types that keeps runs keeps them for definitions. -/
theorem mapType_draws {k : TypeRef → TypeRef}
    (hk : ∀ {t}, Draws env scope c [t] c' → Draws env scope c [k t] c')
    (h : Draws env scope c [d.unwrap] c') : Draws env scope c [(d.mapType k).unwrap] c' := by
  cases d with
  | parameter => exact h
  | type t => exact hk h

/-! ## Maps -/

theorem text_of_textWith {member text : String} {v : Value} (h : v.textWith member = .ok text) :
    v = .text text := by
  cases v with
  | text s => rw [Except.ok.inj h]
  | _ => cases h

theorem refListWrapper_draws {ref : Value}
    (hlisted : ∀ text, ref = .text text → text ∈ env.spec.listedReferences)
    (h : refListWrapper env scope ref c = .ok (t, c')) : Draws env scope c [t] c' := by
  obtain ⟨text, htext, ⟨wrapper, hwrapper, rfl, rfl⟩ | ⟨hnone, d, c₁, hitem, rfl, rfl⟩⟩ :=
    refListWrapper_ok h
  · exact .wrapped hwrapper
  · exact .sharedWrapper (hlisted text (text_of_textWith htext)) hnone hitem

theorem objectListWrapper_draws (hplaced : Placed env.spec scope rawName) {rawField : String}
    {comment itemComment : Value} {items : Action} (hitems : ActionDraws env items)
    (h : objectListWrapper scope (Name.pascal rawName) rawField comment items itemComment c =
      .ok (t, c')) : Draws env scope c [t] c' := by
  obtain ⟨d, c₁, c₂, hitem, rfl, rfl, rfl⟩ := objectListWrapper_ok h
  exact .objectWrapper _ _ _ _ (.declared (hitems _ _ _ _ _ _ hplaced.pascal hitem))

theorem compileMapValue_draws (hplaced : Placed env.spec scope rawName) {rawField : String}
    (hp : PartDraws env p)
    (hlisted : ∀ ref, p.itemReference? = some ref → ref ∈ env.spec.listedReferences)
    (h : MapValue env scope (Name.pascal rawName) rawField (part env p) c t c') :
    Draws env scope c [t] c' := by
  cases h with
  | reference _ hd => exact compileReferenceValue_draws hd
  | listOfReference href harray hi _ hitem hlist =>
    refine refListWrapper_draws (fun text htext => hlisted text ?_) hlist
    have hne : text ≠ "" := by
      rintro rfl
      rw [htext] at hitem
      cases hitem
    exact Schema.itemReference?_eq_some_iff.2 ⟨href, harray, hne, _, hi, htext⟩
  | listOfObjects _ _ hi haction _ _ hlist =>
    obtain rfl := Option.some.inj ((part_items env hi).symm.trans haction)
    exact objectListWrapper_draws hplaced (hp.items _ hi) hlist
  | list => exact .importing _ (.builtin _ .nil)
  | nested _ _ hd => exact .importing _ (.builtin _ (hp.whole _ _ _ _ _ _ hplaced.pascal hd))
  | value _ _ hd => exact hp.whole _ _ _ _ _ _ hplaced.pascal hd

theorem compileMap_draws (hplaced : Placed env.spec scope rawName) {rawField : String}
    (hp : PartDraws env p)
    (hlisted : ∀ ref, p.itemReference? = some ref → ref ∈ env.spec.listedReferences)
    (h : compileMap env scope (Name.pascal rawName) rawField (part env p) c = .ok (t, c')) :
    Draws env scope c [t] c' := by
  obtain ⟨value, c₁, hvalue, rfl, rfl⟩ := compileMap_ok h
  exact .map (compileMapValue_draws hplaced hp hlisted hvalue)

/-! ## Messages -/

/-- A property inside a message is compiled and declared in a run with sources. -/
theorem compileProperty_draws {message : Nat} (hscope : scope ≠ []) {key : String}
    (hkey : env.spec.HasKey key) (hs : PartDraws env s)
    (hchoices : s.choices ≠ [] → s.choices ∈ env.spec.choiceLists) {field : CompiledProperty}
    (h : compileProperty env (message :: scope) key (part env s) c = .ok (field, c')) :
    Draws env (message :: scope) c [field.type] c' := by
  have hitems : (part env s).items = s.items.map (compileSchema env) := compileItems_eq_map env s
  have hplaced : Placed env.spec (message :: scope) (key ++ "Message") := .inside hscope ..
  have hboxes : ∀ {c₁ t}, Draws env (message :: scope) c [t] c₁ →
      Draws env (message :: scope) c [boxes env t] c₁ := by
    intro c₁ t hdraws
    unfold boxes
    split
    · exact boxed_draws hdraws
    · exact hdraws
  obtain ⟨d, c₁, hd, htype, rfl, -⟩ := compileProperty_ok h
  rw [htype]
  cases compilePropertyType_cases hd with
  | several _ ht => exact .declared (compileMultiType_draws ht)
  | object _ hd => exact .declared (hs.whole _ _ _ _ _ _ hplaced hd)
  | array _ haction hd =>
    obtain ⟨i, hi, rfl⟩ := Option.map_eq_some_iff.1 (hitems.symm.trans haction)
    exact .declared (mapType_draws hboxes (hs.items i hi _ _ _ _ _ _ hplaced hd))
  | named _ _ hfound => exact .declared (hboxes (withFormat_draws (.found _ hfound)))
  | unnamed _ _ _ _ hd =>
    exact .declared (mapType_draws (fun ht => hboxes (withFormat_draws ht))
      (hs.whole _ _ _ _ _ _ hplaced hd))
  | enumeration _ _ _ hlisted ht =>
    obtain ⟨rfl, rfl⟩ := compileEnum_ok ht
    have hlisted : s.choices ≠ [] := by simpa [part] using hlisted
    rw [show (part env s).schema.denull.choices = s.choices from s.denull_choices]
    exact .enumeration (.member rfl hscope hkey) (hchoices hlisted)

/-- All properties of an object are. -/
theorem mapM_compileProperty_draws {message : Nat} (hscope : scope ≠ [])
    {properties : List (String × Schema)}
    (hp : ∀ entry ∈ properties, PartDraws env entry.2 ∧ env.spec.HasKey entry.1 ∧
      (entry.2.choices ≠ [] → entry.2.choices ∈ env.spec.choiceLists))
    {fields : List CompiledProperty}
    (h : ((partList env properties).mapM fun (key, p) =>
      within ("failed to compile property " ++ key)
        (compileProperty env (message :: scope) key p)) c = .ok (fields, c')) :
    Draws env (message :: scope) c (fields.map (·.type)) c' := by
  induction properties generalizing c fields with
  | nil =>
    obtain ⟨rfl, rfl⟩ := Prod.mk.inj (Except.ok.inj h)
    exact .nil
  | cons entry rest ih =>
    obtain ⟨key, s⟩ := entry
    rw [partList, List.mapM_cons] at h
    obtain ⟨field, c₁, hfield, h⟩ := bind_ok_iff.1 h
    obtain ⟨others, c₂, hrest, h⟩ := bind_ok_iff.1 h
    obtain ⟨rfl, rfl⟩ : field :: others = fields ∧ c₂ = c' := by simpa using h
    obtain ⟨hs, hkey, hchoices⟩ := hp (key, s) (List.mem_cons_self ..)
    exact .cons (compileProperty_draws hscope hkey hs hchoices (within_ok_iff.1 hfield))
      (ih (fun e he => hp e (List.mem_cons_of_mem _ he)) hrest)

theorem compileMessage_draws (hscope : scope ≠ []) {comment : Value}
    {properties : List (String × Schema)}
    (hp : ∀ entry ∈ properties, PartDraws env entry.2 ∧ env.spec.HasKey entry.1 ∧
      (entry.2.choices ≠ [] → entry.2.choices ∈ env.spec.choiceLists))
    (free : c.registry.lookup c.graph (Name.pascal rawName) scope = none)
    (h : compileMessage env scope (Name.pascal rawName) comment (partList env properties) c =
      .ok (d, c')) : Draws env scope c [d.unwrap] c' := by
  obtain ⟨rfl, compiled, c₁, numbers, c₂, hcompiled, -, hadd, rfl⟩ := compileMessage_ok h
  have hdraws := mapM_compileProperty_draws hscope (fun e he => hp e (mem_sortEntries.1 he)) hcompiled
  refine .message rawName comment (compiled.zip numbers) free hdraws (fun field hfield => ?_) hadd
  exact List.mem_map.2 ⟨field.1, (List.of_mem_zip hfield).1, rfl⟩

/-! ## Schemas -/

theorem compileNew_draws (hplaced : Placed env.spec scope rawName) {comment : Value}
    (hitems : ∀ i, s.items = some i → ActionDraws env (compileSchema env i))
    (hadditional : ∀ p, s.additional = some p → PartDraws env p)
    (hp : ∀ entry ∈ s.properties, PartDraws env entry.2)
    (hdrawn : Schema.DrawnFrom env.spec s)
    (free : c.registry.lookup c.graph (Name.pascal rawName) scope = none)
    (h : compileNew env s scope rawName (Name.pascal rawName) comment
      (s.items.map (compileSchema env)) (s.additional.map (part env)) (partList env s.properties) c =
      .ok (d, c')) : Draws env scope c [d.unwrap] c' := by
  have hproperties : ∀ entry ∈ s.properties, PartDraws env entry.2 ∧ env.spec.HasKey entry.1 ∧
      (entry.2.choices ≠ [] → entry.2.choices ∈ env.spec.choiceLists) := fun entry hentry =>
    ⟨hp entry hentry, hdrawn.keys _ (.self _) entry hentry,
      (hdrawn.property hentry).choices _ (.self _)⟩
  cases compileNew_cases h with
  | several _ ht => exact compileMultiType_draws ht
  | message _ _ hmessage => exact compileMessage_draws hplaced.within hproperties free hmessage
  | struct => exact .importing _ (.builtin _ .nil)
  | map _ hadd _ ht =>
    obtain ⟨p, hsome, rfl⟩ := Option.map_eq_some_iff.1 hadd
    refine compileMap_draws hplaced (hadditional p hsome) (fun ref href => ?_) ht
    refine hdrawn.listed s (.self s) ref ?_
    rw [Schema.listedReference?, hsome]
    exact href
  | parameters _ hi hd =>
    obtain ⟨i, hsome, rfl⟩ := Option.map_eq_some_iff.1 hi
    exact hitems i hsome _ _ _ _ _ _ hplaced.pascal hd
  | list _ hi hd =>
    obtain ⟨i, hsome, rfl⟩ := Option.map_eq_some_iff.1 hi
    exact .declared (hitems i hsome _ _ _ _ _ _ hplaced.pascal hd)
  | scalar _ _ _ hfound => exact withFormat_draws (.found _ hfound)
  | enumeration _ _ hlisted ht =>
    obtain ⟨rfl, rfl⟩ := compileEnum_ok ht
    exact .enumeration (.own free hplaced) (hdrawn.choices _ (.self _) hlisted)
  | null => exact .builtin _ .nil

theorem compileSchema_draws_of_parts
    (hitems : ∀ i, s.items = some i → ActionDraws env (compileSchema env i))
    (hadditional : ∀ p, s.additional = some p → PartDraws env p)
    (hp : ∀ entry ∈ s.properties, PartDraws env entry.2) (hdrawn : Schema.DrawnFrom env.spec s) :
    ActionDraws env (compileSchema env s) := by
  intro scope rawName comment c d c' hplaced h
  rcases compileSchema_cases h with href | ⟨-, ⟨_, t, -, hfound, rfl, rfl⟩ | ⟨-, hfree, hnew⟩⟩
  · exact compileReferenceValue_draws (compileSchema_reference href h)
  · exact withFormat_draws (.found _ hfound)
  · refine compileNew_draws hplaced ?_ ?_ ?_ ?_ hfree hnew
    · rwa [s.denull_items]
    · rwa [s.denull_additional]
    · rwa [s.denull_properties]
    · exact hdrawn.of_same s.denull_choices s.denull_properties s.denull_items s.denull_additional

mutual

/-- Compiling a schema with keys and values of the description is a run with sources. -/
theorem partDraws (env : Environment) : ∀ s : Schema,
    Schema.DrawnFrom env.spec s → PartDraws env s
  | ⟨ref, types, format, choices, description, properties, items, additional, tag, protoName⟩,
    hdrawn => by
    have hitems := option_draws env items fun i hi => hdrawn.items hi
    have hadditional := option_draws env additional fun p hp => hdrawn.additional hp
    have hproperties := list_draws env properties fun entry he => hdrawn.property he
    exact ⟨compileSchema_draws_of_parts (fun i hi => (hitems i hi).whole) hadditional hproperties
      hdrawn, fun i hi => (hitems i hi).whole⟩
termination_by structural s => s

theorem option_draws (env : Environment) : ∀ o : Option Schema,
    (∀ s, o = some s → Schema.DrawnFrom env.spec s) → ∀ s, o = some s → PartDraws env s
  | some s, hdrawn, s', h => by
    have hs := partDraws env s (hdrawn s rfl)
    rwa [← Option.some.inj h]
termination_by structural o => o

theorem list_draws (env : Environment) : ∀ l : List (String × Schema),
    (∀ entry ∈ l, Schema.DrawnFrom env.spec entry.2) → ∀ entry ∈ l, PartDraws env entry.2
  | (key, s) :: rest, hdrawn, entry, h => by
    have hs := partDraws env s (hdrawn (key, s) (List.mem_cons_self ..))
    have hrest := list_draws env rest fun e he => hdrawn e (List.mem_cons_of_mem _ he)
    rcases List.mem_cons.1 h with rfl | h
    · exact hs
    · exact hrest entry h
termination_by structural l => l

end

/-- Compiling a schema with keys and values of the description is a run with sources. -/
theorem compileSchema_draws (hdrawn : Schema.DrawnFrom env.spec s) :
    ActionDraws env (compileSchema env s) :=
  (partDraws env s hdrawn).whole

end ApiProto.Compile
