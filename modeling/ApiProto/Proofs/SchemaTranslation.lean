import ApiProto.Proofs.SchemaMaps
import ApiProto.Proofs.SilentNames

/-!
# Schemas in the other version

Schemas that differ in the version of their references are compiled in lockstep. No step takes a
reference apart in a way that tells the versions from one another, but for one: the comment of the
message for a list of objects gives the name of their type, and this may spell out a reference.

* `Schema.Transferable` — a schema whose reference is a text, and of which no comment spells out
  one.
* `compileSchema_mirrors` — such schemas are compiled in lockstep.
-/

namespace ApiProto.Document

/-- A list of objects that are given in place spells out no reference: the comment of the message for
such a list of values gives the name of the type of the objects. -/
def Schema.ListsSilently (s : Schema) : Prop :=
  s.firstType = "array" → ∀ i, s.items = some i → i.ref.isEmpty = true → i.properties ≠ [] →
    i.spells = false

/-- A schema whose reference is a text, and of which the values spell out no reference where they are
lists. -/
structure Schema.Transferable (s : Schema) : Prop where
  reference : ∃ ref, s.ref = .text ref
  values : ∀ p, s.additional = some p → p.ListsSilently

end ApiProto.Document

namespace ApiProto.Compile

open Proto Document CompileM

/-- Two environments with the same options, and descriptions that reserve the same names. -/
structure Environment.SameNames (env env' : Environment) : Prop where
  options : env'.options = env.options
  reserved : reservedNames env'.spec = reservedNames env.spec

/-- Two ways to compile a schema that go in lockstep. -/
def ActionMirrors (a a' : Action) : Prop :=
  ∀ scope rawName comment c, c.Ready scope →
    Mirrors id c (a scope rawName comment) (a' scope rawName comment)

/-- A schema that is compiled, as are its items, in lockstep with its translation. -/
structure PartMirrors (env env' : Environment) (s : Schema) : Prop where
  reference : ∃ ref, s.ref = .text ref
  whole : ActionMirrors (compileSchema env s) (compileSchema env' s.translated)
  items : ∀ i, s.items = some i →
    (∃ ref, i.ref = .text ref) ∧ ActionMirrors (compileSchema env i) (compileSchema env' i.translated)

section Basic

variable {c : Compilation} {scope : Scope}

theorem compileReferenceValue_mirrors {ref : Value} (h : ∃ text, ref = .text text) :
    Mirrors id c (compileReferenceValue ref) (compileReferenceValue (translateValue ref)) := by
  obtain ⟨text, rfl⟩ := h
  exact Mirrors.compileReference text

theorem compileMultiType_mirrors (s : Schema) :
    Mirrors id c (compileMultiType s) (compileMultiType s.translated) := by
  unfold compileMultiType
  rw [s.types_translated, s.format_translated]
  split
  · split
    · exact .pure rfl
    · exact .fail _ _
  · exact .pure rfl

theorem listWrapperName_translated {spec spec' : Spec}
    (hreserved : reservedNames spec' = reservedNames spec) (hc : c.Ready scope) (base : String) :
    listWrapperName spec' c.translated base = listWrapperName spec c base := by
  have hlookup : ∀ name, c.registry.lookup c.graph.translated name [c.package] =
      c.registry.lookup c.graph name [c.package] := fun name =>
    Graph.lookup_translated
      (fun entry hentry => Graph.not_utters_of_isDeclared (hc.log entry hentry)) name _
  have hregistry : c.translated.registry = c.registry := rfl
  have hpackage : c.translated.package = c.package := rfl
  have hgraph : c.translated.graph = c.graph.translated := rfl
  simp only [listWrapperName, hreserved, hregistry, hpackage, hgraph, hlookup]

theorem Compilation.Ready.owner_not_utters (hc : c.Ready scope) :
    ¬ c.graph.Utters (.node (scope.headD 0)) := by
  cases scope with
  | nil => cases hc.package
  | cons x rest => exact Graph.not_utters_of_isContainer (hc.containers x (List.mem_cons_self ..))

end Basic

section Steps

variable {env env' : Environment} {scope : Scope} {c : Compilation} (h : env.SameNames env')
include h

theorem compileEnum_mirrors (name : String) (choices : List String) :
    Mirrors id c (compileEnum env scope name choices) (compileEnum env' scope name choices) := by
  refine .read ?_
  rw [h.options]
  exact (Mirrors.newNode (.enumeration _)).bind fun _ _ _ => .pure rfl

/-! ## Maps -/

theorem refListWrapper_mirrors (hc : c.Ready scope) {ref : Value} (href : ∃ text, ref = .text text) :
    Mirrors id c (refListWrapper env scope ref)
      (refListWrapper env' scope (translateValue ref)) := by
  obtain ⟨text, rfl⟩ := href
  unfold refListWrapper
  refine .bind (k := translateRef) (.ofResult (r := .ok text) (fun _ heq => ?_) nofun)
    fun _ _ hok => ?_
  · obtain rfl := Except.ok.inj heq
    rfl
  · obtain ⟨hok, rfl⟩ := ofResult_ok_iff.1 hok
    obtain rfl := Except.ok.inj hok
    rw [afterLast_translateRef]
    generalize Name.pascal (String.ofList (Text.afterLast '/' text.toList)) = base
    refine .read ?_
    have hwrappers : c.translated.wrappers = c.wrappers := rfl
    rw [hwrappers]
    rcases c.wrappers.lookup base with _ | wrapper
    · refine (Mirrors.compileReference text).bind fun item c₁ hitem => ?_
      have hc₁ := hc.compileReference hitem
      refine .read ?_
      rw [listWrapperName_translated h.reserved hc₁]
      refine .newNode_bind (.message _) (.modify_bind ?_ ?_)
      · rfl
      have hc₂ := (hc₁.withNode (.message (listWrapper (listWrapperName env.spec c₁ base) "items"
        base (.text "") item.unwrap))).remember base (isDeclared_new c₁ _)
      exact .read ((Mirrors.declareIn hc₂ _ _).bind fun _ _ _ => .pure rfl)
    · exact .pure rfl

omit h in
/-- A message for a list of objects is about a type that is named in the same way in both
versions. -/
theorem objectListWrapper_mirrors {i : Schema} (name rawField : String) (comment : Value)
    (hi : ActionMirrors (compileSchema env i) (compileSchema env' i.translated))
    (hspells : i.spells = false) (hc : c.Ready scope) :
    Mirrors id c
      (objectListWrapper scope name rawField comment (compileSchema env i) i.description)
      (objectListWrapper scope name rawField comment (compileSchema env' i.translated)
        i.description) := by
  refine (hi _ _ _ c hc).bind fun item c₁ hitem => ?_
  have hc₁ := (compileSchema_runs env i _ _ _ _ _ _ hitem).ready hc
  have hsilent := (compileSchema_silent env i hspells _ _ _ _ _ _ hc hitem).of_grows
    (Compilation.Grows.declareHere (List.Subset.refl scope) item.unwrap).nodes
  refine .declareDefinition_bind hc₁ _ (.nameOf_bind hsilent.not_utters ?_)
  refine .newNode_bind (.message _) ?_
  exact .declareDefinition_bind ((hc₁.declareHere item.unwrap).withNode _) _ (.pure rfl)

theorem compileMapValue_mirrors (name rawField : String) {p : Schema}
    (hp : PartMirrors env env' p)
    (hspells : p.ListsSilently) (hc : c.Ready scope) :
    Mirrors id c (compileMapValue env scope name rawField (part env p))
      (compileMapValue env' scope name rawField (part env' p.translated)) := by
  have hwhole : (part env p).whole = compileSchema env p := rfl
  have hwhole' : (part env' p.translated).whole = compileSchema env' p.translated := rfl
  have hitems : (part env p).items = p.items.map (compileSchema env) := compileItems_eq_map env p
  have hitems' : (part env' p.translated).items = p.translated.items.map (compileSchema env') :=
    compileItems_eq_map env' p.translated
  have hschema : (part env p).schema = p := rfl
  have hschema' : (part env' p.translated).schema = p.translated := rfl
  have hlist : Mirrors id c
      (do addImportFor Builtin.listValue.name; return TypeRef.builtin .listValue)
      (do addImportFor Builtin.listValue.name; return TypeRef.builtin .listValue) :=
    .addImportFor_bind _ (.pure rfl)
  unfold compileMapValue
  dsimp only
  rw [hschema, hschema', hwhole, hwhole', hitems, hitems', p.ref_translated, p.firstType_translated,
    p.items_translated, p.description_translated, isEmpty_translateValue]
  refine .ite .rfl (fun _ => ?_) fun _ => .ite .rfl (fun harray => ?_) fun _ => ?_
  · exact (compileReferenceValue_mirrors hp.reference).bind fun _ _ _ => .pure rfl
  · rcases hi : p.items with _ | i
    · exact hlist
    · obtain ⟨href, hi'⟩ := hp.items i hi
      dsimp only [Option.map_some]
      rw [i.ref_translated, i.properties_translated, i.description_translated,
        isEmpty_translateValue, List.isEmpty_map]
      refine .ite .rfl (fun _ => ?_) fun hinplace =>
        .ite .rfl (fun hproperties => ?_) fun _ => hlist
      · exact refListWrapper_mirrors h hc href
      · exact objectListWrapper_mirrors _ _ _ hi'
          (hspells harray i hi (by simpa using hinplace) (by simpa using hproperties)) hc
  · refine (hp.whole _ _ _ c hc).bind fun d c₁ _ => ?_
    refine (Mirrors.isMap d.unwrap).bind fun nested _ _ => ?_
    exact .ite .rfl (fun _ => .addImportFor_bind _ (.pure rfl)) fun _ => .pure rfl

theorem compileMap_mirrors (name rawField : String) {p : Schema} (hp : PartMirrors env env' p)
    (hspells : p.ListsSilently) (hc : c.Ready scope) :
    Mirrors id c (compileMap env scope name rawField (part env p))
      (compileMap env' scope name rawField (part env' p.translated)) :=
  (compileMapValue_mirrors h name rawField hp hspells hc).bind fun _ _ _ =>
    .newNode_bind (.map (.builtin .string) _) (.pure rfl)

/-! ## Messages -/

theorem compilePropertyType_mirrors (name : String) {s : Schema} (hs : PartMirrors env env' s)
    (hc : c.Ready scope) :
    Mirrors id c (compilePropertyType env scope name (part env s))
      (compilePropertyType env' scope name (part env' s.translated)) := by
  have hwhole : (part env s).whole = compileSchema env s := rfl
  have hwhole' : (part env' s.translated).whole = compileSchema env' s.translated := rfl
  have hitems : (part env s).items = s.items.map (compileSchema env) := compileItems_eq_map env s
  have hitems' : (part env' s.translated).items = s.translated.items.map (compileSchema env') :=
    compileItems_eq_map env' s.translated
  have hschema : (part env s).schema = s := rfl
  have hschema' : (part env' s.translated).schema = s.translated := rfl
  unfold compilePropertyType
  dsimp only
  rw [hschema, hschema', hwhole, hwhole', hitems, hitems', h.options, s.denull_translated,
    s.items_translated, Schema.types_translated, Schema.choices_translated,
    Schema.firstType_translated, Schema.format_translated]
  refine .ite .rfl (fun _ => ?_) fun _ => .ite .rfl (fun _ => ?_) fun _ =>
    .ite .rfl (fun _ => ?_) fun _ => .ite .rfl (fun _ => ?_) fun _ => ?_
  · exact (compileMultiType_mirrors _).bind fun _ _ _ => .pure rfl
  · exact hs.whole _ _ _ c hc
  · rcases hi : s.items with _ | i
    · exact .fail _ _
    · exact ((hs.items i hi).2 _ _ _ c hc).bind fun _ _ _ => .pure rfl
  · refine .lookupType_bind hc _ _ fun found _ => ?_
    cases found with
    | some t => exact .bind (.pure (k := id) rfl) fun _ _ _ => .pure rfl
    | none => exact (hs.whole _ _ _ c hc).bind fun _ _ _ => .pure rfl
  · refine .nameOf_bind hc.owner_not_utters ?_
    exact (compileEnum_mirrors h _ _).bind fun _ _ _ =>
      .bind (.pure (k := id) rfl) fun _ _ _ => .pure rfl

theorem compileProperty_mirrors (name : String) {s : Schema} (hs : PartMirrors env env' s)
    (hc : c.Ready scope) :
    Mirrors id c (compileProperty env scope name (part env s))
      (compileProperty env' scope name (part env' s.translated)) := by
  have hschema : (part env s).schema = s := rfl
  have hschema' : (part env' s.translated).schema = s.translated := rfl
  unfold compileProperty
  dsimp only
  rw [hschema, hschema', s.description_translated, s.protoName_translated, s.tag_translated,
    s.denull_translated, Schema.types_translated]
  refine (compilePropertyType_mirrors h name hs hc).bind fun d c₁ hd => ?_
  have hc₁ : c₁.Ready scope := by
    rcases compilePropertyType_ok (part_runs env s) hd with hruns | ⟨_, _, -, rfl⟩
    · exact hruns.ready hc
    · exact hc.withNode _
  have hdeclare : ∀ field : CompiledProperty, Mirrors id c₁
      (do declareDefinition scope (.type field.type); return field)
      (do declareDefinition scope (.type field.type); return field) := fun _ =>
    .declareDefinition_bind hc₁ _ (.pure rfl)
  cases d with
  | parameter t given number repeated => exact hdeclare _
  | type t =>
    refine .ite .rfl (fun _ => hdeclare _) fun _ => ?_
    refine (Mirrors.result s.protoName.wordText).bind fun word c₂ hword => ?_
    obtain ⟨-, rfl⟩ := ofResult_ok_iff.1 hword
    exact hdeclare _

omit h in
theorem importedType_translated (g : Graph) (t : TypeRef) :
    importedType g.translated t = importedType g t := by
  rcases t with b | id
  · rfl
  · simp only [importedType, Graph.node?_translated]
    rcases g.node? id with _ | n
    · rfl
    · cases n <;> rfl

omit h in
theorem addPropertyField_mirrors (message : Nat) (p : CompiledProperty) (number : Int) :
    Mirrors id c (addPropertyField message p number) (addPropertyField message p number) := by
  refine (Mirrors.addField message _).bind fun _ c₁ _ => .read ?_
  have htype : importedType c₁.translated.graph p.type = importedType c₁.graph p.type :=
    importedType_translated c₁.graph p.type
  rw [htype]
  exact .importing _

omit h in
theorem partList_translated (properties : List (String × Schema)) :
    partList env' (properties.map translateEntry) =
      properties.map fun entry => (entry.1, part env' entry.2.translated) := by
  rw [partList_eq_map, List.map_map]
  rfl

theorem compileProperties_mirrors (message : Nat) (name : String)
    {properties : List (String × Schema)}
    (hp : ∀ entry ∈ properties, PartMirrors env env' entry.2) (hc : c.Ready scope) :
    Mirrors id c (compileProperties env scope message name (partList env properties))
      (compileProperties env' scope message name
        (partList env' (properties.map translateEntry))) := by
  rw [partList_translated, partList_eq_map]
  have hsort : sortEntries (properties.map fun entry => (entry.1, part env entry.2)) =
      (sortEntries properties).map fun entry => (entry.1, part env entry.2) :=
    sortBy_map (fun _ _ => rfl) properties
  have hsort' : sortEntries (properties.map fun entry => (entry.1, part env' entry.2.translated)) =
      (sortEntries properties).map fun entry => (entry.1, part env' entry.2.translated) :=
    sortBy_map (fun _ _ => rfl) properties
  unfold compileProperties
  rw [hsort, hsort']
  have hpairs : List.Forall₂
      (fun x y => ∃ entry ∈ properties, x = (entry.1, part env entry.2) ∧
        y = (entry.1, part env' entry.2.translated))
      ((sortEntries properties).map fun entry => (entry.1, part env entry.2))
      ((sortEntries properties).map fun entry => (entry.1, part env' entry.2.translated)) := by
    rw [List.forall₂_map_left_iff, List.forall₂_map_right_iff, List.forall₂_same]
    exact fun entry hentry => ⟨entry, mem_sortEntries.1 hentry, rfl, rfl⟩
  refine (Mirrors.mapM (k := id) hpairs (fun x hx c field c₁ hc hstep => ?_)
    (fun x _ y hxy c hc => ?_) hc).bind fun compiled c₁ _ => ?_
  · obtain ⟨entry, -, rfl⟩ := List.mem_map.1 hx
    exact (compileProperty_runs (part_runs env entry.2) (within_ok_iff.1 hstep)).ready hc
  · obtain ⟨entry, hentry, rfl, rfl⟩ := hxy
    exact .within _ _ (compileProperty_mirrors h _ (hp entry hentry) hc)
  · rw [List.map_id]
    split
    · exact ⟨nofun, fun e he => ⟨e, he⟩⟩
    · refine Mirrors.forM (P := fun _ => True) (List.forall₂_same.2 fun _ _ => rfl)
        (fun _ _ _ _ _ _ => trivial) (fun x _ y hxy _ _ => ?_) trivial
      subst hxy
      exact addPropertyField_mirrors _ _ _

theorem compileMessage_mirrors (name : String) (comment : Value)
    {properties : List (String × Schema)}
    (hp : ∀ entry ∈ properties, PartMirrors env env' entry.2) (hc : c.Ready scope) :
    Mirrors id c (compileMessage env scope name comment (partList env properties))
      (compileMessage env' scope name comment (partList env' (properties.map translateEntry))) := by
  refine .newNode_bind (.message ⟨name, [], [], comment⟩) ?_
  have hinside := hc.enter ⟨name, [], [], comment⟩
  refine (Mirrors.within _ _ (compileProperties_mirrors h _ name hp hinside)).bind
    fun _ c₁ hproperties => ?_
  have hc₁ : c₁.Ready scope := by
    obtain ⟨ts, c₂, fields, hruns, -, hadd⟩ :=
      compileProperties_ok (partList_runs env properties) (within_ok_iff.1 hproperties)
    have hc₂ := hruns.ready hinside
    have hgrows := (hruns.grows hinside.package).trans
      (addFields_grows hc₂.package (List.mem_cons_self ..) hadd)
    exact (hc₂.addFields (List.mem_cons_self ..) hadd).leave (hgrows.package ▸ hc.package)
  exact .declareDefinition_bind hc₁ _ (.pure rfl)

/-! ## Schemas -/

omit h in
theorem isOpen_translated (s : Schema) : isOpen s.translated = isOpen s := by
  simp [isOpen]

theorem compileNew_mirrors {s : Schema} (rawName name : String) (comment : Value)
    (hitems : ∀ i, s.items = some i →
      ActionMirrors (compileSchema env i) (compileSchema env' i.translated))
    (hadditional : ∀ p, s.additional = some p → PartMirrors env env' p ∧ p.ListsSilently)
    (hp : ∀ entry ∈ s.properties, PartMirrors env env' entry.2) (hc : c.Ready scope) :
    Mirrors id c
      (compileNew env s scope rawName name comment (s.items.map (compileSchema env))
        (s.additional.map (part env)) (partList env s.properties))
      (compileNew env' s.translated scope rawName name comment
        (s.translated.items.map (compileSchema env')) (s.translated.additional.map (part env'))
        (partList env' s.translated.properties)) := by
  unfold compileNew
  rw [s.types_translated, s.items_translated, s.additional_translated, s.properties_translated,
    s.choices_translated, s.firstType_translated, s.format_translated]
  refine .ite .rfl (fun _ => ?_) fun _ => .ite .rfl (fun _ => ?_) fun _ =>
    .ite .rfl (fun _ => ?_) fun _ => .ite .rfl (fun _ => .ite .rfl (fun _ => ?_) fun _ => ?_)
      fun _ => .ite .rfl (fun _ => .pure rfl) fun _ => .fail _ _
  · exact (compileMultiType_mirrors s).bind fun _ _ _ => .pure rfl
  · rcases hadd : s.additional with _ | p
    · exact compileMessage_mirrors h name comment hp hc
    · obtain ⟨hpart, hspells⟩ := hadditional p hadd
      refine .ite (by rw [show isOpen (part env' p.translated).schema = _ from isOpen_translated p]; rfl)
        (fun _ => .addImportFor_bind _ (.pure rfl)) fun _ => ?_
      exact (compileMap_mirrors h name _ hpart hspells hc).bind fun _ _ _ => .pure rfl
  · rcases hi : s.items with _ | i
    · exact .fail _ _
    · refine (hitems i hi _ _ _ c hc).bind fun d c₁ hd => ?_
      have hc₁ := (compileSchema_runs env i _ _ _ _ _ _ hd).ready hc
      exact (Mirrors.declareDefinition hc₁ d).bind fun _ _ _ => .pure rfl
  · refine .lookupType_bind hc _ _ fun found _ => ?_
    cases found with
    | some t => exact .pure rfl
    | none => exact .fail _ _
  · refine (compileEnum_mirrors h _ _).bind fun t c₁ ht => ?_
    obtain ⟨-, rfl⟩ := compileEnum_ok ht
    exact .declareDefinition_bind (hc.withNode _) _ (.pure rfl)

theorem compileSchema_mirrors_of_parts {s : Schema} (hs : s.Transferable)
    (hitems : ∀ i, s.items = some i →
      ActionMirrors (compileSchema env i) (compileSchema env' i.translated))
    (hadditional : ∀ p, s.additional = some p → PartMirrors env env' p)
    (hp : ∀ entry ∈ s.properties, PartMirrors env env' entry.2) :
    ActionMirrors (compileSchema env s) (compileSchema env' s.translated) := by
  intro scope rawName comment c hc
  rw [compileSchema_eq, compileSchema_eq]
  unfold compileWith
  dsimp only
  rw [s.ref_translated, isEmpty_translateValue, s.denull_translated, Schema.format_translated]
  refine .ite .rfl (fun _ => .within _ _ (compileReferenceValue_mirrors hs.reference)) fun _ => ?_
  refine .lookupType_bind hc _ _ fun found _ => ?_
  cases found with
  | some t => exact .pure rfl
  | none =>
    refine .lookupType_bind hc _ _ fun found _ => ?_
    cases found with
    | some t => exact .pure rfl
    | none =>
      have hvalues : ∀ p, s.additional = some p → PartMirrors env env' p ∧ p.ListsSilently :=
        fun p hp => ⟨hadditional p hp, hs.values p hp⟩
      have hnew := compileNew_mirrors h (s := s.denull) rawName (Name.pascal rawName) comment
        (by rwa [s.denull_items]) (by rwa [s.denull_additional]) (by rwa [s.denull_properties]) hc
      simp only [Schema.items_translated, Schema.additional_translated,
        Schema.properties_translated, Schema.denull_items, Schema.denull_additional,
        Schema.denull_properties] at hnew ⊢
      exact hnew

end Steps

section Schemas

variable {env env' : Environment}

mutual

/-- Schemas are compiled in lockstep with their translations. -/
theorem compileSchema_mirrors (h : env.SameNames env') : ∀ s : Schema,
    (∀ t, Inside t s → t.Transferable) → PartMirrors env env' s
  | ⟨ref, types, format, choices, description, properties, items, additional, tag, protoName⟩,
    hs => by
    have hitems := compileOption_mirrors h items fun s hi t ht => hs t (.items hi ht)
    have hadditional := compileOption_mirrors h additional fun s hp t ht =>
      hs t (.additional hp ht)
    have hproperties := compileList_mirrors h properties fun entry he t ht =>
      hs t (.property he ht)
    have hself := hs _ (.self _)
    exact ⟨hself.reference,
      compileSchema_mirrors_of_parts h hself (fun i hi => (hitems i hi).whole) hadditional
        hproperties, fun i hi => ⟨(hitems i hi).reference, (hitems i hi).whole⟩⟩
termination_by structural s => s

theorem compileOption_mirrors (h : env.SameNames env') : ∀ o : Option Schema,
    (∀ s, o = some s → ∀ t, Inside t s → t.Transferable) →
      ∀ s, o = some s → PartMirrors env env' s
  | some s, hs, s', heq => by
    have hpart := compileSchema_mirrors h s (hs s rfl)
    rwa [← Option.some.inj heq]
termination_by structural o => o

theorem compileList_mirrors (h : env.SameNames env') : ∀ l : List (String × Schema),
    (∀ entry ∈ l, ∀ t, Inside t entry.2 → t.Transferable) →
      ∀ entry ∈ l, PartMirrors env env' entry.2
  | (key, s) :: rest, hs, entry, hentry => by
    have hpart := compileSchema_mirrors h s (hs (key, s) (List.mem_cons_self ..))
    have hrest := compileList_mirrors h rest fun e he => hs e (List.mem_cons_of_mem _ he)
    rcases List.mem_cons.1 hentry with rfl | hentry
    · exact hpart
    · exact hrest entry hentry
termination_by structural l => l

end

end Schemas

end ApiProto.Compile
