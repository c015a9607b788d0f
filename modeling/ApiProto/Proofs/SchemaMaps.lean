import ApiProto.Proofs.Mapless

/-!
# Schemas that come to maps

A map whose values are written out as maps takes structs for them. What is referred to is not looked
at, and neither are the items of lists: a reference to a map becomes the value of a map, and the
field of a list of maps is a repeated map.

* `GivesMap`, `NamesMap` — the schemas and the references that may come to maps.
* `AllowsMaps` — a schema in which no list holds maps, and no map refers to maps for its values.
* `compileSchema_placesMaps` — compiling schemas of this kind places maps where they can stand.
-/

namespace ApiProto.Compile

open Proto Document CompileM

/-! ## Schemas that come to maps -/

/-- A schema that a parameter is compiled as. -/
def CompiledAs (p : Parameter) (s : Schema) : Prop :=
  ∃ key c, parameterSchema p c = .ok ((key, s), c)

mutual

/-- A schema that may come to a map: an object with values that have a schema, a list of what comes
to maps, or a reference to what does. -/
inductive GivesMap (spec : Spec) : Schema → Prop
  | map {s p : Schema} : s.ref.isEmpty = true → isObject s.denull → s.additional = some p →
      isOpen p = false → GivesMap spec s
  | items {s i : Schema} : s.ref.isEmpty = true → s.denull.types = ["array"] → s.items = some i →
      GivesMap spec i → GivesMap spec s
  | reference {s : Schema} {ref : String} : s.ref.isEmpty = false → s.ref.keyText = .ok ref →
      NamesMap spec ref → GivesMap spec s

/-- A reference to a named schema or to a shared parameter that may come to a map. -/
inductive NamesMap (spec : Spec) : String → Prop
  | definition {name : String} {s : Schema} : (name, s) ∈ spec.definitions → GivesMap spec s →
      NamesMap spec (spec.definitionsPrefix ++ name)
  | parameter {name : String} {p : Parameter} {s : Schema} : (name, p) ∈ spec.parameters →
      CompiledAs p s → GivesMap spec s → NamesMap spec (spec.parametersPrefix ++ name)

end

/-- A schema inside another one, or that schema itself. -/
inductive Inside : Schema → Schema → Prop
  | self (s : Schema) : Inside s s
  | items {t s i : Schema} : s.items = some i → Inside t i → Inside t s
  | additional {t s p : Schema} : s.additional = some p → Inside t p → Inside t s
  | property {t s : Schema} {entry : String × Schema} : entry ∈ s.properties →
      Inside t entry.2 → Inside t s

/-- The values of a map may have this schema: it is no reference to a map, and no list that becomes
a message for lists of maps, or comes to its items. -/
structure AllowsValue (spec : Spec) (p : Schema) : Prop where
  reference : p.ref.isEmpty = false → ¬ GivesMap spec p
  list : p.firstType = "array" → ∀ i, p.items = some i →
    i.ref.isEmpty = false ∨ i.properties ≠ [] → ¬ GivesMap spec i
  /-- A list that can be null, with `null` as its first type. -/
  nullable : p.firstType ≠ "array" → p.denull.types = ["array"] → ∀ i, p.items = some i →
    ¬ GivesMap spec i

/-- No property of a schema is a list of maps, and its values may be those of a map. -/
structure AllowsMaps (spec : Spec) (s : Schema) : Prop where
  properties : ∀ entry ∈ s.properties, entry.2.denull.types = ["array"] →
    ∀ i, entry.2.items = some i → ¬ GivesMap spec i
  values : ∀ p, s.additional = some p → AllowsValue spec p

/-! ## Compiling schemas -/

section Schemas

variable {env : Environment} {spec : Spec} {scope : Scope} {c c₁ c' : Compilation} {d : Definition}
  {t : TypeRef}

/-- A way to compile a schema that places maps where they can stand, and gives a map only if the
schema may come to one. -/
def ActionPlacesMaps (spec : Spec) (s : Schema) (a : Action) : Prop :=
  ∀ scope rawName comment c d c', a scope rawName comment c = .ok (d, c') →
    c.PlacesMaps (NamesMap spec) →
    c.GoesOn (NamesMap spec) c' ∧ c'.Yields (NamesMap spec) (GivesMap spec s) d

/-- A schema inside another one, and its items, place maps where they can stand. -/
structure PartPlacesMaps (env : Environment) (spec : Spec) (s : Schema) : Prop where
  whole : ActionPlacesMaps spec s (compileSchema env s)
  items : ∀ i, s.items = some i → ActionPlacesMaps spec i (compileSchema env i)

theorem compileReferenceValue_placesMaps {ref : Value}
    (h : compileReferenceValue ref c = .ok (d, c')) (hc : c.PlacesMaps (NamesMap spec)) :
    c.GoesOn (NamesMap spec) c' ∧
      c'.Yields (NamesMap spec) (∃ text, ref.keyText = .ok text ∧ NamesMap spec text) d := by
  obtain ⟨text, _, htext, h⟩ := bind_ok_iff.1 h
  obtain ⟨htext, rfl⟩ := ofResult_ok_iff.1 htext
  obtain ⟨hgoes, hyields⟩ := hc.compileReference h
  exact ⟨hgoes, hyields.imp fun hmap => ⟨text, htext, hmap⟩⟩

theorem noMap_withFormat {maps : String → Prop} {g : Graph} (format : String)
    (h : g.NoMap maps t) : g.NoMap maps (withFormat format t) := by
  cases t with
  | builtin b => trivial
  | node id => exact h

theorem noMap_boxed {maps : String → Prop} {g : Graph} (h : g.NoMap maps t) :
    g.NoMap maps (boxed t) := by
  cases t with
  | builtin b => trivial
  | node id => exact h

theorem compileEnum_placesMaps {maps : String → Prop} {name : String} {choices : List String}
    (h : compileEnum env scope name choices c = .ok (t, c')) (hc : c.PlacesMaps maps) :
    c.GoesOn maps c' ∧ c'.graph.NoMap maps t := by
  obtain ⟨rfl, rfl⟩ := compileEnum_ok h
  exact ⟨hc.withNode trivial, _, Graph.node?_add_self _, trivial⟩

/-! ### Maps -/

/-- A message for a list of what is no map. -/
theorem listWrapper_goesOn {maps : String → Prop} (hc : c.PlacesMaps maps)
    (ht : c.graph.NoMap maps t) (name field about : String) (comment : Value) :
    c.GoesOn maps (c.withNode (.message (listWrapper name field about comment t))) :=
  hc.withNode fun f hf _ => by rwa [List.mem_singleton.1 hf]

theorem noMap_message {maps : String → Prop} (c : Compilation) (m : Message) :
    (c.withNode (.message m)).graph.NoMap maps (.node c.graph.size) :=
  ⟨_, Graph.node?_add_self _, trivial⟩

theorem refListWrapper_placesMaps {ref : Value}
    (h : refListWrapper env scope ref c = .ok (t, c')) (hc : c.PlacesMaps (NamesMap spec))
    (hno : ∀ text, ref.keyText = .ok text → ¬ NamesMap spec text) :
    c.GoesOn (NamesMap spec) c' ∧ c'.graph.NoMap (NamesMap spec) t := by
  obtain ⟨text, htext, hcases⟩ := refListWrapper_ok h
  have hno : ¬ NamesMap spec text := by
    refine hno text ?_
    cases ref <;> first | exact htext | cases htext
  rcases hcases with ⟨wrapper, hwrapper, rfl, rfl⟩ | ⟨-, d, c₁, hitem, rfl, rfl⟩
  · obtain ⟨before, after, heq, -⟩ := List.lookup_eq_some_iff.1 hwrapper
    have hmem : (refBase text, wrapper) ∈ c'.wrappers := by simp [heq]
    exact ⟨hc.refl, hc.wrappers _ hmem⟩
  · obtain ⟨hgoes, hyields⟩ := hc.compileReference hitem
    have hmessage := listWrapper_goesOn hgoes.placesMaps (hyields.noMap hno)
      (listWrapperName env.spec c₁ (refBase text)) "items" (refBase text) (.text "")
    have hremember := hmessage.placesMaps.remember (refBase text) (noMap_message c₁ _)
    have hlast := hremember.trans (hremember.placesMaps.declare scope c₁.package
      (.node c₁.graph.size))
    exact ⟨hgoes.trans (hmessage.trans hlast), hlast.noMap (noMap_message c₁ _)⟩

theorem objectListWrapper_placesMaps {name rawField : String} {comment itemComment : Value}
    {i : Schema} (hi : ActionPlacesMaps spec i (compileSchema env i))
    (h : objectListWrapper scope name rawField comment (compileSchema env i) itemComment c =
      .ok (t, c')) (hc : c.PlacesMaps (NamesMap spec)) (hno : ¬ GivesMap spec i) :
    c.GoesOn (NamesMap spec) c' ∧ c'.graph.NoMap (NamesMap spec) t := by
  obtain ⟨d, c₁, c₂, hitem, rfl, rfl, rfl⟩ := objectListWrapper_ok h
  obtain ⟨hgoes, hyields⟩ := hi _ _ _ _ _ _ hitem hc
  have hdeclare := hgoes.placesMaps.declareHere scope d.unwrap
  have hitem := hdeclare.noMap (hyields.noMap hno)
  have hmessage := listWrapper_goesOn hdeclare.placesMaps hitem (withoutMessage name ++ "List")
    (if (Name.fieldName rawField).isEmpty then "items" else Name.fieldName rawField)
    ((c₁.declareHere scope d.unwrap).graph.typeName d.unwrap) comment
  have hlast := hmessage.placesMaps.declareHere scope
    (.node (c₁.declareHere scope d.unwrap).graph.size)
  exact ⟨(hgoes.trans hdeclare).trans (hmessage.trans hlast),
    hlast.noMap (noMap_message (c₁.declareHere scope d.unwrap) _)⟩

/-- An object whose values have a schema becomes a map, if it does not stand for a visible type. -/
theorem compileNew_isMap {s p : Schema} {rawName name : String} {comment : Value}
    {items : Option Action} {properties : List (String × Part)} (hobject : isObject s)
    (hp : isOpen p = false)
    (h : compileNew env s scope rawName name comment items (some (part env p)) properties c =
      .ok (d, c')) : c'.graph.IsMap d.unwrap := by
  unfold compileNew at h
  rw [if_neg (Nat.not_lt.2 hobject.1), if_pos (by simpa using hobject.2)] at h
  dsimp only at h
  rw [if_neg (by simp [part, hp])] at h
  obtain ⟨t, c₁, ht, h⟩ := bind_ok_iff.1 h
  obtain ⟨rfl, rfl⟩ : .type t = d ∧ c₁ = c' := by simpa using h
  obtain ⟨value, c₂, -, rfl, rfl⟩ := compileMap_ok ht
  exact ⟨_, _, _, rfl, Graph.node?_add_self _⟩

/-- What is written out as the schema of values and is no map when it has been compiled does not
come to one later. -/
theorem noMap_of_not_isMap {p : Schema} {name : String} {comment : Value}
    (hp : PartPlacesMaps env spec p) (hallows : AllowsValue spec p)
    (href : p.ref.isEmpty = true) (harray : p.firstType ≠ "array")
    (h : compileSchema env p scope name comment c = .ok (d, c'))
    (hc : c.PlacesMaps (NamesMap spec)) (hmap : ¬ c'.graph.IsMap d.unwrap) :
    c'.graph.NoMap (NamesMap spec) d.unwrap := by
  obtain ⟨hgoes, hyields⟩ := hp.whole _ _ _ _ _ _ h hc
  rcases compileSchema_cases h with href' | ⟨-, ⟨_, t, -, hfound, rfl, rfl⟩ | ⟨-, -, hnew⟩⟩
  · simp [href] at href'
  · exact noMap_withFormat _ (hc.noMap_lookup hfound)
  · refine hyields.noMap fun hgives => ?_
    cases hgives with
    | map _ hobject hadditional hopen =>
      rw [p.denull_additional, hadditional] at hnew
      exact hmap (compileNew_isMap hobject hopen hnew)
    | items _ htypes hi hgives => exact hallows.nullable harray htypes _ hi hgives
    | reference href' => simp [href] at href'

/-- The type of the values of a map is no map. Only what is referred to could be one. -/
theorem compileMapValue_placesMaps {name rawField : String} {p : Schema}
    (hp : PartPlacesMaps env spec p)
    (h : MapValue env scope name rawField (part env p) c t c')
    (hc : c.PlacesMaps (NamesMap spec)) (hallows : AllowsValue spec p) :
    c.GoesOn (NamesMap spec) c' ∧ c'.graph.NoMap (NamesMap spec) t := by
  cases h with
  | reference href hd =>
    obtain ⟨hgoes, hyields⟩ := compileReferenceValue_placesMaps hd hc
    exact ⟨hgoes, hyields.noMap fun ⟨_, htext, hmap⟩ =>
      hallows.reference href (.reference href htext hmap)⟩
  | listOfReference _ harray hi _ href hlist =>
    exact refListWrapper_placesMaps hlist hc fun text htext hmap =>
      hallows.list harray _ hi (.inl href) (.reference href htext hmap)
  | listOfObjects _ harray hi haction _ hproperties hlist =>
    obtain rfl := Option.some.inj ((part_items env hi).symm.trans haction)
    exact objectListWrapper_placesMaps (hp.items _ hi) hlist hc
      (hallows.list harray _ hi (.inr hproperties))
  | list => exact ⟨hc.importing _, trivial⟩
  | nested _ _ hd =>
    obtain ⟨hgoes, -⟩ := hp.whole _ _ _ _ _ _ hd hc
    exact ⟨hgoes.trans (hgoes.placesMaps.importing _), trivial⟩
  | value href harray hd hn =>
    obtain ⟨hgoes, -⟩ := hp.whole _ _ _ _ _ _ hd hc
    refine ⟨hgoes, noMap_of_not_isMap hp hallows href harray hd hc ?_⟩
    rintro ⟨id, key, value, heq, hmap⟩
    rw [heq] at hn
    exact nomatch isMap_false hn hmap

theorem compileMap_placesMaps {name rawField : String} {p : Schema}
    (hp : PartPlacesMaps env spec p)
    (h : compileMap env scope name rawField (part env p) c = .ok (t, c'))
    (hc : c.PlacesMaps (NamesMap spec)) (hallows : AllowsValue spec p) :
    c.GoesOn (NamesMap spec) c' := by
  obtain ⟨value, c₁, hv, rfl, rfl⟩ := compileMap_ok h
  obtain ⟨hgoes, hvalue⟩ := compileMapValue_placesMaps hp hv hc hallows
  exact hgoes.trans (hgoes.placesMaps.withNode hvalue)

/-! ### Properties -/

/-- A property is repeated only if its type is no map. -/
theorem compilePropertyType_placesMaps {name : String} {s : Schema}
    (hs : PartPlacesMaps env spec s)
    (hlist : s.denull.types = ["array"] → ∀ i, s.items = some i → ¬ GivesMap spec i)
    (h : compilePropertyType env scope name (part env s) c = .ok (d, c'))
    (hc : c.PlacesMaps (NamesMap spec)) :
    c.GoesOn (NamesMap spec) c' ∧
      (d.repeats s = true → c'.graph.NoMap (NamesMap spec) d.unwrap) := by
  have hitems : (part env s).items = s.items.map (compileSchema env) := compileItems_eq_map env s
  -- what is no list repeats only shared parameters
  have hsingle : ∀ {c' : Compilation} {mayBeMap : Prop} {d : Definition},
      "array" ∉ s.denull.types → c'.Yields (NamesMap spec) mayBeMap d →
      d.repeats s = true → c'.graph.NoMap (NamesMap spec) d.unwrap := by
    intro c' mayBeMap d hnot hyields hrepeats
    cases d with
    | type t => exact absurd (List.contains_iff_mem.1 hrepeats) hnot
    | parameter => exact hyields.list hrepeats
  have hboxes : ∀ {g : Graph} {t : TypeRef}, g.NoMap (NamesMap spec) t →
      g.NoMap (NamesMap spec) (boxes env t) := by
    intro g t ht
    unfold boxes
    split
    · exact noMap_boxed ht
    · exact ht
  cases compilePropertyType_cases h with
  | several _ ht =>
    obtain ⟨rfl, b, rfl⟩ := compileMultiType_ok ht
    exact ⟨hc.refl, fun _ => trivial⟩
  | object hobject hd =>
    obtain ⟨hgoes, hyields⟩ := hs.whole _ _ _ _ _ _ hd hc
    exact ⟨hgoes, hsingle hobject.not_array hyields⟩
  | array htypes haction hd =>
    obtain ⟨i, hi, rfl⟩ := Option.map_eq_some_iff.1 (hitems.symm.trans haction)
    obtain ⟨hgoes, hyields⟩ := hs.items i hi _ _ _ _ _ _ hd hc
    exact ⟨hgoes, fun _ => (hyields.mapType fun _ => hboxes).noMap (hlist htypes i hi)⟩
  | named _ _ hfound =>
    exact ⟨hc.refl, fun _ => hboxes (noMap_withFormat _ (hc.noMap_lookup hfound))⟩
  | unnamed _ harray _ _ hd =>
    obtain ⟨hgoes, hyields⟩ := hs.whole _ _ _ _ _ _ hd hc
    exact ⟨hgoes, hsingle harray (hyields.mapType fun _ ht => hboxes (noMap_withFormat _ ht))⟩
  | enumeration _ _ _ _ ht =>
    obtain ⟨hgoes, hnoMap⟩ := compileEnum_placesMaps ht hc
    exact ⟨hgoes, fun _ => hnoMap⟩

theorem compileProperty_placesMaps {name : String} {s : Schema} (hs : PartPlacesMaps env spec s)
    (hlist : s.denull.types = ["array"] → ∀ i, s.items = some i → ¬ GivesMap spec i)
    {field : CompiledProperty} (h : compileProperty env scope name (part env s) c = .ok (field, c'))
    (hc : c.PlacesMaps (NamesMap spec)) :
    c.GoesOn (NamesMap spec) c' ∧
      (field.repeated = true → c'.graph.NoMap (NamesMap spec) field.type) := by
  obtain ⟨d, c₁, hd, htype, rfl, hrepeated⟩ := compileProperty_ok h
  obtain ⟨hgoes, hnoMap⟩ := compilePropertyType_placesMaps hs hlist hd hc
  have hdeclare := hgoes.placesMaps.declareHere scope d.unwrap
  rw [htype, hrepeated]
  exact ⟨hgoes.trans hdeclare, fun hrepeats => hdeclare.noMap (hnoMap hrepeats)⟩

/-! ### Messages -/

theorem mapM_compileProperty_placesMaps {properties : List (String × Schema)}
    (hp : ∀ entry ∈ properties, PartPlacesMaps env spec entry.2)
    (hlists : ∀ entry ∈ properties, entry.2.denull.types = ["array"] →
      ∀ i, entry.2.items = some i → ¬ GivesMap spec i) {fields : List CompiledProperty}
    (h : ((partList env properties).mapM fun (key, p) =>
      within ("failed to compile property " ++ key) (compileProperty env scope key p)) c =
        .ok (fields, c')) (hc : c.PlacesMaps (NamesMap spec)) :
    c.GoesOn (NamesMap spec) c' ∧
      ∀ field ∈ fields, field.repeated = true → c'.graph.NoMap (NamesMap spec) field.type := by
  induction properties generalizing c fields with
  | nil =>
    obtain ⟨rfl, rfl⟩ := Prod.mk.inj (Except.ok.inj h)
    exact ⟨hc.refl, nofun⟩
  | cons entry rest ih =>
    obtain ⟨key, s⟩ := entry
    rw [partList, List.mapM_cons] at h
    obtain ⟨field, c₁, hfirst, h⟩ := bind_ok_iff.1 h
    obtain ⟨others, c₂, hrest, h⟩ := bind_ok_iff.1 h
    obtain ⟨rfl, rfl⟩ : field :: others = fields ∧ c₂ = c' := by simpa using h
    obtain ⟨hgoes, hfield⟩ := compileProperty_placesMaps (hp _ (List.mem_cons_self ..))
      (hlists _ (List.mem_cons_self ..)) (within_ok_iff.1 hfirst) hc
    obtain ⟨hgoes', hothers⟩ := ih (fun e he => hp e (List.mem_cons_of_mem _ he))
      (fun e he => hlists e (List.mem_cons_of_mem _ he)) hrest hgoes.placesMaps
    refine ⟨hgoes.trans hgoes', fun f hf hrepeated => ?_⟩
    rcases List.mem_cons.1 hf with rfl | hf
    · exact hgoes'.noMap (hfield hrepeated)
    · exact hothers f hf hrepeated

theorem compileMessage_placesMaps {name : String} {comment : Value}
    {properties : List (String × Schema)}
    (hp : ∀ entry ∈ properties, PartPlacesMaps env spec entry.2)
    (hlists : ∀ entry ∈ properties, entry.2.denull.types = ["array"] →
      ∀ i, entry.2.items = some i → ¬ GivesMap spec i)
    (h : compileMessage env scope name comment (partList env properties) c = .ok (d, c'))
    (hc : c.PlacesMaps (NamesMap spec)) :
    c.GoesOn (NamesMap spec) c' ∧ c'.graph.NoMap (NamesMap spec) d.unwrap := by
  obtain ⟨rfl, compiled, c₁, numbers, c₂, hcompiled, -, hadded, rfl⟩ := compileMessage_ok h
  have henter := hc.withNode (n := .message ⟨name, [], [], comment⟩) nofun
  obtain ⟨hgoes, hfields⟩ := mapM_compileProperty_placesMaps
    (fun e he => hp e (mem_sortEntries.1 he)) (fun e he => hlists e (mem_sortEntries.1 he))
    hcompiled henter.placesMaps
  have hadd := hgoes.placesMaps.addFields hadded fun field hfield =>
    hfields field.1 (List.of_mem_zip hfield).1
  have hlast := (hgoes.trans hadd).trans (hadd.placesMaps.declareHere scope (.node c.graph.size))
  exact ⟨henter.trans hlast, hlast.noMap (noMap_message c _)⟩

/-! ### Schemas -/

/-- A schema without reference whose name is not visible becomes a map only if it may. -/
theorem compileNew_placesMaps {s : Schema} {rawName name : String} {comment : Value}
    {mayBeMap : Prop}
    (hitems : ∀ i, s.items = some i → ActionPlacesMaps spec i (compileSchema env i))
    (hadditional : ∀ p, s.additional = some p → PartPlacesMaps env spec p)
    (hp : ∀ entry ∈ s.properties, PartPlacesMaps env spec entry.2)
    (hallows : AllowsMaps spec s)
    (hmap : isObject s → ∀ p, s.additional = some p → isOpen p = false → mayBeMap)
    (hlist : s.types = ["array"] → ∀ i, s.items = some i → GivesMap spec i → mayBeMap)
    (h : compileNew env s scope rawName name comment (s.items.map (compileSchema env))
      (s.additional.map (part env)) (partList env s.properties) c = .ok (d, c'))
    (hc : c.PlacesMaps (NamesMap spec)) :
    c.GoesOn (NamesMap spec) c' ∧ c'.Yields (NamesMap spec) mayBeMap d := by
  cases compileNew_cases h with
  | several _ ht =>
    obtain ⟨rfl, b, rfl⟩ := compileMultiType_ok ht
    exact ⟨hc.refl, .of_noMap trivial⟩
  | message _ _ hmessage =>
    obtain ⟨hgoes, hnoMap⟩ := compileMessage_placesMaps hp hallows.properties hmessage hc
    exact ⟨hgoes, .of_noMap hnoMap⟩
  | struct => exact ⟨hc.importing _, .of_noMap trivial⟩
  | @map _ t _ hobject hadd hopen ht =>
    obtain ⟨p, hsome, rfl⟩ := Option.map_eq_some_iff.1 hadd
    exact ⟨compileMap_placesMaps (hadditional p hsome) ht hc (hallows.values p hsome),
      .of_map t (hmap hobject p hsome hopen)⟩
  | parameters htypes hi hd =>
    obtain ⟨i, hsome, rfl⟩ := Option.map_eq_some_iff.1 hi
    obtain ⟨hgoes, hyields⟩ := hitems i hsome _ _ _ _ _ _ hd hc
    exact ⟨hgoes, hyields.imp (hlist htypes i hsome)⟩
  | @list _ t _ htypes hi hd =>
    obtain ⟨i, hsome, rfl⟩ := Option.map_eq_some_iff.1 hi
    obtain ⟨hgoes, hyields⟩ := hitems i hsome _ _ _ _ _ _ hd hc
    have hdeclare := hgoes.placesMaps.declareHere scope t
    exact ⟨hgoes.trans hdeclare, (hyields.imp (hlist htypes i hsome)).goesOn hdeclare⟩
  | scalar _ _ _ hfound =>
    exact ⟨hc.refl, .of_noMap (noMap_withFormat _ (hc.noMap_lookup hfound))⟩
  | @enumeration _ t _ _ _ _ ht =>
    obtain ⟨hgoes, hnoMap⟩ := compileEnum_placesMaps ht hc
    have hdeclare := hgoes.placesMaps.declareHere scope t
    exact ⟨hgoes.trans hdeclare, .of_noMap (hdeclare.noMap hnoMap)⟩
  | null => exact ⟨hc.refl, .of_noMap trivial⟩

theorem compileSchema_placesMaps_of_parts {s : Schema}
    (hitems : ∀ i, s.items = some i → ActionPlacesMaps spec i (compileSchema env i))
    (hadditional : ∀ p, s.additional = some p → PartPlacesMaps env spec p)
    (hp : ∀ entry ∈ s.properties, PartPlacesMaps env spec entry.2) (hallows : AllowsMaps spec s) :
    ActionPlacesMaps spec s (compileSchema env s) := by
  intro scope rawName comment c d c' h hc
  rcases compileSchema_cases h with href | ⟨href, ⟨_, t, -, hfound, rfl, rfl⟩ | ⟨-, -, hnew⟩⟩
  · obtain ⟨hgoes, hyields⟩ :=
      compileReferenceValue_placesMaps (compileSchema_reference href h) hc
    exact ⟨hgoes, hyields.imp fun ⟨_, htext, hmap⟩ => .reference href htext hmap⟩
  · exact ⟨hc.refl, .of_noMap (noMap_withFormat _ (hc.noMap_lookup hfound))⟩
  · refine compileNew_placesMaps ?_ ?_ ?_ ?_ ?_ ?_ hnew hc
    · rwa [s.denull_items]
    · rwa [s.denull_additional]
    · rwa [s.denull_properties]
    · refine ⟨?_, ?_⟩
      · rw [s.denull_properties]
        exact hallows.properties
      · rw [s.denull_additional]
        exact hallows.values
    · rw [s.denull_additional]
      exact fun hobject p hadd hopen => .map href hobject hadd hopen
    · rw [s.denull_items]
      exact fun htypes i hi hgives => .items href htypes hi hgives

mutual

/-- Compiling a schema, and those inside it, places maps where they can stand. -/
theorem compileSchema_placesMaps (env : Environment) (spec : Spec) : ∀ s : Schema,
    (∀ t, Inside t s → AllowsMaps spec t) → PartPlacesMaps env spec s
  | ⟨ref, types, format, choices, description, properties, items, additional, tag, protoName⟩,
    hallows => by
    have hitems := compileOption_placesMaps env spec items fun s hs t ht =>
      hallows t (.items hs ht)
    have hadditional := compileOption_placesMaps env spec additional fun s hs t ht =>
      hallows t (.additional hs ht)
    have hproperties := compileList_placesMaps env spec properties fun entry he t ht =>
      hallows t (.property he ht)
    exact ⟨compileSchema_placesMaps_of_parts (fun i hi => (hitems i hi).whole) hadditional
      hproperties (hallows _ (.self _)), fun i hi => (hitems i hi).whole⟩
termination_by structural s => s

theorem compileOption_placesMaps (env : Environment) (spec : Spec) : ∀ o : Option Schema,
    (∀ s, o = some s → ∀ t, Inside t s → AllowsMaps spec t) →
      ∀ s, o = some s → PartPlacesMaps env spec s
  | some s, hallows, s', h => by
    have hs := compileSchema_placesMaps env spec s (hallows s rfl)
    rwa [← Option.some.inj h]
termination_by structural o => o

theorem compileList_placesMaps (env : Environment) (spec : Spec) : ∀ l : List (String × Schema),
    (∀ entry ∈ l, ∀ t, Inside t entry.2 → AllowsMaps spec t) →
      ∀ entry ∈ l, PartPlacesMaps env spec entry.2
  | (key, s) :: rest, hallows, entry, h => by
    have hs := compileSchema_placesMaps env spec s (hallows (key, s) (List.mem_cons_self ..))
    have hrest := compileList_placesMaps env spec rest fun e he =>
      hallows e (List.mem_cons_of_mem _ he)
    rcases List.mem_cons.1 h with rfl | h
    · exact hs
    · exact hrest entry h
termination_by structural l => l

end

end Schemas

end ApiProto.Compile
