import ApiProto.Proofs.ActiveScopes
import ApiProto.Proofs.EmittedNames
import ApiProto.Proofs.Sources

/-!
# Descriptions with good names

Names that a description gives become the names of declarations and fields. If a letter is the first
of the letters and digits of each, these are identifiers. Two things are to be seen to besides: enums
take the name of their place without the ending `Message`, and may be left with nothing; and shared
list wrappers have their names from what references end in.

* `Schema.WellNamed` — schemas with good names for what is inside them.
* `NamesTypes` — names under which a schema can be compiled.
* `ActionSuits` — ways to compile a schema in which all names that are made are suitable.
* `compileSchema_suits` — compiling a schema is such a way.
-/

namespace ApiProto.Name

variable {s : String}

/-- The letters and digits of a text are not all gone once a letter is one of them. -/
theorem HasInitial.capitals_ne_nil {cs : List Char} (h : HasInitial cs) : capitals cs ≠ [] := by
  intro hnil
  unfold HasInitial initial? at h
  rw [hnil] at h
  cases h

/-- The name of a field has letters or digits, or is empty. -/
theorem hasInitial_of_fieldName (h : Unnumbered s.toList) (hne : fieldName s ≠ "") :
    HasInitial s.toList := by
  refine h.hasInitial fun hnil => ?_
  have hstart := (snakeChars_worded s.toList).start
  have hchars := (snakeChars_worded s.toList).chars
  rw [← capitals_snakeChars] at hnil
  rw [fieldName_eq_snake, snake] at hne
  rcases hs : snakeChars s.toList with _ | ⟨a, rest⟩ <;> rw [hs] at hne hstart hchars hnil
  · exact absurd rfl hne
  · have ha : a.isAlphanum = true := (hchars a (List.mem_cons_self ..)).resolve_right fun hunder =>
      hstart (congrArg some hunder)
    rw [capitals_cons, if_pos ha] at hnil
    cases hnil

end ApiProto.Name

namespace ApiProto.Compile

open Name

variable {name : String}

/-- A name ends in `Message` if that can be left off. -/
theorem withoutMessage_cases (name : String) :
    withoutMessage name = name ∨ name = withoutMessage name ++ "Message" := by
  unfold withoutMessage Text.withoutEnd Text.dropEnd
  split
  · next rest hdrop =>
    have happend := congrArg List.reverse (Text.eq_append_of_dropStart? hdrop)
    rw [List.reverse_append, List.reverse_reverse, List.reverse_reverse] at happend
    refine .inr (String.toList_inj.1 ?_)
    rw [String.toList_append, String.toList_ofList, happend]
  · exact .inl (String.ofList_toList ..)

theorem unnumbered_withoutMessage (h : HasInitial name.toList) :
    Unnumbered (withoutMessage name).toList := by
  rcases withoutMessage_cases name with heq | heq
  · rw [heq]
    exact h.unnumbered
  · rw [heq, String.toList_append] at h
    exact h.unnumbered_left

/-- Only `Message` itself is left with nothing. -/
theorem hasInitial_withoutMessage (plain : IsPlain name) (h : HasInitial name.toList)
    (hne : name ≠ "Message") : HasInitial (withoutMessage name).toList := by
  refine (unnumbered_withoutMessage h).hasInitial fun hnil => ?_
  have hplain : IsPlain (withoutMessage name) := plain.withoutEnd _
  have hempty : withoutMessage name = "" := by
    rcases hs : (withoutMessage name).toList with _ | ⟨a, rest⟩
    · exact String.toList_inj.1 hs
    · rw [hs, capitals_cons, if_pos (hplain a (hs ▸ List.mem_cons_self ..))] at hnil
      cases hnil
  rcases withoutMessage_cases name with heq | heq <;> rw [hempty] at heq
  · rw [← heq] at h
    cases h
  · exact hne heq

end ApiProto.Compile

namespace ApiProto

/-- A text that gives a name, if it gives one, in which the first letter or digit is a letter. -/
def Value.NamesWell (v : Value) : Prop :=
  ∀ word ∈ v.wordText.toOption, word = "" ∨ Name.HasInitial word.toList

instance (v : Value) : Decidable v.NamesWell := inferInstanceAs (Decidable (∀ _ ∈ _, _))

theorem Value.NamesWell.word {v : Value} (h : v.NamesWell) {word : String}
    (hword : v.wordText = .ok word) (hsome : v.isEmpty = false) : Name.HasInitial word.toList := by
  refine (h word ?_).resolve_left fun hempty => ?_
  · rw [hword]
    rfl
  · rw [Compile.eq_text_of_wordText hword, hempty] at hsome
    cases hsome

end ApiProto

namespace ApiProto.Document

open Name

/-! ## Schemas -/

mutual

/-- Whether an enum may take its name from that of a schema: the schema lists values, or the items of
a list or the values of a map do. -/
def Schema.listsValues : Schema → Bool
  | ⟨_, _, _, choices, _, _, items, additional, _, _⟩ =>
    !choices.isEmpty || (itemsListValues items || itemsListValues additional)
termination_by structural s => s

/-- Whether the items of a list, or the values of a map, list values. -/
def itemsListValues : Option Schema → Bool
  | none => false
  | some s => s.listsValues
termination_by structural o => o

end

namespace Schema

variable {s s' i p : Schema}

theorem listsValues_eq (s : Schema) : s.listsValues =
    (!s.choices.isEmpty || (itemsListValues s.items || itemsListValues s.additional)) := by
  cases s
  rw [listsValues]

theorem listsValues_congr (hchoices : s'.choices = s.choices) (hitems : s'.items = s.items)
    (hadditional : s'.additional = s.additional) : s'.listsValues = s.listsValues := by
  rw [listsValues_eq, listsValues_eq, hchoices, hitems, hadditional]

theorem listsValues_of_items (hi : s.items = some i) (h : i.listsValues = true) :
    s.listsValues = true := by
  rw [listsValues_eq, hi, itemsListValues, h, Bool.true_or, Bool.or_true]

theorem listsValues_of_additional (hp : s.additional = some p) (h : p.listsValues = true) :
    s.listsValues = true := by
  rw [listsValues_eq, hp]
  simp [itemsListValues, h]

/-- The properties of a schema have good names, and so has what a map of lists refers to. -/
structure NamesWell (s : Schema) : Prop where
  keys : ∀ entry ∈ s.properties, HasInitial entry.1.toList
  given : ∀ entry ∈ s.properties, entry.2.protoName.NamesWell
  listed : ∀ ref ∈ s.listedReference?, Unnumbered (Text.afterLast '/' ref.toList)

instance (s : Schema) : Decidable s.NamesWell :=
  decidable_of_iff ((∀ entry ∈ s.properties, HasInitial entry.1.toList) ∧
      (∀ entry ∈ s.properties, entry.2.protoName.NamesWell) ∧
      ∀ ref ∈ s.listedReference?, Unnumbered (Text.afterLast '/' ref.toList))
    ⟨fun ⟨keys, given, listed⟩ => ⟨keys, given, listed⟩, fun ⟨keys, given, listed⟩ =>
      ⟨keys, given, listed⟩⟩

/-- A schema has good names for what is inside it. -/
def WellNamed (s : Schema) : Prop := ∀ t ∈ s.inner, t.NamesWell

theorem exists_of_mem_innerProperties {t : Schema} {properties : List (String × Schema)}
    (h : t ∈ innerProperties properties) : ∃ entry ∈ properties, t ∈ entry.2.inner := by
  induction properties with
  | nil => cases h
  | cons first rest ih =>
    rw [innerProperties] at h
    rcases List.mem_append.1 h with h | h
    · exact ⟨first, List.mem_cons_self .., h⟩
    · obtain ⟨entry, hentry, ht⟩ := ih h
      exact ⟨entry, List.mem_cons_of_mem _ hentry, ht⟩

namespace WellNamed

theorem self (h : s.WellNamed) : s.NamesWell := h s (by rw [inner_eq]; exact List.mem_cons_self ..)

theorem items (h : s.WellNamed) (hi : s.items = some i) : i.WellNamed := fun t ht => by
  refine h t ?_
  rw [inner_eq, hi]
  exact List.mem_cons_of_mem _ (List.mem_append_right _ (List.mem_append_left _ ht))

theorem additional (h : s.WellNamed) (hp : s.additional = some p) : p.WellNamed := fun t ht => by
  refine h t ?_
  rw [inner_eq, hp]
  exact List.mem_cons_of_mem _ (List.mem_append_right _ (List.mem_append_right _ ht))

theorem property (h : s.WellNamed) {entry : String × Schema} (hentry : entry ∈ s.properties) :
    entry.2.WellNamed := fun t ht => by
  refine h t ?_
  rw [inner_eq]
  exact List.mem_cons_of_mem _ (List.mem_append_left _ (mem_innerProperties hentry ht))

/-- A schema with the same schemas inside it. -/
theorem of_same (h : s.WellNamed) (hproperties : s'.properties = s.properties)
    (hitems : s'.items = s.items) (hadditional : s'.additional = s.additional) :
    s'.WellNamed := by
  intro t ht
  rw [inner_eq, hproperties, hitems, hadditional] at ht
  rcases List.mem_cons.1 ht with rfl | ht
  · have hself := h.self
    refine ⟨hproperties ▸ hself.keys, hproperties ▸ hself.given, ?_⟩
    unfold listedReference?
    rw [hadditional]
    exact hself.listed
  · refine h t ?_
    rw [inner_eq]
    exact List.mem_cons_of_mem _ ht

/-- An object without values under arbitrary keys. -/
theorem of_properties {properties : List (String × Schema)}
    (hkeys : ∀ entry ∈ properties, HasInitial entry.1.toList)
    (hgiven : ∀ entry ∈ properties, entry.2.protoName.NamesWell)
    (hinner : ∀ entry ∈ properties, entry.2.WellNamed) :
    WellNamed { blank with properties := properties } := by
  intro t ht
  rw [inner_eq] at ht
  rcases List.mem_cons.1 ht with rfl | ht
  · exact ⟨hkeys, hgiven, nofun⟩
  · obtain ⟨entry, hentry, ht⟩ : ∃ entry ∈ properties, t ∈ entry.2.inner := by
      refine exists_of_mem_innerProperties ((List.mem_append.1 ht).resolve_right fun hnone => ?_)
      cases hnone
    exact hinner entry hentry t ht

end WellNamed

end Schema

end ApiProto.Document

namespace ApiProto.Compile

open Proto Document CompileM Name

/-! ## Names for types -/

/-- A name under which a schema can be compiled: types take their names from it, and enums have
something left. -/
structure NamesTypes (key : String) (s : Schema) : Prop where
  initial : HasInitial key.toList
  whole : s.listsValues = true → pascal key ≠ "Message"

instance (key : String) (s : Schema) : Decidable (NamesTypes key s) :=
  decidable_of_iff (HasInitial key.toList ∧ (s.listsValues = true → pascal key ≠ "Message"))
    ⟨fun ⟨initial, whole⟩ => ⟨initial, whole⟩, fun ⟨initial, whole⟩ => ⟨initial, whole⟩⟩

namespace NamesTypes

variable {key : String} {s s' i p : Schema}

theorem pascal (h : NamesTypes key s) : NamesTypes (Name.pascal key) s :=
  ⟨(hasInitial_pascal key).2 h.initial, by rw [pascal_pascal]; exact h.whole⟩

theorem mono (h : NamesTypes key s) (hlists : s'.listsValues = true → s.listsValues = true) :
    NamesTypes key s' :=
  ⟨h.initial, fun hs => h.whole (hlists hs)⟩

theorem items (h : NamesTypes key s) (hi : s.items = some i) : NamesTypes key i :=
  h.mono (Schema.listsValues_of_items hi)

theorem additional (h : NamesTypes key s) (hp : s.additional = some p) : NamesTypes key p :=
  h.mono (Schema.listsValues_of_additional hp)

/-- Names with more letters and digits than `Message` has. -/
theorem of_length (hinitial : HasInitial key.toList) (hlength : 7 < (capitals key.toList).length) :
    NamesTypes key s where
  initial := hinitial
  whole _ heq := by
    rw [← capitals_pascal, heq] at hlength
    exact absurd hlength (by decide)

/-- A name with a word after it. -/
theorem of_word {word : String} (h : HasInitial key.toList)
    (hword : 7 ≤ (capitals word.toList).length) : NamesTypes (key ++ word) s := by
  have hlength := List.length_pos_of_ne_nil h.capitals_ne_nil
  refine of_length (by rw [String.toList_append]; exact h.append _) ?_
  rw [String.toList_append, capitals_append, List.length_append]
  omega

/-- The name of an enum in the place of a schema. -/
theorem enumName (h : NamesTypes key s) (hchoices : s.choices ≠ []) :
    HasInitial (withoutMessage (Name.pascal key)).toList := by
  refine hasInitial_withoutMessage (pascal_plain key) ((hasInitial_pascal key).2 h.initial)
    (h.whole ?_)
  rw [Schema.listsValues_eq]
  simp [hchoices]

end NamesTypes

/-! ## Compiling schemas -/

variable {env : Environment} {good : Prop} {scope : Scope} {c c' : Compilation} {t : TypeRef}
  {d : Definition} {s p : Schema} {rawName : String}

/-- A way to compile a schema in which all names that are made are suitable, provided that its name
is a good one. -/
def ActionSuits (good : Prop) (s : Schema) (a : Action) : Prop :=
  ∀ scope rawName comment c d c', c.At scope → c.Suited good → (good → NamesTypes rawName s) →
    a scope rawName comment c = .ok (d, c') → c'.Suited good ∧ d.Suited good

/-- A schema inside another one that is compiled in such a way, and so are its items. -/
structure PartSuits (env : Environment) (good : Prop) (s : Schema) : Prop where
  whole : ActionSuits good s (compileSchema env s)
  items : ∀ i, s.items = some i → ActionSuits good i (compileSchema env i)

theorem compileReferenceValue_suits {ref : Value} (hc : c.Suited good)
    (h : compileReferenceValue ref c = .ok (d, c')) : c'.Suited good ∧ d.Suited good := by
  obtain ⟨text, _, htext, h⟩ := bind_ok_iff.1 h
  obtain ⟨-, rfl⟩ := ofResult_ok_iff.1 htext
  exact hc.compileReference h

theorem compileMultiType_suits (hc : c.Suited good) (h : compileMultiType s c = .ok (t, c')) :
    c'.Suited good := by
  obtain ⟨rfl, -⟩ := compileMultiType_ok h
  exact hc

theorem compileEnum_suits {name : String} {choices : List String} (hc : c.Suited good)
    (hname : good → HasInitial name.toList)
    (h : compileEnum env scope name choices c = .ok (t, c')) : c'.Suited good := by
  obtain ⟨-, rfl⟩ := compileEnum_ok h
  exact hc.withNode (.enumeration ((pascal_plain name).suits fun hgood =>
    (hasInitial_pascal name).2 (hname hgood)))

/-! ### Maps -/

/-- The message for a list. -/
theorem listWrapper_suited {name field about : String} {comment : Value} (plain : IsPlain name)
    (hname : good → HasInitial name.toList) (hfield : Suits good field) :
    (Node.message (listWrapper name field about comment t)).Suited good :=
  .message (plain.suits hname) fun _ hf => List.mem_singleton.1 hf ▸ hfield

theorem items_suits : Suits good "items" :=
  IsPlain.suits (by decide) fun _ => by decide

theorem hasInitial_wrapperCandidate {base : String} (h : Unnumbered base.toList) (n : Nat) :
    HasInitial (wrapperCandidate base n).toList := by
  have hword : ∀ word : String, HasInitial word.toList → HasInitial (base ++ word).toList := by
    intro word hinitial
    rw [String.toList_append]
    exact h.hasInitial_append hinitial
  match n with
  | 0 => exact hword "List" (by decide)
  | 1 => exact hword "ListWrapper" (by decide)
  | n + 2 =>
    show HasInitial (base ++ "ListWrapper" ++ toString (n + 2)).toList
    rw [String.toList_append]
    exact (hword "ListWrapper" (by decide)).append _

/-- A shared list wrapper has a word after the name that it is made from. -/
theorem hasInitial_listWrapperName {base : String} (h : Unnumbered base.toList) (spec : Spec)
    (c : Compilation) : HasInitial (listWrapperName spec c base).toList := by
  unfold listWrapperName
  dsimp only
  generalize hfound : List.find? _ _ = found
  cases found with
  | none => exact hasInitial_wrapperCandidate h 0
  | some name =>
    obtain ⟨n, -, rfl⟩ := List.mem_map.1 (List.mem_of_find?_eq_some hfound)
    exact hasInitial_wrapperCandidate h n

theorem refListWrapper_suits {ref : Value} (hc : c.Suited good)
    (hlisted : good → ∀ text, ref = .text text → Unnumbered (Text.afterLast '/' text.toList))
    (h : refListWrapper env scope ref c = .ok (t, c')) : c'.Suited good := by
  obtain ⟨text, htext, ⟨wrapper, -, -, rfl⟩ | ⟨-, d, c₁, hitem, -, rfl⟩⟩ := refListWrapper_ok h
  · exact hc
  · refine Compilation.Suited.declare (Compilation.Suited.remember ?_ _ _) _ _
    refine (hc.compileReference hitem).1.withNode (listWrapper_suited
      (listWrapperName_plain (pascal_plain _) _ _) (fun hgood => ?_) items_suits)
    refine hasInitial_listWrapperName ((unnumbered_pascal _).2 ?_) _ _
    rw [String.toList_ofList]
    exact hlisted hgood text (text_of_textWith htext)

/-- The wrapper for a list of objects is named after the place of the list. -/
theorem objectListWrapper_suits {i : Schema} {rawField : String} {comment itemComment : Value}
    (hat : c.At scope) (hc : c.Suited good) (hname : good → NamesTypes rawName i)
    (hfield : good → Unnumbered rawField.toList)
    (hi : ActionSuits good i (compileSchema env i))
    (h : objectListWrapper scope (pascal rawName) rawField comment (compileSchema env i)
      itemComment c = .ok (t, c')) : c'.Suited good := by
  obtain ⟨d, c₁, c₂, hitem, rfl, -, rfl⟩ := objectListWrapper_ok h
  have hc₁ := (hi _ _ _ _ _ _ hat hc (fun hgood => (hname hgood).pascal) hitem).1
  refine ((hc₁.declareHere _).withNode (listWrapper_suited
    (((pascal_plain _).withoutEnd _).append (by decide)) (fun hgood => ?_) ?_)).declareHere _
  · rw [String.toList_append]
    refine (unnumbered_withoutMessage ?_).hasInitial_append (by decide)
    exact (hasInitial_pascal rawName).2 (hname hgood).initial
  · split
    · exact items_suits
    · next hne =>
      exact fieldName_suits fun hgood => hasInitial_of_fieldName (hfield hgood) fun hempty =>
        hne (by rw [hempty]; decide)

theorem compileMapValue_suits {rawField : String} (hat : c.At scope) (hc : c.Suited good)
    (hname : good → NamesTypes rawName p) (hfield : good → Unnumbered rawField.toList)
    (hp : PartSuits env good p)
    (hlisted : good → ∀ ref, p.itemReference? = some ref →
      Unnumbered (Text.afterLast '/' ref.toList))
    (h : MapValue env scope (pascal rawName) rawField (part env p) c t c') : c'.Suited good := by
  cases h with
  | reference _ hd => exact (compileReferenceValue_suits hc hd).1
  | listOfReference href harray hi _ hitem hlist =>
    refine refListWrapper_suits hc (fun hgood text htext => hlisted hgood text ?_) hlist
    have hne : text ≠ "" := by
      rintro rfl
      rw [htext] at hitem
      cases hitem
    exact Schema.itemReference?_eq_some_iff.2 ⟨href, harray, hne, _, hi, htext⟩
  | listOfObjects _ _ hi haction _ _ hlist =>
    obtain rfl := Option.some.inj ((part_items env hi).symm.trans haction)
    exact objectListWrapper_suits hat hc (fun hgood => (hname hgood).items hi) hfield
      (hp.items _ hi) hlist
  | list => exact hc.importing _
  | nested _ _ hd =>
    exact (hp.whole _ _ _ _ _ _ hat hc (fun hgood => (hname hgood).pascal) hd).1.importing _
  | value _ _ hd =>
    exact (hp.whole _ _ _ _ _ _ hat hc (fun hgood => (hname hgood).pascal) hd).1

theorem compileMap_suits {rawField : String} (hat : c.At scope) (hc : c.Suited good)
    (hname : good → NamesTypes rawName p) (hfield : good → Unnumbered rawField.toList)
    (hp : PartSuits env good p)
    (hlisted : good → ∀ ref, p.itemReference? = some ref →
      Unnumbered (Text.afterLast '/' ref.toList))
    (h : compileMap env scope (pascal rawName) rawField (part env p) c = .ok (t, c')) :
    c'.Suited good := by
  obtain ⟨value, c₁, hvalue, -, rfl⟩ := compileMap_ok h
  exact (compileMapValue_suits hat hc hname hfield hp hlisted hvalue).withNode (.of_nil rfl rfl)

/-! ### Messages -/

/-- A message in which something is compiled has a good name. -/
theorem hasInitial_scope {message : Nat} {outer : Scope} (hat : c.At (message :: outer))
    (houter : outer ≠ []) (hc : c.Suited good) (hgood : good) :
    HasInitial (c.graph.typeName (.node message)).toList := by
  obtain ⟨m, hm⟩ := hat.message rfl houter
  have hplain := hat.typeName_plain rfl houter
  have hname : c.graph.typeName (.node message) = m.name := Graph.typeName_of_ownName? hm rfl
  rw [hname] at hplain ⊢
  have hsuits := (hc.graph message _ hm).names m.name (List.mem_cons_self ..)
  exact hplain.isIdentifier_iff.1 (hsuits.identifier hgood)

theorem compilePropertyType_suits {message : Nat} {outer : Scope} {key : String}
    (hat : c.At (message :: outer)) (houter : outer ≠ []) (hc : c.Suited good)
    (hkey : good → HasInitial key.toList) (hs : PartSuits env good s)
    (h : compilePropertyType env (message :: outer) key (part env s) c = .ok (d, c')) :
    c'.Suited good ∧ d.Suited good := by
  have hname : ∀ s' : Schema, good → NamesTypes (key ++ "Message") s' := fun _ hgood =>
    .of_word (hkey hgood) (by decide)
  cases compilePropertyType_cases h with
  | several _ ht => exact ⟨compileMultiType_suits hc ht, trivial⟩
  | object _ hd => exact hs.whole _ _ _ _ _ _ hat hc (hname s) hd
  | array _ haction hd =>
    obtain ⟨i, hi, rfl⟩ :=
      Option.map_eq_some_iff.1 ((compileItems_eq_map env s).symm.trans haction)
    exact (hs.items i hi _ _ _ _ _ _ hat hc (hname i) hd).imp_right (·.mapType _)
  | named => exact ⟨hc, trivial⟩
  | unnamed _ _ _ _ hd =>
    exact (hs.whole _ _ _ _ _ _ hat hc (hname s) hd).imp_right (·.mapType _)
  | enumeration _ _ _ _ ht =>
    refine ⟨compileEnum_suits hc (fun hgood => ?_) ht, trivial⟩
    rw [String.append_assoc, String.toList_append]
    exact (hasInitial_scope hat houter hc hgood).append _

/-- A property gives its field a name with an initial. -/
theorem compileProperty_suits {message : Nat} {outer : Scope} {key : String}
    (hat : c.At (message :: outer)) (houter : outer ≠ []) (hc : c.Suited good)
    (hkey : good → HasInitial key.toList)
    (hgiven : good → s.protoName.NamesWell)
    (hs : PartSuits env good s) {field : CompiledProperty}
    (h : compileProperty env (message :: outer) key (part env s) c = .ok (field, c')) :
    c'.Suited good ∧ (good → HasInitial field.name.toList) := by
  obtain ⟨d, c₁, hd, rfl, hcases⟩ := compileProperty_cases h
  obtain ⟨hc₁, hnamed⟩ := compilePropertyType_suits hat houter hc hkey hs hd
  refine ⟨hc₁.declareHere _, ?_⟩
  rcases hcases with ⟨t, given, number, repeated, rfl, rfl⟩ | ⟨t, word, rfl, hword, rfl⟩
  · exact hnamed
  · split at hword
    · rw [hword]
      exact hkey
    · next hsome =>
      exact fun hgood => (hgiven hgood).word hword (Bool.eq_false_iff.2 hsome)

/-- So do all properties of an object. -/
theorem mapM_compileProperty_suits {message : Nat} {outer : Scope}
    {properties : List (String × Schema)} (hat : c.At (message :: outer)) (houter : outer ≠ [])
    (hc : c.Suited good) (hkeys : good → ∀ entry ∈ properties, HasInitial entry.1.toList)
    (hgiven : good → ∀ entry ∈ properties, entry.2.protoName.NamesWell)
    (hp : ∀ entry ∈ properties, PartSuits env good entry.2) {fields : List CompiledProperty}
    (h : ((partList env properties).mapM fun (key, p) =>
      within ("failed to compile property " ++ key)
        (compileProperty env (message :: outer) key p)) c = .ok (fields, c')) :
    c'.Suited good ∧ (good → ∀ field ∈ fields, HasInitial field.name.toList) := by
  induction properties generalizing c fields with
  | nil =>
    obtain ⟨rfl, rfl⟩ := Prod.mk.inj (Except.ok.inj h)
    exact ⟨hc, fun _ => nofun⟩
  | cons entry rest ih =>
    obtain ⟨key, s⟩ := entry
    rw [partList, List.mapM_cons] at h
    obtain ⟨field, c₁, hfield, h⟩ := bind_ok_iff.1 h
    obtain ⟨others, c₂, hrest, h⟩ := bind_ok_iff.1 h
    obtain ⟨rfl, rfl⟩ : field :: others = fields ∧ c₂ = c' := by simpa using h
    have hfield := within_ok_iff.1 hfield
    have hself : (key, s) ∈ (key, s) :: rest := List.mem_cons_self ..
    obtain ⟨hc₁, hinitial⟩ := compileProperty_suits hat houter hc (fun hgood => hkeys hgood _ hself)
      (fun hgood => hgiven hgood _ hself) (hp _ hself) hfield
    have hruns := compileProperty_runs ⟨compileSchema_runs env s, compileItems_runs env s⟩ hfield
    obtain ⟨hc₂, hinitials⟩ := ih (hruns.at hat) hc₁
      (fun hgood e he => hkeys hgood e (List.mem_cons_of_mem _ he))
      (fun hgood e he => hgiven hgood e (List.mem_cons_of_mem _ he))
      (fun e he => hp e (List.mem_cons_of_mem _ he)) hrest
    exact ⟨hc₂, fun hgood => List.forall_mem_cons.2 ⟨hinitial hgood, hinitials hgood⟩⟩

theorem compileMessage_suits {comment : Value} {properties : List (String × Schema)}
    (hat : c.At scope) (hc : c.Suited good) (hname : good → HasInitial rawName.toList)
    (hkeys : good → ∀ entry ∈ properties, HasInitial entry.1.toList)
    (hgiven : good → ∀ entry ∈ properties, entry.2.protoName.NamesWell)
    (hp : ∀ entry ∈ properties, PartSuits env good entry.2)
    (free : c.registry.lookup c.graph (pascal rawName) scope = none)
    (h : compileMessage env scope (pascal rawName) comment (partList env properties) c =
      .ok (d, c')) : c'.Suited good ∧ d.Suited good := by
  obtain ⟨rfl, compiled, c₁, numbers, c₂, hcompiled, -, hadd, rfl⟩ := compileMessage_ok h
  have hentered := hat.enter (pascal_plain rawName) comment free
  have hmessage : (Node.message ⟨pascal rawName, [], [], comment⟩).Suited good :=
    .message ((pascal_plain rawName).suits fun hgood => (hasInitial_pascal rawName).2 (hname hgood))
      nofun
  obtain ⟨hc₁, hinitials⟩ := mapM_compileProperty_suits hentered
    (List.ne_nil_of_mem hat.package_mem) (hc.withNode hmessage)
    (fun hgood e he => hkeys hgood e (mem_sortEntries.1 he))
    (fun hgood e he => hgiven hgood e (mem_sortEntries.1 he))
    (fun e he => hp e (mem_sortEntries.1 he)) hcompiled
  refine ⟨(hc₁.addFields (fun field hfield hgood => ?_) hadd).declareHere _, trivial⟩
  exact hinitials hgood _ (List.of_mem_zip hfield).1

/-! ### Schemas -/

theorem compileNew_suits {comment : Value} (hat : c.At scope) (hc : c.Suited good)
    (hname : good → NamesTypes rawName s) (hwell : good → s.WellNamed)
    (hitems : ∀ i, s.items = some i → ActionSuits good i (compileSchema env i))
    (hadditional : ∀ p, s.additional = some p → PartSuits env good p)
    (hp : ∀ entry ∈ s.properties, PartSuits env good entry.2)
    (free : c.registry.lookup c.graph (pascal rawName) scope = none)
    (h : compileNew env s scope rawName (pascal rawName) comment
      (s.items.map (compileSchema env)) (s.additional.map (part env)) (partList env s.properties) c =
      .ok (d, c')) : c'.Suited good ∧ d.Suited good := by
  cases compileNew_cases h with
  | several _ ht => exact ⟨compileMultiType_suits hc ht, trivial⟩
  | message _ _ hmessage =>
    exact compileMessage_suits hat hc (fun hgood => (hname hgood).initial)
      (fun hgood => (hwell hgood).self.keys) (fun hgood => (hwell hgood).self.given) hp free hmessage
  | struct => exact ⟨hc.importing _, trivial⟩
  | map _ hadd _ ht =>
    obtain ⟨p, hsome, rfl⟩ := Option.map_eq_some_iff.1 hadd
    refine ⟨compileMap_suits hat hc (fun hgood => (hname hgood).additional hsome)
      (fun hgood => unnumbered_withoutMessage (hname hgood).initial) (hadditional p hsome)
      (fun hgood ref href => (hwell hgood).self.listed ref ?_) ht, trivial⟩
    rw [Schema.listedReference?, hsome]
    exact href
  | parameters _ hi hd =>
    obtain ⟨i, hsome, rfl⟩ := Option.map_eq_some_iff.1 hi
    exact hitems i hsome _ _ _ _ _ _ hat hc (fun hgood => ((hname hgood).items hsome).pascal) hd
  | list _ hi hd =>
    obtain ⟨i, hsome, rfl⟩ := Option.map_eq_some_iff.1 hi
    have hc₁ := (hitems i hsome _ _ _ _ _ _ hat hc (fun hgood => ((hname hgood).items hsome).pascal) hd).1
    exact ⟨hc₁.declareHere _, trivial⟩
  | scalar => exact ⟨hc, trivial⟩
  | enumeration _ _ hlisted ht =>
    have hc₁ := compileEnum_suits hc (fun hgood => (hname hgood).enumName hlisted) ht
    exact ⟨hc₁.declareHere _, trivial⟩
  | null => exact ⟨hc, trivial⟩

theorem compileSchema_suits_of_parts (hwell : good → s.WellNamed)
    (hitems : ∀ i, s.items = some i → ActionSuits good i (compileSchema env i))
    (hadditional : ∀ p, s.additional = some p → PartSuits env good p)
    (hp : ∀ entry ∈ s.properties, PartSuits env good entry.2) :
    ActionSuits good s (compileSchema env s) := by
  intro scope rawName comment c d c' hat hc hname h
  rcases compileSchema_cases h with href | ⟨-, ⟨_, t, -, -, rfl, rfl⟩ | ⟨-, hfree, hnew⟩⟩
  · exact compileReferenceValue_suits hc (compileSchema_reference href h)
  · exact ⟨hc, trivial⟩
  · refine compileNew_suits hat hc (fun hgood => (hname hgood).mono fun hlists => ?_)
      (fun hgood => (hwell hgood).of_same s.denull_properties s.denull_items s.denull_additional)
      ?_ ?_ ?_ hfree hnew
    · rwa [Schema.listsValues_congr s.denull_choices s.denull_items s.denull_additional] at hlists
    · rwa [s.denull_items]
    · rwa [s.denull_additional]
    · rwa [s.denull_properties]

mutual

/-- All names that are made for a schema with good names are suitable. -/
theorem partSuits (env : Environment) : ∀ s : Schema,
    (good → s.WellNamed) → PartSuits env good s
  | ⟨ref, types, format, choices, description, properties, items, additional, tag, protoName⟩,
    hwell => by
    have hitems := option_suits env items fun i hi hgood => (hwell hgood).items hi
    have hadditional := option_suits env additional fun p hp hgood => (hwell hgood).additional hp
    have hproperties := list_suits env properties fun entry he hgood => (hwell hgood).property he
    exact ⟨compileSchema_suits_of_parts hwell (fun i hi => (hitems i hi).whole) hadditional
      hproperties, fun i hi => (hitems i hi).whole⟩
termination_by structural s => s

theorem option_suits (env : Environment) : ∀ o : Option Schema,
    (∀ s, o = some s → good → s.WellNamed) → ∀ s, o = some s → PartSuits env good s
  | some s, hwell, s', h => by
    have hs := partSuits env s (hwell s rfl)
    rwa [← Option.some.inj h]
termination_by structural o => o

theorem list_suits (env : Environment) : ∀ l : List (String × Schema),
    (∀ entry ∈ l, good → entry.2.WellNamed) → ∀ entry ∈ l, PartSuits env good entry.2
  | (key, s) :: rest, hwell, entry, h => by
    have hs := partSuits env s (hwell (key, s) (List.mem_cons_self ..))
    have hrest := list_suits env rest fun e he => hwell e (List.mem_cons_of_mem _ he)
    rcases List.mem_cons.1 h with rfl | h
    · exact hs
    · exact hrest entry h
termination_by structural l => l

end

/-- All names that are made for a schema with good names are suitable. -/
theorem compileSchema_suits (hwell : good → s.WellNamed) :
    ActionSuits good s (compileSchema env s) :=
  (partSuits env s hwell).whole

end ApiProto.Compile
