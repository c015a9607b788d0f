import ApiProto.Compile.Schema
import ApiProto.Document.SpecReader

/-!
# References in the other version

References to the same thing start differently in the two versions of the format. Exchanging the
starts turns the references of one version into those of the other one.

* `translateRef` — a reference in the other version.
* `translateRef_translateRef` — exchanging the starts twice changes nothing.
* `Schema.translated` — a schema with its references in the other version.
-/

namespace ApiProto.Document

open Text Proto

/-! ## References -/

/-- The starts of references to named schemas and to shared parameters, with those of the other
version. -/
def exchanges : List (String × String) := [
  (Version.swagger2.definitionsPrefix, Version.openapi3.definitionsPrefix),
  (Version.swagger2.parametersPrefix, Version.openapi3.parametersPrefix),
  (Version.openapi3.definitionsPrefix, Version.swagger2.definitionsPrefix),
  (Version.openapi3.parametersPrefix, Version.swagger2.parametersPrefix)]

/-- A reference in the other version. References of other kinds are the same in both. -/
def translateRef (ref : String) : String :=
  (exchanges.findSome? fun (start, other) =>
    (stringAfter? start ref).map fun name => other ++ name).getD ref

/-- A text that differs from `start` at the beginning does not start with it. -/
theorem dropStart?_eq_none : ∀ {start other : List Char} (rest : List Char),
    start.take other.length ≠ other.take start.length → dropStart? start (other ++ rest) = none
  | [], other, _, h => absurd (by simp) h
  | _ :: _, [], _, h => absurd (by simp) h
  | c :: start, d :: other, rest, h => by
    rw [List.cons_append, dropStart?]
    split
    · next hcd =>
      subst hcd
      exact dropStart?_eq_none rest fun heq => h (by simp [heq])
    · rfl

/-- The starts differ at the beginning. -/
theorem stringAfter?_of_ne {entry entry' : String × String} (h : entry ∈ exchanges)
    (h' : entry' ∈ exchanges) (hne : entry' ≠ entry) (name : String) :
    stringAfter? entry'.1 (entry.1 ++ name) = none := by
  have hdiffer : ∀ e ∈ exchanges, ∀ e' ∈ exchanges, e' = e ∨
      e'.1.toList.take e.1.toList.length ≠ e.1.toList.take e'.1.toList.length := by decide
  have htake := (hdiffer entry h entry' h').resolve_left hne
  rw [stringAfter?, String.toList_append, dropStart?_eq_none _ htake, Option.map_none]

theorem translateRef_append {start other : String} (h : (start, other) ∈ exchanges) (name : String) :
    translateRef (start ++ name) = other ++ name := by
  unfold translateRef
  rcases hmoved : exchanges.findSome? (fun (start', other') =>
      (stringAfter? start' (start ++ name)).map fun name => other' ++ name) with _ | moved
  · have hnone := List.findSome?_eq_none_iff.1 hmoved _ h
    dsimp only at hnone
    rw [stringAfter?_append] at hnone
    cases hnone
  · obtain ⟨⟨start', other'⟩, hmem, heq⟩ := List.exists_of_findSome?_eq_some hmoved
    dsimp only at heq
    by_cases hsame : (start', other') = (start, other)
    · obtain ⟨rfl, rfl⟩ := Prod.mk.inj hsame
      rw [stringAfter?_append] at heq
      rw [hmoved]
      exact (Option.some.inj heq).symm
    · rw [stringAfter?_of_ne h hmem hsame name] at heq
      cases heq

theorem mem_exchanges_symm {start other : String} (h : (start, other) ∈ exchanges) :
    (other, start) ∈ exchanges := by
  have hall : ∀ entry ∈ exchanges, (entry.2, entry.1) ∈ exchanges := by decide
  exact hall _ h

/-- A reference starts in one of the two ways, or is the same in both versions. -/
theorem translateRef_cases (ref : String) :
    (∃ start other name, (start, other) ∈ exchanges ∧ ref = start ++ name ∧
      translateRef ref = other ++ name) ∨ translateRef ref = ref := by
  rcases h : exchanges.findSome? (fun (start, other) =>
      (stringAfter? start ref).map fun name => other ++ name) with _ | moved
  · exact .inr (by rw [translateRef, h, Option.getD_none])
  · obtain ⟨⟨start, other⟩, hmem, heq⟩ := List.exists_of_findSome?_eq_some h
    obtain ⟨name, hname, rfl⟩ := Option.map_eq_some_iff.1 heq
    exact .inl ⟨start, other, name, hmem, eq_append_of_stringAfter? hname,
      by rw [translateRef, h, Option.getD_some]⟩

@[simp] theorem translateRef_translateRef (ref : String) : translateRef (translateRef ref) = ref := by
  rcases translateRef_cases ref with ⟨start, other, name, hmem, rfl, heq⟩ | heq
  · rw [heq, translateRef_append (mem_exchanges_symm hmem)]
  · rw [heq, heq]

theorem translateRef_injective : Function.Injective translateRef :=
  Function.LeftInverse.injective translateRef_translateRef

theorem translateRef_inj {ref ref' : String} : translateRef ref = translateRef ref' ↔ ref = ref' :=
  translateRef_injective.eq_iff

/-- What follows the start is the same in both versions. -/
theorem stringAfter?_translateRef {start other : String} (h : (start, other) ∈ exchanges)
    (ref : String) : stringAfter? other (translateRef ref) = stringAfter? start ref := by
  refine Option.ext fun name => ⟨fun hname => ?_, fun hname => ?_⟩
  · have href : ref = start ++ name := by
      rw [← translateRef_translateRef ref, eq_append_of_stringAfter? hname,
        translateRef_append (mem_exchanges_symm h)]
    rw [href, stringAfter?_append]
  · rw [eq_append_of_stringAfter? hname, translateRef_append h, stringAfter?_append]

theorem afterLast_append (c : Char) (before rest : List Char) :
    afterLast c (before ++ c :: rest) = afterLast c rest := by
  have hcut : ∃ before', cutLast c (before ++ c :: rest) = some (before', afterLast c rest) := by
    induction before with
    | nil =>
      rcases hrest : cutLast c rest with _ | ⟨a, b⟩ <;> simp [cutLast, afterLast, hrest]
    | cons d before ih =>
      obtain ⟨before', heq⟩ := ih
      exact ⟨d :: before', by simp [cutLast, heq]⟩
  obtain ⟨before', heq⟩ := hcut
  simp [afterLast, heq]

/-- The last part of a path is the same in both versions. -/
theorem afterLast_translateRef (ref : String) :
    afterLast '/' (translateRef ref).toList = afterLast '/' ref.toList := by
  have hstart : ∀ start other : String, (start, other) ∈ exchanges → ∀ name : String,
      afterLast '/' (start ++ name).toList = afterLast '/' name.toList := by
    intro start other hmem name
    have hslash : ∀ entry ∈ exchanges, entry.1.toList = entry.1.toList.dropLast ++ ['/'] := by
      decide
    rw [String.toList_append, hslash _ hmem, List.append_assoc]
    exact afterLast_append '/' _ name.toList
  rcases translateRef_cases ref with ⟨start, other, name, hmem, rfl, heq⟩ | heq
  · rw [heq, hstart start other hmem, hstart other start (mem_exchanges_symm hmem)]
  · rw [heq]

theorem isEmpty_translateRef (ref : String) : (translateRef ref).isEmpty = ref.isEmpty := by
  have hempty : translateRef "" = "" := by decide
  rw [Bool.eq_iff_iff, String.isEmpty_iff, String.isEmpty_iff]
  constructor
  · intro h
    exact translateRef_inj.1 (h.trans hempty.symm)
  · rintro rfl
    exact hempty

/-! ## Tables -/

section Tables

variable {α β : Type}

/-- In a table of which the keys are the same in both versions, a reference finds the same. -/
theorem lookup_translateRef {l : List (String × α)} (h : ∀ entry ∈ l, translateRef entry.1 = entry.1)
    (ref : String) : l.lookup (translateRef ref) = l.lookup ref := by
  induction l with
  | nil => rfl
  | cons entry rest ih =>
    obtain ⟨key, a⟩ := entry
    have hkey : translateRef key = key := h (key, a) (List.mem_cons_self ..)
    have hbeq : (translateRef ref == key) = (ref == key) := by
      rw [Bool.eq_iff_iff, beq_iff_eq, beq_iff_eq]
      constructor
      · intro heq
        rw [← translateRef_translateRef ref, heq, hkey]
      · rintro rfl
        exact hkey
    simp only [List.lookup_cons, hbeq, ih fun e he => h e (List.mem_cons_of_mem _ he)]

/-- Changing the values of a table changes what is found in it. -/
theorem lookup_mapValues (l : List (String × α)) (f : α → β) (key : String) :
    (l.map fun entry => (entry.1, f entry.2)).lookup key = (l.lookup key).map f := by
  induction l with
  | nil => rfl
  | cons entry rest ih =>
    rw [List.map_cons, List.lookup_cons, List.lookup_cons, ih]
    split <;> rfl

/-- In a table of which the keys are translated, a translated reference finds what the reference
found before. -/
theorem lookup_map_translateRef (l : List (String × α)) (f : α → β) (ref : String) :
    (l.map fun entry => (translateRef entry.1, f entry.2)).lookup (translateRef ref) =
      (l.lookup ref).map f := by
  induction l with
  | nil => rfl
  | cons entry rest ih =>
    have hbeq : (translateRef ref == translateRef entry.1) = (ref == entry.1) := by
      rw [Bool.eq_iff_iff, beq_iff_eq, beq_iff_eq, translateRef_inj]
    rw [List.map_cons, List.lookup_cons, List.lookup_cons, hbeq, ih]
    split <;> rfl

end Tables

theorem translateRef_known : ∀ entry ∈ knownDefinitions, translateRef entry.1 = entry.1 := by
  decide +kernel

theorem knownDefinition?_translateRef (ref : String) :
    knownDefinition? (translateRef ref) = knownDefinition? ref :=
  lookup_translateRef translateRef_known ref

theorem importOf?_translateRef (ref : String) : importOf? (translateRef ref) = importOf? ref :=
  lookup_translateRef (by decide +kernel) ref

/-! ## Schemas -/

/-- A reference, which should be a text, in the other version. -/
def translateValue : Value → Value
  | .text ref => .text (translateRef ref)
  | v => v

@[simp] theorem isEmpty_translateValue (v : Value) : (translateValue v).isEmpty = v.isEmpty := by
  cases v with
  | text ref => exact isEmpty_translateRef ref
  | _ => rfl

theorem textWith_translateValue (member : String) (v : Value) :
    (translateValue v).textWith member = (v.textWith member).map translateRef := by
  cases v <;> rfl

mutual

/-- A schema with all references in it in the other version. -/
def Schema.translated : Schema → Schema
  | ⟨ref, types, format, choices, description, properties, items, additional, tag, protoName⟩ =>
    ⟨translateValue ref, types, format, choices, description, translatedEntries properties,
      translatedOption items, translatedOption additional, tag, protoName⟩

def translatedOption : Option Schema → Option Schema
  | none => none
  | some s => some s.translated

def translatedEntries : List (String × Schema) → List (String × Schema)
  | [] => []
  | (key, s) :: rest => (key, s.translated) :: translatedEntries rest

end

/-- An entry with its schema translated. -/
def translateEntry (entry : String × Schema) : String × Schema := (entry.1, entry.2.translated)

theorem translatedOption_eq_map (o : Option Schema) : translatedOption o = o.map Schema.translated := by
  cases o <;> rfl

theorem translatedEntries_eq_map (l : List (String × Schema)) :
    translatedEntries l = l.map translateEntry := by
  induction l with
  | nil => rfl
  | cons entry rest ih => exact congrArg _ ih

namespace Schema

variable (s : Schema)

@[simp] theorem ref_translated : s.translated.ref = translateValue s.ref := by cases s; rfl
@[simp] theorem types_translated : s.translated.types = s.types := by cases s; rfl
@[simp] theorem format_translated : s.translated.format = s.format := by cases s; rfl
@[simp] theorem choices_translated : s.translated.choices = s.choices := by cases s; rfl
@[simp] theorem tag_translated : s.translated.tag = s.tag := by cases s; rfl
@[simp] theorem protoName_translated : s.translated.protoName = s.protoName := by cases s; rfl

@[simp] theorem description_translated : s.translated.description = s.description := by
  cases s
  rfl

@[simp] theorem properties_translated : s.translated.properties = s.properties.map translateEntry := by
  cases s
  exact translatedEntries_eq_map _

@[simp] theorem items_translated : s.translated.items = s.items.map Schema.translated := by
  cases s
  exact translatedOption_eq_map _

@[simp] theorem additional_translated :
    s.translated.additional = s.additional.map Schema.translated := by
  cases s
  exact translatedOption_eq_map _

@[simp] theorem firstType_translated : s.translated.firstType = s.firstType := by
  simp [firstType]

theorem denull_translated : s.translated.denull = s.denull.translated := by
  unfold denull
  rw [types_translated]
  split
  · rfl
  · split <;> cases s <;> rfl

end Schema

end ApiProto.Document
