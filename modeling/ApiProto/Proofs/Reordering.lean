import ApiProto.Document.Spec
import ApiProto.Sorting
import Mathlib.Data.List.Forall2
import Mathlib.Data.List.Nodup

/-!
# Reordered descriptions

Two descriptions that differ only in the order in which the entries of their tables were written.
The keys of a table are distinct, as those of an object are.

* `Reordered` — two tables with the same keys and related values.
* `Schema.Reordered`, `Spec.Reordered` — two schemas, and two descriptions, of which the tables are
  reordered at every depth.
* `Reordered.sortEntries` — reordered tables have the same keys in the same order once they are
  sorted.
* `Reordered.lookup` — a key finds related values in reordered tables.
* `Entrywise.collectEntries` — entries that are collected one by one give a reordered table.
-/

namespace ApiProto

variable {α β : Type}

/-! ## Tables -/

/-- Two entries with the same key and related values. -/
def EntryRel (R : α → α → Prop) (x y : String × α) : Prop := x.1 = y.1 ∧ R x.2 y.2

/-- Two tables with the same keys at the same places, under which stand related values. -/
inductive Entrywise (R : α → α → Prop) : List (String × α) → List (String × α) → Prop
  | nil : Entrywise R [] []
  | cons (key : String) {a b : α} {l l' : List (String × α)} :
      R a b → Entrywise R l l' → Entrywise R ((key, a) :: l) ((key, b) :: l')

/-- Two tables with the same keys, in any order, under which stand related values. No key occurs
twice: the first key of the second table stands at one place of the first table. -/
inductive Reordered (R : α → α → Prop) : List (String × α) → List (String × α) → Prop
  | nil : Reordered R [] []
  | cons (key : String) {a b : α} {before after l' : List (String × α)} :
      key ∉ (before ++ after).map (·.1) → R a b → Reordered R (before ++ after) l' →
      Reordered R (before ++ (key, a) :: after) ((key, b) :: l')

namespace Entrywise

variable {R : α → α → Prop} {l l' : List (String × α)}

theorem refl (hR : ∀ a, R a a) : ∀ l : List (String × α), Entrywise R l l
  | [] => .nil
  | (key, a) :: l => .cons key (hR a) (refl hR l)

theorem keys_eq (h : Entrywise R l l') : l.map (·.1) = l'.map (·.1) := by
  induction h with
  | nil => rfl
  | cons key _ _ ih => simp [ih]

theorem eq_of_eq {l l' : List (String × α)} (h : Entrywise Eq l l') : l = l' := by
  induction h with
  | nil => rfl
  | cons key hab _ ih => rw [hab, ih]

theorem forall₂ (h : Entrywise R l l') :
    List.Forall₂ (EntryRel R) l l' := by
  induction h with
  | nil => exact .nil
  | cons key hab _ ih => exact .cons ⟨rfl, hab⟩ ih

theorem of_forall₂ (h : List.Forall₂ (EntryRel R) l l') : Entrywise R l l' := by
  induction h with
  | nil => exact .nil
  | @cons x y _ _ hxy _ ih =>
    obtain ⟨key, a⟩ := x
    obtain ⟨key', b⟩ := y
    obtain ⟨rfl, hab⟩ := hxy
    exact .cons key hab ih

theorem lookup (h : Entrywise R l l') (key : String) :
    Option.Rel R (l.lookup key) (l'.lookup key) := by
  induction h with
  | nil => exact .none
  | cons k hab _ ih =>
    simp only [List.lookup_cons]
    split
    · exact .some hab
    · exact ih

theorem insertBy {a b : α} {key : String} (hab : R a b) (h : Entrywise R l l') :
    Entrywise R (insertBy (fun a b => a.1 ≤ b.1) (key, a) l)
      (ApiProto.insertBy (fun a b => a.1 ≤ b.1) (key, b) l') := by
  induction h with
  | nil => exact .cons key hab .nil
  | cons k hcd ht ih =>
    simp only [ApiProto.insertBy]
    split
    · exact .cons key hab (.cons k hcd ht)
    · exact .cons k hcd ih

theorem sortEntries (h : Entrywise R l l') : Entrywise R (sortEntries l) (sortEntries l') := by
  induction h with
  | nil => exact .nil
  | cons key hab _ ih => exact ih.insertBy hab

theorem insertEntry {a b : α} (key : String) (hab : R a b) (h : Entrywise R l l') :
    Entrywise R (insertEntry key a l) (ApiProto.insertEntry key b l') := by
  induction h with
  | nil => exact .cons key hab .nil
  | cons k hcd ht ih =>
    simp only [ApiProto.insertEntry]
    split
    · exact .cons key hab ht
    · exact .cons k hcd ih

theorem collectEntries (h : Entrywise R l l') :
    Entrywise R (collectEntries l) (collectEntries l') := by
  have hfold : ∀ {done done'}, Entrywise R done done' →
      Entrywise R (l.foldl (fun done entry => ApiProto.insertEntry entry.1 entry.2 done) done)
        (l'.foldl (fun done entry => ApiProto.insertEntry entry.1 entry.2 done) done') := by
    induction h with
    | nil => exact id
    | cons key hab _ ih => exact fun hdone => ih (hdone.insertEntry key hab)
  exact hfold .nil

end Entrywise

theorem mem_keys_insertEntry {key k : String} {a : α} {l : List (String × α)} :
    k ∈ (insertEntry key a l).map (·.1) ↔ k = key ∨ k ∈ l.map (·.1) := by
  induction l with
  | nil => simp [insertEntry]
  | cons entry rest ih =>
    simp only [insertEntry]
    split
    · next heq => simp [heq]
    · simp only [List.map_cons, List.mem_cons, ih]
      tauto

theorem nodup_keys_insertEntry {key : String} {a : α} {l : List (String × α)}
    (h : (l.map (·.1)).Nodup) : ((insertEntry key a l).map (·.1)).Nodup := by
  induction l with
  | nil => simp [insertEntry]
  | cons entry rest ih =>
    obtain ⟨hnot, hrest⟩ := List.nodup_cons.1 h
    simp only [insertEntry]
    split
    · next heq => exact List.nodup_cons.2 ⟨heq ▸ hnot, hrest⟩
    · next hne =>
      refine List.nodup_cons.2 ⟨fun hmem => ?_, ih hrest⟩
      rcases mem_keys_insertEntry.1 hmem with heq | hmem
      · exact hne heq
      · exact hnot hmem

/-- No key occurs twice in a collected table. -/
theorem nodup_keys_collectEntries (l : List (String × α)) :
    ((collectEntries l).map (·.1)).Nodup := by
  have hfold : ∀ done : List (String × α), (done.map (·.1)).Nodup →
      ((l.foldl (fun done entry => insertEntry entry.1 entry.2 done) done).map (·.1)).Nodup := by
    induction l with
    | nil => exact fun _ h => h
    | cons entry rest ih => exact fun _ h => ih _ (nodup_keys_insertEntry h)
  exact hfold [] List.nodup_nil

theorem nodup_keys_of_perm {l l' : List (String × α)} (h : l.Perm l') :
    (l.map (·.1)).Nodup ↔ (l'.map (·.1)).Nodup :=
  (h.map (·.1)).nodup_iff

/-- A key finds the same in a table that was written in another order. -/
theorem lookup_eq_of_perm {l l' : List (String × α)} (h : l.Perm l')
    (distinct : (l.map (·.1)).Nodup) (key : String) : l.lookup key = l'.lookup key := by
  induction h with
  | nil => rfl
  | cons x _ ih =>
    obtain ⟨k, a⟩ := x
    simp only [List.lookup_cons, ih (List.nodup_cons.1 distinct).2]
  | swap x y l =>
    obtain ⟨⟨k, a⟩, ⟨k', b⟩⟩ := x, y
    have hne : k' ≠ k := by
      intro heq
      simp [heq] at distinct
    simp only [List.lookup_cons]
    by_cases hk : key = k
    · simp [hk, beq_false_of_ne hne.symm]
    · simp [beq_false_of_ne hk]
  | trans h₁ _ ih₁ ih₂ =>
    exact (ih₁ distinct).trans (ih₂ ((nodup_keys_of_perm h₁).1 distinct))

namespace Reordered

variable {R : α → α → Prop} {l l' : List (String × α)}

theorem of_perm {mid : List (String × α)} (distinct : (l.map (·.1)).Nodup) (hperm : l.Perm mid)
    (h : Entrywise R mid l') : Reordered R l l' := by
  induction h generalizing l with
  | nil =>
    rw [hperm.eq_nil]
    exact .nil
  | @cons key a b m l' hab _ ih =>
    obtain ⟨before, after, rfl⟩ := List.append_of_mem (hperm.mem_iff.2 (List.mem_cons_self ..))
    have hrest := (List.perm_middle.symm.trans hperm).cons_inv
    obtain ⟨hnot, hnodup⟩ := List.nodup_cons.1 ((nodup_keys_of_perm List.perm_middle).1 distinct)
    exact .cons key hnot hab (ih hnodup hrest)

theorem of_entrywise (distinct : (l.map (·.1)).Nodup) (h : Entrywise R l l') : Reordered R l l' :=
  of_perm distinct (.refl l) h

theorem exists_perm (h : Reordered R l l') :
    (l.map (·.1)).Nodup ∧ ∃ mid, l.Perm mid ∧ Entrywise R mid l' := by
  induction h with
  | nil => exact ⟨List.nodup_nil, [], .refl _, .nil⟩
  | @cons key a b before after l' hnot hab _ ih =>
    obtain ⟨hnodup, mid, hperm, hmid⟩ := ih
    refine ⟨?_, (key, a) :: mid, List.perm_middle.trans (hperm.cons _), .cons key hab hmid⟩
    exact (nodup_keys_of_perm List.perm_middle).2 (List.nodup_cons.2 ⟨hnot, hnodup⟩)

theorem sortEntries (h : Reordered R l l') :
    Entrywise R (ApiProto.sortEntries l) (ApiProto.sortEntries l') := by
  obtain ⟨distinct, mid, hperm, hmid⟩ := h.exists_perm
  rw [sortEntries_eq_of_perm hperm distinct]
  exact hmid.sortEntries

theorem lookup (h : Reordered R l l') (key : String) :
    Option.Rel R (l.lookup key) (l'.lookup key) := by
  obtain ⟨distinct, mid, hperm, hmid⟩ := h.exists_perm
  rw [lookup_eq_of_perm hperm distinct]
  exact hmid.lookup key

/-- The keys of reordered tables are the same but for their order. -/
theorem keys_perm (h : Reordered R l l') : (l.map (·.1)).Perm (l'.map (·.1)) := by
  obtain ⟨-, mid, hperm, hmid⟩ := h.exists_perm
  exact hmid.keys_eq ▸ hperm.map (·.1)

theorem isEmpty_eq (h : Reordered R l l') : l'.isEmpty = l.isEmpty := by
  cases h <;> simp

end Reordered

namespace Document

/-! ## Schemas -/

/-- Two schemas that differ only in the order of properties, at any depth. -/
inductive Schema.Reordered : Schema → Schema → Prop
  | mk {s : Schema} {properties : List (String × Schema)} {items additional : Option Schema} :
      ApiProto.Reordered Schema.Reordered s.properties properties →
      Option.Rel Schema.Reordered s.items items →
      Option.Rel Schema.Reordered s.additional additional →
      Schema.Reordered s
        { s with properties := properties, items := items, additional := additional }

/-- Two parameters of which the schemas are reordered. -/
structure Parameter.Reordered (p p' : Parameter) : Prop where
  same : p' = { p with items := p'.items, schema := p'.schema }
  items : Option.Rel Schema.Reordered p.items p'.items
  schema : Option.Rel Schema.Reordered p.schema p'.schema

/-! ## Descriptions -/

/-- Two responses of which the schemas are reordered. -/
structure Response.Reordered (r r' : Response) : Prop where
  same : r' = { r with schema := r'.schema }
  schema : Option.Rel Schema.Reordered r.schema r'.schema

/-- Two operations that differ only in the order of responses, custom options and properties. -/
structure Endpoint.Reordered (e e' : Endpoint) : Prop where
  same : e' = { e with
    parameters := e'.parameters, responses := e'.responses, customOptions := e'.customOptions }
  parameters : List.Forall₂ Parameter.Reordered e.parameters e'.parameters
  responses : ApiProto.Reordered Response.Reordered e.responses e'.responses
  customOptions : ApiProto.Reordered Eq e.customOptions e'.customOptions

/-- Two paths of which the parameters and the operations are reordered. -/
structure PathItem.Reordered (i i' : PathItem) : Prop where
  parameters : List.Forall₂ Parameter.Reordered i.parameters i'.parameters
  endpoints : List.Forall₂ Endpoint.Reordered i.endpoints i'.endpoints

/-- Two descriptions that differ only in the order of the entries of their tables, at any depth. -/
structure Spec.Reordered (s s' : Spec) : Prop where
  same : s' = { s with
    definitions := s'.definitions, parameters := s'.parameters, paths := s'.paths
    globalOptions := s'.globalOptions }
  definitions : ApiProto.Reordered Schema.Reordered s.definitions s'.definitions
  parameters : ApiProto.Reordered Parameter.Reordered s.parameters s'.parameters
  paths : ApiProto.Reordered PathItem.Reordered s.paths s'.paths
  globalOptions : ApiProto.Reordered Eq s.globalOptions s'.globalOptions

namespace Schema.Reordered

variable {s s' : Schema}

theorem ref_eq (h : Schema.Reordered s s') : s'.ref = s.ref := by
  cases h
  rfl

theorem of_parts (same : s' = { s with
      properties := s'.properties, items := s'.items, additional := s'.additional })
    (hp : ApiProto.Reordered Schema.Reordered s.properties s'.properties)
    (hi : Option.Rel Schema.Reordered s.items s'.items)
    (ha : Option.Rel Schema.Reordered s.additional s'.additional) : Schema.Reordered s s' := by
  rw [same]
  exact .mk hp hi ha

end Schema.Reordered

end Document

end ApiProto
