/-!
# Sorting

* `sortBy` — a list in order. Items that are equal in the order keep their places.
* `sortEntries` — the entries of a table in the order of their keys.
* `sortBy_pairwise`, `sortBy_eq_self` — a list is in order once it is sorted, and a list in order
  stays as it is.
* `sortEntries_eq_of_perm` — the order in which a table was written does not matter.
-/

namespace ApiProto

/-- Puts an item into a sorted list, before the first item that it may stand before. -/
def insertBy {α : Type} (le : α → α → Bool) (a : α) : List α → List α
  | [] => [a]
  | b :: rest => if le a b then a :: b :: rest else b :: insertBy le a rest

/-- A list in order. -/
def sortBy {α : Type} (le : α → α → Bool) (l : List α) : List α := l.foldr (insertBy le) []

/-- The entries of a table in the order of their keys. -/
def sortEntries {α : Type} (entries : List (String × α)) : List (String × α) :=
  sortBy (fun a b => a.1 ≤ b.1) entries

theorem insertBy_perm {α : Type} (le : α → α → Bool) (a : α) (l : List α) :
    (insertBy le a l).Perm (a :: l) := by
  induction l with
  | nil => exact .refl _
  | cons b rest ih =>
    simp only [insertBy]
    split
    · exact .refl _
    · exact (ih.cons b).trans (.swap a b rest)

theorem sortBy_perm {α : Type} (le : α → α → Bool) (l : List α) : (sortBy le l).Perm l := by
  induction l with
  | nil => exact .refl _
  | cons a l ih => exact (insertBy_perm le a (sortBy le l)).trans (ih.cons a)

@[simp] theorem mem_sortBy {α : Type} {le : α → α → Bool} {a : α} {l : List α} :
    a ∈ sortBy le l ↔ a ∈ l :=
  (sortBy_perm le l).mem_iff

@[simp] theorem length_sortBy {α : Type} (le : α → α → Bool) (l : List α) :
    (sortBy le l).length = l.length :=
  (sortBy_perm le l).length_eq

@[simp] theorem mem_sortEntries {α : Type} {e : String × α} {l : List (String × α)} :
    e ∈ sortEntries l ↔ e ∈ l :=
  mem_sortBy

@[simp] theorem length_sortEntries {α : Type} (l : List (String × α)) :
    (sortEntries l).length = l.length :=
  length_sortBy _ l

/-! ## Lists in order -/

/-- Sorting goes along with a map that keeps the order. -/
theorem sortBy_map {α β : Type} {le : α → α → Bool} {le' : β → β → Bool} {f : α → β}
    (h : ∀ a b, le' (f a) (f b) = le a b) (l : List α) :
    sortBy le' (l.map f) = (sortBy le l).map f := by
  have hinsert : ∀ a l, insertBy le' (f a) (l.map f) = (insertBy le a l).map f := by
    intro a l
    induction l with
    | nil => rfl
    | cons b rest ih =>
      simp only [List.map_cons, insertBy, h, ih]
      split <;> rfl
  induction l with
  | nil => rfl
  | cons a rest ih =>
    show insertBy le' (f a) (sortBy le' (rest.map f)) = (insertBy le a (sortBy le rest)).map f
    rw [ih, hinsert]

theorem insertBy_pairwise {α : Type} {le : α → α → Bool}
    (trans : ∀ a b c, le a b = true → le b c = true → le a c = true)
    (total : ∀ a b, le a b = true ∨ le b a = true) (a : α) {l : List α}
    (h : l.Pairwise fun x y => le x y = true) :
    (insertBy le a l).Pairwise fun x y => le x y = true := by
  induction h with
  | nil => exact List.pairwise_singleton _ _
  | @cons b rest hb hrest ih =>
    simp only [insertBy]
    split
    · next hab =>
      refine List.pairwise_cons.2 ⟨fun c hc => ?_, List.pairwise_cons.2 ⟨hb, hrest⟩⟩
      rcases List.mem_cons.1 hc with rfl | hc
      · exact hab
      · exact trans _ _ _ hab (hb c hc)
    · next hab =>
      refine List.pairwise_cons.2 ⟨fun c hc => ?_, ih⟩
      rcases List.mem_cons.1 ((insertBy_perm le a rest).mem_iff.1 hc) with rfl | hc
      · exact (total c b).resolve_left hab
      · exact hb c hc

theorem sortBy_pairwise {α : Type} {le : α → α → Bool}
    (trans : ∀ a b c, le a b = true → le b c = true → le a c = true)
    (total : ∀ a b, le a b = true ∨ le b a = true) (l : List α) :
    (sortBy le l).Pairwise fun x y => le x y = true := by
  induction l with
  | nil => exact .nil
  | cons a rest ih => exact insertBy_pairwise trans total a ih

theorem sortBy_eq_self {α : Type} {le : α → α → Bool} {l : List α}
    (h : l.Pairwise fun x y => le x y = true) : sortBy le l = l := by
  induction h with
  | nil => rfl
  | @cons a rest ha _ ih =>
    show insertBy le a (sortBy le rest) = a :: rest
    rw [ih]
    cases rest with
    | nil => rfl
    | cons b rest =>
      have hab := ha b (List.mem_cons_self ..)
      simp [insertBy, hab]

/-- The order of keys. -/
theorem keyOrder_trans {α : Type} (a b c : String × α) (hab : decide (a.1 ≤ b.1) = true)
    (hbc : decide (b.1 ≤ c.1) = true) : decide (a.1 ≤ c.1) = true :=
  decide_eq_true (String.le_trans (of_decide_eq_true hab) (of_decide_eq_true hbc))

theorem keyOrder_total {α : Type} (a b : String × α) :
    decide (a.1 ≤ b.1) = true ∨ decide (b.1 ≤ a.1) = true := by
  simpa using String.le_total a.1 b.1

/-- A sorted table stays as it is. -/
@[simp] theorem sortEntries_sortEntries {α : Type} (l : List (String × α)) :
    sortEntries (sortEntries l) = sortEntries l :=
  sortBy_eq_self (sortBy_pairwise keyOrder_trans keyOrder_total l)

/-! ## Orders of writing -/

/-- Two items that cannot stand in either order may be put in one after the other either way. -/
theorem insertBy_comm {α : Type} {le : α → α → Bool}
    (trans : ∀ a b c, le a b = true → le b c = true → le a c = true)
    (total : ∀ a b, le a b = true ∨ le b a = true)
    {a b : α} (h : ¬(le a b = true ∧ le b a = true)) (l : List α) :
    insertBy le a (insertBy le b l) = insertBy le b (insertBy le a l) := by
  induction l with
  | nil =>
    rcases total a b with hab | hba
    · have hba : ¬le b a = true := fun hba => h ⟨hab, hba⟩
      simp [insertBy, hab, hba]
    · have hab : ¬le a b = true := fun hab => h ⟨hab, hba⟩
      simp [insertBy, hab, hba]
  | cons c rest ih =>
    -- What stands before `c` also stands before what does not.
    have crossed : ∀ {x y : α}, le x c = true → ¬le y c = true → le x y = true ∧ ¬le y x = true := by
      intro x y hx hy
      have hcy := (total y c).resolve_left hy
      exact ⟨trans _ _ _ hx hcy, fun hyx => hy (trans _ _ _ hyx hx)⟩
    by_cases ha : le a c = true <;> by_cases hb : le b c = true
    · rcases total a b with hab | hba
      · have hba : ¬le b a = true := fun hba => h ⟨hab, hba⟩
        simp [insertBy, ha, hb, hab, hba]
      · have hab : ¬le a b = true := fun hab => h ⟨hab, hba⟩
        simp [insertBy, ha, hb, hab, hba]
    · obtain ⟨hab, hba⟩ := crossed ha hb
      simp [insertBy, ha, hb, hba]
    · obtain ⟨hba, hab⟩ := crossed hb ha
      simp [insertBy, ha, hb, hab]
    · simp [insertBy, ha, hb, ih]

/-- Lists with the same items are the same once they are sorted, if no two items have the same
key. -/
theorem sortBy_eq_of_perm {α κ : Type} {le : α → α → Bool} {key : α → κ}
    (trans : ∀ a b c, le a b = true → le b c = true → le a c = true)
    (total : ∀ a b, le a b = true ∨ le b a = true)
    (antisymm : ∀ a b, le a b = true → le b a = true → key a = key b) {l l' : List α}
    (h : l.Perm l') (distinct : (l.map key).Nodup) : sortBy le l = sortBy le l' := by
  induction h with
  | nil => rfl
  | cons x _ ih =>
    have htail := ih (List.nodup_cons.1 distinct).2
    simp only [sortBy, List.foldr_cons] at htail ⊢
    rw [htail]
  | swap x y l =>
    have hne : key y ≠ key x := by
      intro heq
      simp [heq] at distinct
    exact insertBy_comm trans total (fun hle => hne (antisymm _ _ hle.1 hle.2)) (sortBy le l)
  | trans h₁ _ ih₁ ih₂ =>
    exact (ih₁ distinct).trans (ih₂ ((h₁.map key).nodup_iff.1 distinct))

/-- Lists with the same items are the same once they are sorted by a key that no two items share. -/
theorem sortByKey_eq_of_perm {α κ : Type} [LE κ] [DecidableLE κ] [Std.IsLinearOrder κ] {key : α → κ}
    {l l' : List α} (h : l.Perm l') (distinct : (l.map key).Nodup) :
    sortBy (fun a b => key a ≤ key b) l = sortBy (fun a b => key a ≤ key b) l' := by
  refine sortBy_eq_of_perm (fun _ _ _ hab hbc => decide_eq_true ?_) (fun a b => ?_)
    (fun _ _ hab hba => ?_) h distinct
  · exact Std.le_trans (of_decide_eq_true hab) (of_decide_eq_true hbc)
  · simpa using Std.le_total
  · exact Std.le_antisymm (of_decide_eq_true hab) (of_decide_eq_true hba)

/-- Tables with the same entries are the same once they are sorted, if no key occurs twice. -/
theorem sortEntries_eq_of_perm {α : Type} {l l' : List (String × α)} (h : l.Perm l')
    (distinct : (l.map (·.1)).Nodup) : sortEntries l = sortEntries l' :=
  sortByKey_eq_of_perm h distinct

end ApiProto
