import ApiProto.Proofs.Agreement
import ApiProto.Proofs.Requests
import ApiProto.Proofs.Settling
import Mathlib.Data.List.Nodup
import Mathlib.Data.List.Perm.Subperm

/-!
# Field numbers

Fields with a number of their own keep it. All others take the smallest numbers that are left, in the
order of their names. Numbers of their own must not be negative, and no two may be equal; nothing
else can go wrong, neither here nor when the fields are added to their message.

* `nextFree_spec`, `freeNumbers_increasing`, `mem_freeNumbers_of_lt` — the numbers that are left.
* `checkExplicit_checked` — what the check of given numbers finds.
* `NumbersFit` — the numbers that fields should have; `Numbering`, what becomes of their assignment.
* `numbering_of_assignNumbers`, `assignNumbers_alike` — the assignment of numbers, and that the order
  of fields does not matter for it.
* `compileMessage_of_numbers` — fields that have got their numbers can be added.
* `assignNumbers_correct` — all of this.
-/

namespace ApiProto.Proto

/-! ## Free numbers -/

section Free

variable {taken : List Int} {n k : Int}

/-- The search for a free number passes numbers that are taken, and ends at one that is not: among
the candidates there is one more than there are taken numbers. -/
theorem nextFree_spec (taken : List Int) (n : Int) :
    ∃ i : Nat, nextFree taken n = n + i ∧ nextFree taken n ∉ taken ∧
      ∀ j < i, n + (j : Int) ∈ taken := by
  unfold nextFree
  dsimp only
  generalize hcandidates :
    (List.range (taken.length + 1)).map (fun i : Nat => n + (i : Int)) = candidates
  rcases hfound : candidates.find? _ with _ | k
  · exfalso
    have hsubset : candidates ⊆ taken := fun k hk => by
      simpa using List.find?_eq_none.1 hfound k hk
    have hnodup : candidates.Nodup := by
      rw [← hcandidates]
      refine List.nodup_range.map fun i j heq => ?_
      have heq : n + (i : Int) = n + j := heq
      omega
    have hlength := (hnodup.subperm hsubset).length_le
    simp only [← hcandidates, List.length_map, List.length_range] at hlength
    omega
  · obtain ⟨hfree, i, hi, hget, hbefore⟩ := List.find?_eq_some_iff_getElem.1 hfound
    subst hcandidates
    refine ⟨i, by simpa using hget.symm, by simpa using hfree, fun j hj => ?_⟩
    simpa using hbefore j hj

theorem le_nextFree (taken : List Int) (n : Int) : n ≤ nextFree taken n := by
  obtain ⟨i, heq, -, -⟩ := nextFree_spec taken n
  omega

theorem nextFree_not_mem (taken : List Int) (n : Int) : nextFree taken n ∉ taken := by
  obtain ⟨_, -, hfree, -⟩ := nextFree_spec taken n
  exact hfree

theorem mem_of_lt_nextFree (hle : n ≤ k) (hlt : k < nextFree taken n) : k ∈ taken := by
  obtain ⟨i, heq, -, hbefore⟩ := nextFree_spec taken n
  obtain ⟨j, rfl⟩ := Int.le.dest hle
  exact hbefore j (by omega)

@[simp] theorem length_freeNumbers (taken : List Int) (count : Nat) (n : Int) :
    (freeNumbers taken count n).length = count := by
  induction count generalizing n with
  | zero => rfl
  | succ count ih => simp [freeNumbers, ih]

theorem le_of_mem_freeNumbers {count : Nat} (h : k ∈ freeNumbers taken count n) : n ≤ k := by
  induction count generalizing n with
  | zero => cases h
  | succ count ih =>
    have hle := le_nextFree taken n
    rcases List.mem_cons.1 h with rfl | h
    · exact hle
    · have := ih h
      omega

theorem not_mem_of_mem_freeNumbers {count : Nat} (h : k ∈ freeNumbers taken count n) :
    k ∉ taken := by
  induction count generalizing n with
  | zero => cases h
  | succ count ih =>
    rcases List.mem_cons.1 h with rfl | h
    · exact nextFree_not_mem taken n
    · exact ih h

theorem freeNumbers_increasing (taken : List Int) (count : Nat) (n : Int) :
    (freeNumbers taken count n).Pairwise (· < ·) := by
  induction count generalizing n with
  | zero => exact .nil
  | succ count ih =>
    refine List.pairwise_cons.2 ⟨fun k hk => ?_, ih _⟩
    have := le_of_mem_freeNumbers hk
    omega

/-- No free number is left out. -/
theorem mem_freeNumbers_of_lt {count : Nat} {last : Int}
    (hlast : last ∈ freeNumbers taken count n) (hle : n ≤ k) (hlt : k < last) (hfree : k ∉ taken) :
    k ∈ freeNumbers taken count n := by
  induction count generalizing n with
  | zero => cases hlast
  | succ count ih =>
    have hnext : nextFree taken n ≤ k :=
      Int.not_lt.1 fun hbefore => hfree (mem_of_lt_nextFree hle hbefore)
    rcases Int.lt_or_eq_of_le hnext with hafter | heq
    · rcases List.mem_cons.1 hlast with rfl | hlast
      · omega
      · exact List.mem_cons_of_mem _ (ih hlast (by omega))
    · exact heq ▸ List.mem_cons_self ..

end Free

/-! ## Given numbers -/

/-- What the check of given numbers finds in a list of entries. -/
inductive Checked (message : String) (l : List Numbered) : Except Error Unit → Prop
  | distinct : (∀ e ∈ l, 0 ≤ e.1.2) → (l.Pairwise fun a b => a.1.2 < b.1.2) →
      Checked message l (.ok ())
  | negative (e : Numbered) : e ∈ l → e.1.2 < 0 →
      Checked message l (fail (.negativeNumber message e.1.1 e.1.2))
  | duplicate (a b : Numbered) : (∀ e ∈ l, 0 ≤ e.1.2) → [a, b].Sublist l → a.1.2 = b.1.2 →
      Checked message l (fail (.duplicateNumber message b.1.2 [a.1.1, b.1.1]))

/-- A smaller number in front that is not negative changes nothing. -/
theorem Checked.cons {message : String} {b : Numbered} {l : List Numbered}
    {result : Except Error Unit} (h : Checked message l result) (hb : 0 ≤ b.1.2)
    (hlt : ∀ e ∈ l, b.1.2 < e.1.2) : Checked message (b :: l) result := by
  have hall (hl : ∀ e ∈ l, 0 ≤ e.1.2) : ∀ e ∈ b :: l, 0 ≤ e.1.2 := List.forall_mem_cons.2 ⟨hb, hl⟩
  cases h with
  | distinct hl hpairs => exact .distinct (hall hl) (List.pairwise_cons.2 ⟨hlt, hpairs⟩)
  | negative e he hneg => exact .negative e (List.mem_cons_of_mem _ he) hneg
  | duplicate a a' hl hsub heq => exact .duplicate a a' (hall hl) (hsub.cons b) heq

/-- In a list that is in the order of the numbers, negative ones come first, and equal ones are
neighbours. `before` is an entry that has been checked. -/
theorem checkExplicit_checked (message : String) (before : Option Numbered) {l : List Numbered}
    (sorted : (before.toList ++ l).Pairwise fun a b => a.1.2 ≤ b.1.2)
    (hbefore : ∀ b ∈ before, 0 ≤ b.1.2) :
    Checked message (before.toList ++ l) (checkExplicit message (before.map (·.1)) l) := by
  induction l generalizing before with
  | nil =>
    cases before with
    | none => exact .distinct (fun e he => nomatch he) .nil
    | some b =>
      exact .distinct (fun e he => hbefore e (List.mem_singleton.1 he ▸ rfl))
        (List.pairwise_singleton _ b)
  | cons e rest ih =>
    obtain ⟨⟨name, number⟩, position⟩ := e
    have htail := (List.pairwise_append.1 sorted).2.1
    have hrest := (List.pairwise_cons.1 htail).1
    unfold checkExplicit
    split
    · next hneg =>
      exact .negative ((name, number), position) (List.mem_append_right _ (List.mem_cons_self ..)) hneg
    · next hnonneg =>
      have hnonneg := Int.not_lt.1 hnonneg
      have ih := ih (some ((name, number), position)) htail
        fun b hb => Option.some.inj hb ▸ hnonneg
      cases before with
      | none => exact ih
      | some b =>
        have hle : b.1.2 ≤ number := (List.pairwise_cons.1 sorted).1 _ (List.mem_cons_self ..)
        have hb := hbefore b rfl
        dsimp only [Option.map_some]
        split
        · next heq =>
          refine .duplicate b ((name, number), position) (fun a ha => ?_)
            (.cons_cons b (.cons_cons _ (List.nil_sublist rest))) heq
          rcases List.mem_cons.1 ha with rfl | ha
          · exact hb
          · exact Int.le_trans hb ((List.pairwise_cons.1 sorted).1 a ha)
        · next hne =>
          have hlt : b.1.2 < number := Int.lt_iff_le_and_ne.2 ⟨hle, hne⟩
          refine ih.cons hb fun a ha => ?_
          rcases List.mem_cons.1 ha with rfl | ha
          · exact hlt
          · exact Int.lt_of_lt_of_le hlt (hrest a ha)

/-! ## The orders of entries -/

/-- An order by a key, and by another order where keys are equal. -/
theorem lexicographic_trans {α κ : Type} [LT κ] [LE κ] [DecidableEq κ] [DecidableLT κ]
    [Std.IsLinearOrder κ] [Std.LawfulOrderLT κ] (key : α → κ) (le : α → α → Bool)
    (trans : ∀ a b c, le a b = true → le b c = true → le a c = true) (a b c : α)
    (hab : (if key a ≠ key b then decide (key a < key b) else le a b) = true)
    (hbc : (if key b ≠ key c then decide (key b < key c) else le b c) = true) :
    (if key a ≠ key c then decide (key a < key c) else le a c) = true := by
  by_cases hab' : key a = key b
  · by_cases hbc' : key b = key c
    · simp [hab', hbc'] at hab hbc ⊢
      exact trans a b c hab hbc
    · simpa [hab', hbc'] using hbc
  · by_cases hbc' : key b = key c
    · simpa [← hbc', hab'] using hab
    · simp [hab', hbc'] at hab hbc
      have hac := Std.lt_trans hab hbc
      have hne : key a ≠ key c := fun heq => Std.lt_irrefl (heq ▸ hac)
      simpa [hne] using hac

theorem lexicographic_total {α κ : Type} [LT κ] [LE κ] [DecidableEq κ] [DecidableLT κ]
    [Std.IsLinearOrder κ] [Std.LawfulOrderLT κ] (key : α → κ) (le : α → α → Bool)
    (total : ∀ a b, le a b = true ∨ le b a = true) (a b : α) :
    (if key a ≠ key b then decide (key a < key b) else le a b) = true ∨
      (if key b ≠ key a then decide (key b < key a) else le b a) = true := by
  by_cases heq : key a = key b
  · simpa [heq] using total a b
  · have hne : key b ≠ key a := fun h => heq h.symm
    have hlt : key a < key b ∨ key b < key a := by
      rcases Std.lt_trichotomy (key a) (key b) with hlt | hkey | hlt
      · exact .inl hlt
      · exact absurd hkey heq
      · exact .inr hlt
    simpa [heq, hne] using hlt

theorem nameOrder_trans (a b c : Numbered) (hab : nameOrder a b = true)
    (hbc : nameOrder b c = true) : nameOrder a c = true :=
  lexicographic_trans (fun e : Numbered => e.1.1) (fun a b => decide (a.2 ≤ b.2))
    (fun _ _ _ h h' => decide_eq_true (Nat.le_trans (of_decide_eq_true h) (of_decide_eq_true h')))
    a b c hab hbc

theorem nameOrder_total (a b : Numbered) : nameOrder a b = true ∨ nameOrder b a = true :=
  lexicographic_total (fun e : Numbered => e.1.1) (fun a b => decide (a.2 ≤ b.2))
    (fun a b => by simpa using Nat.le_total a.2 b.2) a b

theorem explicitOrder_trans (a b c : Numbered) (hab : explicitOrder a b = true)
    (hbc : explicitOrder b c = true) : explicitOrder a c = true :=
  lexicographic_trans (fun e : Numbered => e.1.2) nameOrder nameOrder_trans a b c
    hab hbc

theorem explicitOrder_total (a b : Numbered) :
    explicitOrder a b = true ∨ explicitOrder b a = true :=
  lexicographic_total (fun e : Numbered => e.1.2) nameOrder nameOrder_total a b

/-! ## Entries -/

section Entries

variable {fields fields' : List (String × Int)}

/-- The fields with a number of their own, in the order of these numbers. -/
def explicitEntries (fields : List (String × Int)) : List Numbered :=
  sortBy explicitOrder (fields.zipIdx.filter fun e => e.1.2 ≠ 0)

/-- The fields without a number, in the order of their names. -/
def unnumberedEntries (fields : List (String × Int)) : List Numbered :=
  sortBy nameOrder (fields.zipIdx.filter fun e => e.1.2 = 0)

/-- The numbers for the fields without one. -/
def givenNumbers (fields : List (String × Int)) : List Int :=
  freeNumbers ((explicitEntries fields).map (·.1.2)) (unnumberedEntries fields).length 1

/-- The number of a field in the end. -/
def numberOf (fields : List (String × Int)) (e : Numbered) : Int :=
  if e.1.2 = 0 then
    ((((unnumberedEntries fields).map (·.2)).zip (givenNumbers fields)).lookup e.2).getD 0
  else e.1.2

theorem assignNumbers_eq (message : String) (fields : List (String × Int)) :
    assignNumbers message fields = (checkExplicit message none (explicitEntries fields)).map
      fun _ => fields.zipIdx.map (numberOf fields) := by
  unfold assignNumbers
  dsimp only
  rw [← explicitEntries]
  rcases checkExplicit message none (explicitEntries fields) with e | ⟨⟩ <;> rfl

theorem mem_explicitEntries {e : Numbered} :
    e ∈ explicitEntries fields ↔ fields[e.2]? = some e.1 ∧ e.1.2 ≠ 0 := by
  simp [explicitEntries, List.mem_zipIdx_iff_getElem?]

theorem mem_unnumberedEntries {e : Numbered} :
    e ∈ unnumberedEntries fields ↔ fields[e.2]? = some e.1 ∧ e.1.2 = 0 := by
  simp [unnumberedEntries, List.mem_zipIdx_iff_getElem?]

theorem explicitEntries_pairwise (fields : List (String × Int)) :
    (explicitEntries fields).Pairwise fun a b => explicitOrder a b = true :=
  sortBy_pairwise explicitOrder_trans explicitOrder_total _

theorem unnumberedEntries_pairwise (fields : List (String × Int)) :
    (unnumberedEntries fields).Pairwise fun a b => nameOrder a b = true :=
  sortBy_pairwise nameOrder_trans nameOrder_total _

/-- Every field is in one of the two lists. -/
theorem entries_perm (fields : List (String × Int)) :
    (explicitEntries fields ++ unnumberedEntries fields).Perm fields.zipIdx := by
  refine ((sortBy_perm _ _).append (sortBy_perm _ _)).trans ?_
  have hsplit := List.filter_append_perm (fun e : Numbered => decide (e.1.2 ≠ 0)) fields.zipIdx
  simpa using hsplit

/-- No field is in one of the lists twice. -/
theorem nodup_positions (le : Numbered → Numbered → Bool) (p : Numbered → Bool) :
    ((sortBy le (fields.zipIdx.filter p)).map (·.2)).Nodup := by
  have hall : (fields.zipIdx.map (·.2)).Nodup := by
    rw [List.zipIdx_map_snd]
    exact List.nodup_range'
  have hfilter := (List.filter_sublist (p := p) (l := fields.zipIdx)).map (·.2)
  exact (((sortBy_perm le _).map (·.2)).nodup_iff).2 (hall.sublist hfilter)

/-- Keys that differ find the values beside them. -/
theorem map_lookup_zip {α β : Type} [BEq α] [LawfulBEq α] (d : β) {keys : List α} {values : List β}
    (distinct : keys.Nodup) (hlength : values.length = keys.length) :
    keys.map (fun k => ((keys.zip values).lookup k).getD d) = values := by
  induction keys generalizing values with
  | nil => exact (List.length_eq_zero_iff.1 hlength).symm
  | cons key keys ih =>
    obtain ⟨v, values, rfl⟩ := List.exists_cons_of_length_eq_add_one hlength
    obtain ⟨hkey, hkeys⟩ := List.nodup_cons.1 distinct
    have htail := ih hkeys (Nat.succ.inj hlength)
    have hskip : ∀ k ∈ keys, (((key :: keys).zip (v :: values)).lookup k).getD d =
        ((keys.zip values).lookup k).getD d := by
      intro k hk
      have hne : k ≠ key := fun heq => hkey (heq ▸ hk)
      rw [List.zip_cons_cons, List.lookup_cons, beq_false_of_ne hne]
    rw [List.map_cons, List.map_congr_left hskip, htail, List.zip_cons_cons, List.lookup_cons_self]
    rfl

/-- The fields without a number get the free numbers one after the other. -/
theorem map_numberOf_unnumbered (fields : List (String × Int)) :
    (unnumberedEntries fields).map (numberOf fields) = givenNumbers fields := by
  have hlength : (givenNumbers fields).length = ((unnumberedEntries fields).map (·.2)).length := by
    simp [givenNumbers]
  rw [← map_lookup_zip 0 (nodup_positions _ _) hlength, List.map_map]
  refine List.map_congr_left fun e he => ?_
  rw [numberOf, if_pos (mem_unnumberedEntries.1 he).2]
  rfl

theorem map_numberOf_explicit (fields : List (String × Int)) :
    (explicitEntries fields).map (numberOf fields) = (explicitEntries fields).map (·.1.2) :=
  List.map_congr_left fun _ he => if_neg (mem_explicitEntries.1 he).2

theorem getElem?_numberOf (fields : List (String × Int)) (i : Nat) :
    (fields.zipIdx.map (numberOf fields))[i]? = fields[i]?.map fun f => numberOf fields (f, i) := by
  simp [List.getElem?_zipIdx, Option.map_map, Function.comp_def]

end Entries

/-! ## Numbers that fit -/

/-- The numbers that fields should have. The place of a field in the list counts only among fields
of one name. -/
structure NumbersFit (fields : List (String × Int)) (numbers : List Int) : Prop where
  length : numbers.length = fields.length
  kept : ∀ (i : Nat) name number, fields[i]? = some (name, number) → number ≠ 0 →
    numbers[i]? = some number
  positive : ∀ n ∈ numbers, 1 ≤ n
  distinct : numbers.Nodup
  ordered : ∀ (i j : Nat) name name' n n', fields[i]? = some (name, 0) → fields[j]? = some (name', 0) →
    name < name' ∨ name = name' ∧ i < j → numbers[i]? = some n → numbers[j]? = some n' → n < n'
  /-- A smaller number that no field has of its own is given to another field without one. -/
  smallest : ∀ (i : Nat) name n k, fields[i]? = some (name, 0) → numbers[i]? = some n → 1 ≤ k → k < n →
    k ∉ fields.map (·.2) → ∃ (j : Nat) (name' : String), fields[j]? = some (name', 0) ∧ numbers[j]? = some k

/-- What becomes of the assignment of numbers. -/
inductive Numbering (message : String) (fields : List (String × Int)) :
    Except Error (List Int) → Prop
  | assigned {numbers : List Int} : (∀ f ∈ fields, 0 ≤ f.2) →
      (∀ (i j : Nat) name name' number, fields[i]? = some (name, number) →
        fields[j]? = some (name', number) → number ≠ 0 → i = j) →
      NumbersFit fields numbers → Numbering message fields (.ok numbers)
  | negative (name : String) (number : Int) : (name, number) ∈ fields → number < 0 →
      Numbering message fields (fail (.negativeNumber message name number))
  | duplicate (i j : Nat) (name name' : String) (number : Int) : (∀ f ∈ fields, 0 ≤ f.2) →
      i ≠ j → fields[i]? = some (name, number) → fields[j]? = some (name', number) → number ≠ 0 →
      Numbering message fields (fail (.duplicateNumber message number [name, name']))

section Numbering

variable {fields fields' : List (String × Int)}

theorem numbers_perm (fields : List (String × Int)) :
    (fields.zipIdx.map (numberOf fields)).Perm
      ((explicitEntries fields).map (·.1.2) ++ givenNumbers fields) := by
  rw [← map_numberOf_unnumbered, ← map_numberOf_explicit, ← List.map_append]
  exact ((entries_perm fields).map _).symm

/-- Fields without a number get theirs in the order of the names. -/
theorem numberOf_lt {e e' : Numbered} (he : e ∈ unnumberedEntries fields)
    (he' : e' ∈ unnumberedEntries fields) (hbefore : ¬ nameOrder e' e = true) :
    numberOf fields e < numberOf fields e' := by
  have hincreasing : (unnumberedEntries fields).Pairwise fun a b =>
      numberOf fields a < numberOf fields b := by
    rw [← List.pairwise_map (R := (· < ·)), map_numberOf_unnumbered]
    exact freeNumbers_increasing _ _ _
  -- of two fields, the one whose name comes first has the smaller number, wherever they stand
  have hpairs : (unnumberedEntries fields).Pairwise fun a b =>
      nameOrder a b = true ∧ numberOf fields a < numberOf fields b ∨
        nameOrder b a = true ∧ numberOf fields b < numberOf fields a :=
    ((unnumberedEntries_pairwise fields).and hincreasing).imp Or.inl
  have hne : e ≠ e' := by
    rintro rfl
    exact hbefore ((nameOrder_total e e).elim id id)
  have : Std.Symm fun a b : Numbered => nameOrder a b = true ∧ numberOf fields a < numberOf fields b ∨
      nameOrder b a = true ∧ numberOf fields b < numberOf fields a := ⟨fun _ _ => Or.symm⟩
  rcases hpairs.forall he he' hne with ⟨-, hlt⟩ | ⟨horder, -⟩
  · exact hlt
  · exact absurd horder hbefore

/-- The numbers fit if those that are given differ and are not negative. -/
theorem numbersFit (hnonneg : ∀ e ∈ explicitEntries fields, 0 ≤ e.1.2)
    (hdistinct : (explicitEntries fields).Pairwise fun a b => a.1.2 < b.1.2) :
    NumbersFit fields (fields.zipIdx.map (numberOf fields)) where
  length := by simp
  kept i name number hi hnumber := by
    rw [getElem?_numberOf, hi, Option.map_some, numberOf, if_neg hnumber]
  positive n hn := by
    rcases List.mem_append.1 ((numbers_perm fields).mem_iff.1 hn) with hn | hn
    · obtain ⟨e, he, rfl⟩ := List.mem_map.1 hn
      have hpos := hnonneg e he
      have hne := (mem_explicitEntries.1 he).2
      omega
    · exact le_of_mem_freeNumbers hn
  distinct := by
    refine (numbers_perm fields).nodup_iff.2 (List.nodup_append'.2 ⟨?_, ?_, ?_⟩)
    · exact List.pairwise_map.2 (hdistinct.imp Int.ne_of_lt)
    · exact (freeNumbers_increasing _ _ _).imp Int.ne_of_lt
    · exact fun n hn hfree => not_mem_of_mem_freeNumbers hfree hn
  ordered i j name name' n n' hi hj hbefore hn hn' := by
    rw [getElem?_numberOf, hi] at hn
    rw [getElem?_numberOf, hj] at hn'
    obtain rfl := Option.some.inj hn
    obtain rfl := Option.some.inj hn'
    refine numberOf_lt (mem_unnumberedEntries.2 ⟨hi, rfl⟩) (mem_unnumberedEntries.2 ⟨hj, rfl⟩) ?_
    rcases hbefore with hlt | ⟨rfl, hlt⟩
    · have hne : name' ≠ name := fun heq => String.lt_irrefl _ (heq ▸ hlt)
      simpa [nameOrder, hne] using Std.not_lt_of_ge (Std.le_of_lt hlt)
    · simpa [nameOrder] using hlt
  smallest i name n k hi hn hpos hlt hfree := by
    rw [getElem?_numberOf, hi] at hn
    obtain rfl := Option.some.inj hn
    have he : ((name, 0), i) ∈ unnumberedEntries fields := mem_unnumberedEntries.2 ⟨hi, rfl⟩
    have hlast := List.mem_map_of_mem (f := numberOf fields) he
    rw [map_numberOf_unnumbered] at hlast
    have hk : k ∈ givenNumbers fields := by
      refine mem_freeNumbers_of_lt hlast hpos hlt fun hmem => hfree ?_
      obtain ⟨e, he, rfl⟩ := List.mem_map.1 hmem
      exact List.mem_map_of_mem (List.mem_of_getElem? (mem_explicitEntries.1 he).1)
    rw [← map_numberOf_unnumbered] at hk
    obtain ⟨⟨⟨name', number⟩, j⟩, he', rfl⟩ := List.mem_map.1 hk
    obtain ⟨hj, rfl⟩ := mem_unnumberedEntries.1 he'
    refine ⟨j, name', hj, ?_⟩
    rw [getElem?_numberOf, hj]
    rfl

/-- Numbers are assigned unless some number that is given is negative, or given twice. -/
theorem numbering_of_assignNumbers (message : String) (fields : List (String × Int)) :
    Numbering message fields (assignNumbers message fields) := by
  have hsorted : (explicitEntries fields).Pairwise fun a b => a.1.2 ≤ b.1.2 := by
    refine (explicitEntries_pairwise fields).imp fun {a b} horder => ?_
    rcases Decidable.em (a.1.2 = b.1.2) with heq | hne
    · exact Int.le_of_eq heq
    · rw [explicitOrder, if_pos hne] at horder
      exact Int.le_of_lt (of_decide_eq_true horder)
  have hchecked : Checked message (explicitEntries fields)
      (checkExplicit message none (explicitEntries fields)) :=
    checkExplicit_checked message none hsorted fun b hb => nomatch hb
  -- a field without a number of its own has zero, which is not negative
  have hall (h : ∀ e ∈ explicitEntries fields, 0 ≤ e.1.2) : ∀ f ∈ fields, 0 ≤ f.2 := by
    intro f hf
    obtain ⟨i, hi⟩ := List.mem_iff_getElem?.1 hf
    rcases Decidable.em (f.2 = 0) with hzero | hne
    · exact Int.le_of_eq hzero.symm
    · exact h (f, i) (mem_explicitEntries.2 ⟨hi, hne⟩)
  rw [assignNumbers_eq]
  generalize checkExplicit message none (explicitEntries fields) = result at hchecked
  cases hchecked with
  | distinct hnonneg hlt =>
    refine .assigned (hall hnonneg) (fun i j name name' number hi hj hnumber => ?_)
      (numbersFit hnonneg hlt)
    have hnodup : ((explicitEntries fields).map (·.1.2)).Nodup :=
      List.pairwise_map.2 (hlt.imp Int.ne_of_lt)
    have he : ((name, number), i) ∈ explicitEntries fields := mem_explicitEntries.2 ⟨hi, hnumber⟩
    have he' : ((name', number), j) ∈ explicitEntries fields := mem_explicitEntries.2 ⟨hj, hnumber⟩
    exact congrArg Prod.snd (List.inj_on_of_nodup_map hnodup he he' rfl)
  | negative e he hneg =>
    exact .negative e.1.1 e.1.2 (List.mem_of_getElem? (mem_explicitEntries.1 he).1) hneg
  | duplicate a b hnonneg hsub heq =>
    obtain ⟨ha, hne⟩ := mem_explicitEntries.1 (hsub.subset (List.mem_cons_self ..))
    obtain ⟨hb, -⟩ := mem_explicitEntries.1
      (hsub.subset (List.mem_cons_of_mem _ (List.mem_cons_self ..)))
    have hpositions := (hsub.map (·.2)).nodup (nodup_positions _ _)
    have hdiffer : a.2 ≠ b.2 := by simpa using hpositions
    exact .duplicate a.2 b.2 a.1.1 b.1.1 b.1.2 (hall hnonneg) hdiffer (heq ▸ ha) hb (heq ▸ hne)

/-! ### The order of fields -/

/-- The check looks at names and numbers only. -/
theorem checkExplicit_congr (message : String) (last : Option (String × Int))
    {l l' : List Numbered} (h : l.map (·.1) = l'.map (·.1)) :
    checkExplicit message last l = checkExplicit message last l' := by
  induction l generalizing l' last with
  | nil =>
    obtain rfl := List.map_eq_nil_iff.1 h.symm
    rfl
  | cons e rest ih =>
    obtain ⟨e', rest', rfl, he, hrest⟩ := List.map_eq_cons_iff.1 h.symm
    obtain ⟨f, i⟩ := e
    obtain ⟨f', i'⟩ := e'
    obtain rfl : f' = f := he
    unfold checkExplicit
    simp only [ih _ hrest.symm]

/-- The order of fields by number and name, without regard to their places. -/
def InFieldOrder (f f' : String × Int) : Prop := f.2 < f'.2 ∨ f.2 = f'.2 ∧ f.1 ≤ f'.1

theorem InFieldOrder.antisymm {f f' : String × Int} (h : InFieldOrder f f')
    (h' : InFieldOrder f' f) : f = f' := by
  rcases h with hlt | ⟨heq, hle⟩ <;> rcases h' with hlt' | ⟨heq', hle'⟩
  · omega
  · omega
  · omega
  · exact Prod.ext (String.le_antisymm hle hle') heq

theorem le_of_nameOrder {a b : Numbered} (h : nameOrder a b = true) : a.1.1 ≤ b.1.1 := by
  rcases Decidable.em (a.1.1 = b.1.1) with heq | hne
  · exact Std.le_of_eq heq
  · rw [nameOrder, if_pos hne] at h
    exact Std.le_of_lt (of_decide_eq_true h)

theorem explicitEntries_inFieldOrder (fields : List (String × Int)) :
    ((explicitEntries fields).map (·.1)).Pairwise InFieldOrder := by
  refine List.pairwise_map.2 ((explicitEntries_pairwise fields).imp fun {a b} h => ?_)
  rcases Decidable.em (a.1.2 = b.1.2) with heq | hne
  · rw [explicitOrder, if_neg (not_not_intro heq)] at h
    exact .inr ⟨heq, le_of_nameOrder h⟩
  · rw [explicitOrder, if_pos hne] at h
    exact .inl (of_decide_eq_true h)

theorem unnumberedEntries_inFieldOrder (fields : List (String × Int)) :
    ((unnumberedEntries fields).map (·.1)).Pairwise InFieldOrder := by
  refine List.pairwise_map.2 ((unnumberedEntries_pairwise fields).imp_of_mem fun {a b} ha hb h => ?_)
  have heq : a.1.2 = b.1.2 :=
    (mem_unnumberedEntries.1 ha).2.trans (mem_unnumberedEntries.1 hb).2.symm
  exact .inr ⟨heq, le_of_nameOrder h⟩

theorem map_entries_perm (le : Numbered → Numbered → Bool) (p : String × Int → Bool)
    (h : fields.Perm fields') : ((sortBy le (fields.zipIdx.filter fun e => p e.1)).map (·.1)).Perm
      ((sortBy le (fields'.zipIdx.filter fun e => p e.1)).map (·.1)) := by
  have hfields : ∀ fields : List (String × Int),
      (fields.zipIdx.filter fun e => p e.1).map (·.1) = fields.filter p := by
    intro fields
    conv_rhs => rw [← List.zipIdx_map_fst 0 fields, List.filter_map]
    rfl
  refine ((sortBy_perm le _).map _).trans (.trans ?_ ((sortBy_perm le _).map _).symm)
  rw [hfields, hfields]
  exact h.filter p

theorem explicitEntries_map_eq (h : fields.Perm fields') :
    (explicitEntries fields).map (·.1) = (explicitEntries fields').map (·.1) :=
  (map_entries_perm explicitOrder (fun f => f.2 ≠ 0) h).eq_of_pairwise
    (fun _ _ _ _ => InFieldOrder.antisymm) (explicitEntries_inFieldOrder fields)
    (explicitEntries_inFieldOrder fields')

theorem unnumberedEntries_map_eq (h : fields.Perm fields') :
    (unnumberedEntries fields).map (·.1) = (unnumberedEntries fields').map (·.1) :=
  (map_entries_perm nameOrder (fun f => f.2 = 0) h).eq_of_pairwise
    (fun _ _ _ _ => InFieldOrder.antisymm) (unnumberedEntries_inFieldOrder fields)
    (unnumberedEntries_inFieldOrder fields')

theorem explicitNumbers_eq (h : fields.Perm fields') :
    (explicitEntries fields).map (·.1.2) = (explicitEntries fields').map (·.1.2) := by
  have heq := congrArg (List.map Prod.snd) (explicitEntries_map_eq h)
  rw [List.map_map, List.map_map] at heq
  exact heq

theorem givenNumbers_eq (h : fields.Perm fields') : givenNumbers fields = givenNumbers fields' := by
  have hlength := congrArg List.length (unnumberedEntries_map_eq h)
  simp only [List.length_map] at hlength
  rw [givenNumbers, givenNumbers, explicitNumbers_eq h, hlength]

/-- The fields with their numbers are those with numbers of their own, and the others with the free
numbers in the order of their names. -/
theorem zip_numbers_perm (fields : List (String × Int)) :
    (fields.zip (fields.zipIdx.map (numberOf fields))).Perm
      (((explicitEntries fields).map (·.1)).map (fun f => (f, f.2)) ++
        ((unnumberedEntries fields).map (·.1)).zip (givenNumbers fields)) := by
  have hexplicit : ((explicitEntries fields).map (·.1)).map (fun f => (f, f.2)) =
      (explicitEntries fields).map fun e => (e.1, numberOf fields e) := by
    rw [List.map_map]
    exact List.map_congr_left fun e he => Prod.ext rfl (if_neg (mem_explicitEntries.1 he).2).symm
  have hunnumbered : ((unnumberedEntries fields).map (·.1)).zip (givenNumbers fields) =
      (unnumberedEntries fields).map fun e => (e.1, numberOf fields e) := by
    rw [← map_numberOf_unnumbered, List.zip_map']
  have hzip : fields.zip (fields.zipIdx.map (numberOf fields)) =
      fields.zipIdx.map fun e => (e.1, numberOf fields e) := by
    rw [← List.zip_map', List.zipIdx_map_fst]
  rw [hexplicit, hunnumbered, hzip, ← List.map_append]
  exact ((entries_perm fields).map _).symm

/-- Fields have the same numbers in two lists. -/
def NumberedAlike (fields fields' : List (String × Int)) (numbers numbers' : List Int) : Prop :=
  ∀ (i j : Nat) f, fields[i]? = some f → fields'[j]? = some f → numbers[i]? = numbers'[j]?

/-- If no two fields have the same name, their order does not matter. -/
theorem assignNumbers_alike (message : String) (h : fields.Perm fields')
    (distinct : (fields.map (·.1)).Nodup) :
    Compile.Related (NumberedAlike fields fields') (assignNumbers message fields)
      (assignNumbers message fields') := by
  rw [assignNumbers_eq, assignNumbers_eq, checkExplicit_congr message none (explicitEntries_map_eq h)]
  refine Compile.Related.map (Compile.Related.refl (R := Eq) (fun _ => rfl) _) fun _ _ _ i j f hi hj => ?_
  have hzip : (fields.zip (fields.zipIdx.map (numberOf fields))).Perm
      (fields'.zip (fields'.zipIdx.map (numberOf fields'))) := by
    refine (zip_numbers_perm fields).trans (.trans (.of_eq ?_) (zip_numbers_perm fields').symm)
    rw [explicitEntries_map_eq h, unnumberedEntries_map_eq h, givenNumbers_eq h]
  have hnumber : (fields.zipIdx.map (numberOf fields))[i]? = some (numberOf fields (f, i)) := by
    rw [getElem?_numberOf, hi, Option.map_some]
  have hmem : (f, numberOf fields (f, i)) ∈ fields.zip (fields.zipIdx.map (numberOf fields)) :=
    List.mem_of_getElem? (List.getElem?_zip_eq_some.2 ⟨hi, hnumber⟩)
  obtain ⟨k, hk⟩ := List.mem_iff_getElem?.1 (hzip.mem_iff.1 hmem)
  obtain ⟨hfield, hnumber'⟩ := List.getElem?_zip_eq_some.1 hk
  have hnodup : fields'.Nodup := h.nodup_iff.1 (List.Nodup.of_map _ distinct)
  obtain ⟨hlt, -⟩ := List.getElem?_eq_some_iff.1 hfield
  obtain rfl : k = j := (List.getElem?_inj hlt hnodup).1 (hfield.trans hj.symm)
  exact hnumber.trans hnumber'.symm

end Numbering

end ApiProto.Proto

namespace ApiProto.Compile

open Proto Document CompileM

variable {env : Environment} {scope : Scope} {c : Compilation}

/-! ## Fields that have got their numbers -/

/-- A field with a number from one on that is not taken can be added. -/
theorem addPropertyField_of_free {message : Nat} {m : Message} {p : CompiledProperty} {number : Int}
    (hm : c.graph.message? message = some m) (hnumber : 1 ≤ number)
    (hfree : number ∉ m.fields.map (·.number)) :
    ∃ c', addPropertyField message p number c = .ok ((), c') := by
  have hadd : m.addField (p.field number) =
      .ok { m with fields := m.fields ++ [p.field number] } := by
    have hnone : (m.fields.find? fun other => other.number == (p.field number).number) = none := by
      refine List.find?_eq_none.2 fun other hother heq => hfree ?_
      exact List.mem_map.2 ⟨other, hother, eq_of_beq heq⟩
    rw [Message.addField, hnone, if_neg (show ¬ (p.field number).number < 1 from Int.not_lt.2 hnumber)]
  have hrun : addField message (p.field number) c = .ok ((), { c with
      graph := c.graph.put message (.message { m with fields := m.fields ++ [p.field number] }) }) := by
    rw [addField, hm]
    dsimp only
    rw [hadd]
    rfl
  exact ⟨_, bind_ok_iff.2 ⟨(), _, hrun, addImportFor_run _⟩⟩

/-- Fields with different numbers from one on can be added one after the other. -/
theorem addFields_of_distinct {message : Nat} {m : Message} (fields : List (CompiledProperty × Int))
    (hm : c.graph.message? message = some m) (hnumbers : ∀ f ∈ fields, 1 ≤ f.2)
    (hdistinct : (m.fields.map (·.number) ++ fields.map (·.2)).Nodup) :
    ∃ c', addFields message fields c = .ok ((), c') := by
  induction fields generalizing c m with
  | nil => exact ⟨c, rfl⟩
  | cons f rest ih =>
    obtain ⟨p, number⟩ := f
    have hfree : number ∉ m.fields.map (·.number) := fun hmem =>
      (List.nodup_append'.1 hdistinct).2.2 hmem (List.mem_cons_self ..)
    obtain ⟨c₁, hstep⟩ := addPropertyField_of_free (p := p) hm (hnumbers _ (List.mem_cons_self ..)) hfree
    obtain ⟨m₁, hm₁, -, hfields⟩ := addPropertyField_message hm hstep
    have hdistinct₁ : (m₁.fields.map (·.number) ++ rest.map (·.2)).Nodup := by
      rw [hfields, List.map_append, List.append_assoc]
      exact hdistinct
    obtain ⟨c', hrest⟩ := ih hm₁ (fun f hf => hnumbers f (List.mem_cons_of_mem _ hf)) hdistinct₁
    exact ⟨c', forM_ok_cons.2 ⟨c₁, hstep, hrest⟩⟩

/-- Nothing can go wrong when fields are added to a message once their properties have been compiled
and have got numbers. -/
theorem compileProperties_of_numbers {message : Nat} {m : Message} {name : String}
    {properties : List (String × Schema)} {compiled : List CompiledProperty} {c₁ : Compilation}
    {numbers : List Int} (hm : c.graph.message? message = some m) (hempty : m.fields = [])
    (hcompiled : ((sortEntries (partList env properties)).mapM fun (key, p) =>
        within ("failed to compile property " ++ key) (compileProperty env scope key p)) c =
      .ok (compiled, c₁))
    (hnumbers : assignNumbers name (compiled.map fun p => (Name.fieldName p.name, p.number)) =
      .ok numbers) :
    ∃ c' m', compileProperties env scope message name (partList env properties) c = .ok ((), c') ∧
      c'.graph.message? message = some m' ∧
      m'.fields = (compiled.zip numbers).map fun (p, number) => p.field number := by
  have hruns := mapM_compileProperty_runs
    (fun e he => partList_runs env properties e (mem_sortEntries.1 he)) hcompiled
  obtain ⟨m₁, hm₁, hfields₁⟩ := hruns.keepsFields _ _ hm
  have hassigned := numbering_of_assignNumbers name
    (compiled.map fun p => (Name.fieldName p.name, p.number))
  rw [hnumbers] at hassigned
  cases hassigned with
  | assigned _ _ hfit =>
    have hlength : numbers.length = compiled.length := by simpa using hfit.length
    have hsnd : (compiled.zip numbers).map (·.2) = numbers :=
      List.map_snd_zip (Nat.le_of_eq hlength)
    have hdistinct : (m₁.fields.map (·.number) ++ (compiled.zip numbers).map (·.2)).Nodup := by
      rw [hfields₁, hempty, hsnd]
      exact hfit.distinct
    obtain ⟨c₂, hadd⟩ := addFields_of_distinct (compiled.zip numbers) hm₁
      (fun f hf => hfit.positive f.2 (List.of_mem_zip hf).2) hdistinct
    obtain ⟨m₂, hm₂, -, hfields₂⟩ := addFields_message hm₁ hadd
    refine ⟨c₂, m₂, bind_ok_iff.2 ⟨compiled, c₁, hcompiled, ?_⟩, hm₂, ?_⟩
    · rw [hnumbers]
      exact hadd
    · rw [hfields₂, hfields₁, hempty]
      rfl

/-- An object becomes a message once its properties have been compiled and have got numbers. -/
theorem compileMessage_of_numbers {name : String} {comment : Value}
    {properties : List (String × Schema)} {compiled : List CompiledProperty} {c₁ : Compilation}
    {numbers : List Int}
    (hcompiled : ((sortEntries (partList env properties)).mapM fun (key, p) =>
        within ("failed to compile property " ++ key)
          (compileProperty env (c.graph.size :: scope) key p))
      (c.withNode (.message ⟨name, [], [], comment⟩)) = .ok (compiled, c₁))
    (hnumbers : assignNumbers name (compiled.map fun p => (Name.fieldName p.name, p.number)) =
      .ok numbers) :
    ∃ c' m, compileMessage env scope name comment (partList env properties) c =
        .ok (.type (.node c.graph.size), c') ∧
      c'.graph.message? c.graph.size = some m ∧
      m.fields = (compiled.zip numbers).map fun (p, number) => p.field number := by
  have hfresh : (c.withNode (.message ⟨name, [], [], comment⟩)).graph.message? c.graph.size =
      some ⟨name, [], [], comment⟩ := Graph.message?_of_node? (Graph.node?_add_self _)
  obtain ⟨c₂, m₂, hproperties, hm₂, hfields₂⟩ :=
    compileProperties_of_numbers hfresh rfl hcompiled hnumbers
  have hkept : c₂.graph.KeepsFields (c₂.declareHere scope (.node c.graph.size)).graph :=
    declareHere_keepsFields _
  obtain ⟨m, hm, hfields⟩ := hkept _ m₂ hm₂
  refine ⟨_, m, ?_, hm, hfields.trans hfields₂⟩
  unfold compileMessage
  rw [newNode_bind]
  refine bind_ok_iff.2 ⟨(), c₂, within_ok_iff.2 hproperties, ?_⟩
  rw [declareDefinition_bind, pure_run]

/-- Fields get the numbers that they should have unless one that is given is negative, or given twice;
without two fields of one name their order does not matter; and the fields of an object can be added
with the numbers that they have got. -/
theorem assignNumbers_correct (message : String) (fields : List (String × Int)) :
    Numbering message fields (assignNumbers message fields) ∧
      (∀ fields', fields.Perm fields' → (fields.map (·.1)).Nodup →
        Related (NumberedAlike fields fields') (assignNumbers message fields)
          (assignNumbers message fields')) ∧
      ∀ env scope comment properties c compiled c₁ numbers,
        ((sortEntries (partList env properties)).mapM fun (key, p) =>
            within ("failed to compile property " ++ key)
              (compileProperty env (c.graph.size :: scope) key p))
          (c.withNode (.message ⟨message, [], [], comment⟩)) = .ok (compiled, c₁) →
        (compiled.map fun p => (Name.fieldName p.name, p.number)) = fields →
        assignNumbers message fields = .ok numbers →
        ∃ c' m, compileMessage env scope message comment (partList env properties) c =
            .ok (.type (.node c.graph.size), c') ∧
          c'.graph.message? c.graph.size = some m ∧
          m.fields = (compiled.zip numbers).map fun (p, number) => p.field number := by
  refine ⟨numbering_of_assignNumbers message fields,
    fun fields' hperm hdistinct => assignNumbers_alike message hperm hdistinct, ?_⟩
  intro env scope comment properties c compiled c₁ numbers hcompiled hfields hnumbers
  subst hfields
  exact compileMessage_of_numbers hcompiled hnumbers

/-- Three properties, of which one has a number. -/
def petProperties : List (String × Schema) :=
  [("id", { Schema.scalar "integer" with tag := 2 }), ("name", .scalar "string"),
    ("tag", .scalar "string")]

/-- What the properties of a pet are compiled to inside its message. -/
def petRun : Except Error (List CompiledProperty × Compilation) :=
  ((sortEntries (partList ⟨default, .ofDefinitions []⟩ petProperties)).mapM fun (key, p) =>
    within ("failed to compile property " ++ key)
      (compileProperty ⟨default, .ofDefinitions []⟩ [2, 0] key p))
    ((start "pet" "PetService" []).withNode (.message ⟨"Pet", [], [], .text ""⟩))

theorem assignNumbers_correct_pet :
    Numbering "Pet" [("id", 2), ("name", 0), ("tag", 0)] (.ok [2, 1, 3]) ∧
      NumberedAlike [("id", 2), ("name", 0), ("tag", 0)] [("tag", 0), ("name", 0), ("id", 2)]
        [2, 1, 3] [3, 1, 2] ∧
      ∃ c' m, compileMessage ⟨default, .ofDefinitions []⟩ [0] "Pet" (.text "")
          (partList ⟨default, .ofDefinitions []⟩ petProperties) (start "pet" "PetService" []) =
            .ok (.type (.node 2), c') ∧
        c'.graph.message? 2 = some m ∧ m.fields.map (·.number) = [2, 1, 3] := by
  have hassigned : assignNumbers "Pet" [("id", 2), ("name", 0), ("tag", 0)] = .ok [2, 1, 3] := rfl
  obtain ⟨hnumbering, horder, hcompile⟩ :=
    assignNumbers_correct "Pet" [("id", 2), ("name", 0), ("tag", 0)]
  refine ⟨hassigned ▸ hnumbering,
    horder [("tag", 0), ("name", 0), ("id", 2)] (by decide) (by decide), ?_⟩
  have hrun : petRun.map (fun r => r.1.map fun p => (Name.fieldName p.name, p.number)) =
      .ok [("id", 2), ("name", 0), ("tag", 0)] := by decide +kernel
  obtain ⟨⟨compiled, c₁⟩, hcompiled, hfields⟩ := map_eq_ok_iff.1 hrun
  obtain ⟨c', m, hmessage, hm, hadded⟩ := hcompile ⟨default, .ofDefinitions []⟩ [0] (.text "")
    petProperties (start "pet" "PetService" []) compiled c₁ [2, 1, 3] hcompiled hfields hassigned
  have hlength : compiled.length = 3 := by simpa using congrArg List.length hfields
  refine ⟨c', m, hmessage, hm, ?_⟩
  rw [hadded, List.map_map]
  exact List.map_snd_zip (Nat.le_of_eq hlength.symm)

end ApiProto.Compile
