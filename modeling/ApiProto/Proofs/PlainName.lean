import ApiProto.Compile.Operation

/-!
# Plain names

The names of declared types are made of letters and digits. So they hold no point, which would make
them qualified, and no number sign, which separates names in the keys of declarations.

* `Name.IsPlain` — names of letters and digits.
* `pascal_plain`, `endpointName_plain`, `listWrapperName_plain` — the names that types are given.
-/

namespace ApiProto.Name

/-- A name of letters and digits. -/
def IsPlain (s : String) : Prop := ∀ a ∈ s.toList, a.isAlphanum = true

instance (s : String) : Decidable (IsPlain s) :=
  decidable_of_iff (s.toList.all Char.isAlphanum = true) List.all_eq_true

theorem IsPlain.not_mem {s : String} (h : IsPlain s) {a : Char} (ha : a.isAlphanum = false) :
    a ∉ s.toList := by
  intro hmem
  rw [h a hmem] at ha
  cases ha

theorem IsPlain.append {s t : String} (hs : IsPlain s) (ht : IsPlain t) : IsPlain (s ++ t) := by
  intro a ha
  rw [String.toList_append, List.mem_append] at ha
  rcases ha with ha | ha
  · exact hs a ha
  · exact ht a ha

theorem IsPlain.withoutEnd {s : String} (h : IsPlain s) (ending : String) :
    IsPlain (Text.withoutEnd ending s) := by
  intro a ha
  unfold Text.withoutEnd Text.dropEnd at ha
  rw [String.toList_ofList] at ha
  split at ha
  · next rest hdrop =>
    have happend := Text.eq_append_of_dropStart? hdrop
    refine h a (List.mem_reverse.1 ?_)
    rw [happend]
    exact List.mem_append_right _ (List.mem_reverse.1 ha)
  · exact h a ha

theorem isAlphanum_toUpper {a : Char} (h : a.isAlphanum = true) :
    a.toUpper.isAlphanum = true := by
  unfold Char.toUpper
  split
  · next hlower =>
    have hlo : 97 ≤ a.val.toNat := hlower.1
    have hhi : a.val.toNat ≤ 122 := hlower.2
    have hoffset : ('A'.val - 'a'.val).toNat = 4294967264 := by decide
    have hval : (a.val + ('A'.val - 'a'.val)).toNat = a.val.toNat - 32 := by
      rw [UInt32.toNat_add, hoffset]
      omega
    refine Bool.or_eq_true_iff.2 (.inl (Bool.or_eq_true_iff.2 (.inl (decide_eq_true ?_))))
    simp only [ge_iff_le, UInt32.le_iff_toNat_le, hval]
    refine ⟨?_, ?_⟩
    · show 65 ≤ a.val.toNat - 32
      omega
    · show a.val.toNat - 32 ≤ 90
      omega
  · exact h

theorem pascalChars_plain (cs : List Char) : ∀ a ∈ pascalChars cs, a.isAlphanum = true := by
  have hfrom : ∀ fresh, ∀ a ∈ pascalFrom fresh cs, a.isAlphanum = true := by
    induction cs with
    | nil => simp [pascalFrom]
    | cons c rest ih =>
      intro fresh a ha
      simp only [pascalFrom] at ha
      split at ha
      · next hc =>
        rcases List.mem_cons.1 ha with rfl | ha
        · split
          · exact isAlphanum_toUpper hc
          · exact hc
        · exact ih false a ha
      · exact ih true a ha
  exact hfrom true

theorem pascal_plain (s : String) : IsPlain (pascal s) := by
  intro a ha
  rw [pascal, String.toList_ofList] at ha
  exact pascalChars_plain _ a ha

theorem endpointName_plain (verb path identifier : String) :
    IsPlain (endpointName verb path identifier) := by
  intro a ha
  unfold endpointName at ha
  split at ha
  · rw [String.toList_ofList, List.mem_append] at ha
    exact ha.elim (pascalChars_plain _ a) (pascalChars_plain _ a)
  · rw [operationName, String.toList_ofList] at ha
    exact pascalChars_plain _ a ha

end ApiProto.Name

namespace ApiProto.Compile

open Name

theorem wrapperCandidate_plain {base : String} (h : IsPlain base) (n : Nat) :
    IsPlain (wrapperCandidate base n) := by
  have hword : IsPlain "ListWrapper" := by decide
  match n with
  | 0 => exact h.append (by decide)
  | 1 => exact h.append hword
  | n + 2 =>
    refine (h.append hword).append fun a ha => ?_
    have hdigit : a.isDigit = true :=
      Nat.isDigit_of_mem_toDigits (b := 10) (by decide) (by decide) (by simpa using ha)
    simp [Char.isAlphanum, hdigit]

theorem listWrapperName_plain {base : String} (h : IsPlain base) (spec : Document.Spec)
    (c : Compilation) : IsPlain (listWrapperName spec c base) := by
  unfold listWrapperName
  dsimp only
  generalize hfound : List.find? _ _ = found
  cases found with
  | none => exact h.append (by decide)
  | some name =>
    obtain ⟨n, -, rfl⟩ := List.mem_map.1 (List.mem_of_find?_eq_some hfound)
    exact wrapperCandidate_plain h n

end ApiProto.Compile
