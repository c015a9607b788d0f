import ApiProto.Name.Case
import ApiProto.Proofs.Boxing
import ApiProto.Proofs.PercentText
import ApiProto.Proofs.SnakeNames

/-!
# Letters and digits of names

Snake case, Pascal case and capitals change the case of letters and what stands between words, and
keep the letters and digits. For enum values these are changed only where percent signs are decoded,
so what comes before the first percent sign is kept.

* `capitals` — the letters and digits of a text, in upper case.
* `pascal_pascal`, `capitals_pascal` — names in Pascal case.
* `capitals_enumValueName` — those of an enum value are those of the decoded text.
* `exists_capitals_enumValueName` — a value that starts with a name begins with the letters and
  digits of that name.
* `not_isBare_of_letter` — a letter that is kept makes a value no bare number.
-/

namespace ApiProto.Name

open Text

/-- The letters and digits of a text, in upper case. -/
def capitals (cs : List Char) : List Char := (cs.filter Char.isAlphanum).map Char.toUpper

variable {cs ds : List Char} {a : Char}

@[simp] theorem capitals_append (cs ds : List Char) :
    capitals (cs ++ ds) = capitals cs ++ capitals ds := by
  simp [capitals]

theorem capitals_cons (a : Char) (cs : List Char) :
    capitals (a :: cs) = (if a.isAlphanum then [a.toUpper] else []) ++ capitals cs := by
  unfold capitals
  rw [List.filter_cons]
  split <;> simp

/-! ## Characters -/

theorem toUpper_eq_self (h : a.isLower = false) : a.toUpper = a := by
  unfold Char.toUpper
  rw [dif_neg]
  rintro ⟨hlo, hhi⟩
  have hlower : a.isLower = true :=
    (Bool.and_eq_true ..).mpr ⟨decide_eq_true hlo, decide_eq_true hhi⟩
  rw [hlower] at h
  cases h

@[simp] theorem toUpper_toUpper (a : Char) : a.toUpper.toUpper = a.toUpper :=
  toUpper_eq_self (isLower_toUpper a)

/-- The code of a lower-case letter in upper case. -/
theorem toNat_toUpper (h : a.isLower = true) : a.toUpper.val.toNat + 32 = a.val.toNat := by
  have hcase : a.val ≥ 'a'.val ∧ a.val ≤ 'z'.val := by
    obtain ⟨hlo, hhi⟩ := Bool.and_eq_true_iff.1 h
    exact ⟨of_decide_eq_true hlo, of_decide_eq_true hhi⟩
  have hlo : 97 ≤ a.val.toNat := hcase.1
  have hhi : a.val.toNat ≤ 122 := hcase.2
  unfold Char.toUpper
  rw [dif_pos hcase]
  have hoffset : ('A'.val - 'a'.val).toNat = 4294967264 := by decide
  show (a.val + ('A'.val - 'a'.val)).toNat + 32 = _
  rw [UInt32.toNat_add, hoffset]
  omega

theorem toUpper_toLower (a : Char) : a.toLower.toUpper = a.toUpper := by
  rcases h : a.isUpper with _ | _
  · rw [toLower_eq_self h]
  · obtain ⟨hlo, hhi, hval⟩ := toNat_toLower h
    have hupper : a.toUpper = a := by
      refine toUpper_eq_self (Bool.eq_false_iff.2 fun hlower => ?_)
      have hle : 97 ≤ a.val.toNat := of_decide_eq_true (Bool.and_eq_true_iff.1 hlower).1
      omega
    have hlower : a.toLower.isLower = true := by
      have hge : (97 : UInt32) ≤ a.toLower.val := by
        rw [UInt32.le_iff_toNat_le, hval]
        show 97 ≤ _
        omega
      have hle : a.toLower.val ≤ (122 : UInt32) := by
        rw [UInt32.le_iff_toNat_le, hval]
        show _ ≤ 122
        omega
      exact (Bool.and_eq_true ..).mpr ⟨decide_eq_true hge, decide_eq_true hle⟩
    have hnat := toNat_toUpper hlower
    rw [hupper]
    refine Char.ext (UInt32.toNat_inj.1 ?_)
    omega

theorem isAlphanum_toLower_iff (a : Char) : a.toLower.isAlphanum = a.isAlphanum := by
  rcases h : a.isAlphanum with _ | _
  · have hupper : a.isUpper = false := by
      have := (Bool.or_eq_false_iff.1 h).1
      exact (Bool.or_eq_false_iff.1 this).1
    rw [toLower_eq_self hupper, h]
  · exact isAlphanum_toLower h

/-! ## What keeps letters and digits -/

theorem capitals_keepWords (cs : List Char) : capitals (keepWords cs) = capitals cs := by
  induction cs with
  | nil => rfl
  | cons a rest ih =>
    rw [capitals_cons, ← ih]
    unfold keepWords
    rw [List.filterMap_cons]
    split
    · next hnone =>
      split at hnone
      · cases hnone
      · next hword =>
        rw [if_neg hword]
        rfl
    · next b hsome =>
      rw [capitals_cons]
      split at hsome
      · next hword =>
        obtain rfl := Option.some.inj hsome
        rfl
      · next hword =>
        rw [if_neg hword]
        split at hsome
        · obtain rfl := Option.some.inj hsome
          rfl
        · cases hsome

theorem capitals_squeeze (cs : List Char) : capitals (squeeze '_' cs) = capitals cs := by
  induction cs with
  | nil => rfl
  | cons a rest ih =>
    rw [squeeze]
    split
    · next h =>
      rw [ih, capitals_cons, h.1]
      rfl
    · rw [capitals_cons, ih, ← capitals_cons]

theorem capitals_dropWhile (cs : List Char) :
    capitals (cs.dropWhile (· == '_')) = capitals cs := by
  induction cs with
  | nil => rfl
  | cons a rest ih =>
    by_cases h : a = '_'
    · rw [List.dropWhile_cons_of_pos (by simpa using h), ih, capitals_cons, h]
      rfl
    · rw [List.dropWhile_cons_of_neg (by simpa using h)]

theorem capitals_reverse (cs : List Char) : capitals cs.reverse = (capitals cs).reverse := by
  simp [capitals]

theorem capitals_trimUnderscores (cs : List Char) : capitals (trimUnderscores cs) = capitals cs := by
  unfold trimUnderscores dropEndWhile
  rw [capitals_reverse, capitals_dropWhile, capitals_reverse, List.reverse_reverse,
    capitals_dropWhile]

theorem capitals_breakWords (before : Option Char) (cs : List Char) :
    capitals (breakWords before cs) = capitals cs := by
  induction cs generalizing before with
  | nil => rfl
  | cons a rest ih =>
    have hfirst : capitals (a.toLower :: breakWords (some a) rest) = capitals (a :: rest) := by
      rw [capitals_cons, capitals_cons, isAlphanum_toLower_iff, toUpper_toLower, ih]
    rw [breakWords]
    split
    · rw [capitals_cons, hfirst]
      rfl
    · exact hfirst

/-- Snake case keeps letters and digits. -/
theorem capitals_snakeChars (cs : List Char) : capitals (snakeChars cs) = capitals cs := by
  unfold snakeChars wordsOf
  rw [capitals_breakWords, capitals_trimUnderscores, capitals_squeeze, capitals_keepWords]

theorem capitals_allCaps (cs : List Char) : capitals (allCaps cs) = capitals cs := by
  induction cs with
  | nil => rfl
  | cons a rest ih =>
    have hcons : allCaps (a :: rest) =
        (if a.isAlphanum then a else '_').toUpper :: allCaps rest := rfl
    rw [hcons, capitals_cons, capitals_cons, ih]
    split
    · next h => rw [isAlphanum_toUpper h, toUpper_toUpper]; rfl
    · rfl

/-- Pascal case keeps letters and digits. -/
theorem capitals_pascal (s : String) : capitals (pascal s).toList = capitals s.toList := by
  have hfrom : ∀ fresh, capitals (pascalFrom fresh s.toList) = capitals s.toList := by
    induction s.toList with
    | nil => exact fun _ => rfl
    | cons a rest ih =>
      intro fresh
      rw [pascalFrom]
      split
      · next h =>
        rw [capitals_cons, capitals_cons, ih]
        cases fresh
        · rfl
        · rw [if_pos rfl, if_pos (isAlphanum_toUpper h), toUpper_toUpper, if_pos h]
      · next h =>
        rw [ih, capitals_cons, if_neg h]
        rfl
  unfold pascal
  rw [String.toList_ofList]
  exact hfrom true

/-- A name in Pascal case stays as it is. -/
@[simp] theorem pascal_pascal (s : String) : pascal (pascal s) = pascal s := by
  have hplain := pascalChars_plain s.toList
  have hupper := isLower_head?_pascalFrom s.toList
  have hkept : ∀ cs : List Char, (∀ a ∈ cs, a.isAlphanum = true) →
      pascalFrom false cs = cs := by
    intro cs h
    induction cs with
    | nil => rfl
    | cons a rest ih =>
      obtain ⟨ha, hrest⟩ := List.forall_mem_cons.1 h
      rw [pascalFrom, if_pos ha, ih hrest]
      rfl
  unfold pascal
  rw [String.toList_ofList]
  refine congrArg String.ofList ?_
  unfold pascalChars at hplain hupper ⊢
  generalize pascalFrom true s.toList = cs at hplain hupper
  cases cs with
  | nil => rfl
  | cons a rest =>
    obtain ⟨ha, hrest⟩ := List.forall_mem_cons.1 hplain
    have hcase := hupper a rfl
    rw [pascalFrom, if_pos ha, hkept rest hrest, if_pos rfl, toUpper_eq_self hcase]

/-! ## Enum values -/

/-- The text that a listed value stands for. -/
def decodedValue (s : String) : List Char :=
  (Uri.queryDecode? (spellAmpersands s.toList)).getD (spellAmpersands s.toList)

/-- The letters and digits of an enum value are those of the text it stands for. -/
theorem capitals_enumValueName (s : String) :
    capitals (enumValueName s).toList = capitals (decodedValue s) := by
  unfold enumValueName
  rw [String.toList_ofList, capitals_allCaps, capitals_snakeChars]
  rfl

theorem capitals_plus (cs : List Char) :
    capitals (cs.map fun c => if c = '+' then ' ' else c) = capitals cs := by
  induction cs with
  | nil => rfl
  | cons a rest ih =>
    rw [List.map_cons, capitals_cons, capitals_cons, ih]
    by_cases h : a = '+'
    · rw [if_pos h, h]
      rfl
    · rw [if_neg h]

theorem spellAmpersands_append (cs ds : List Char) :
    spellAmpersands (cs ++ ds) = spellAmpersands cs ++ spellAmpersands ds := by
  simp [spellAmpersands]

theorem spellAmpersands_eq_self (h : '&' ∉ cs) : spellAmpersands cs = cs := by
  induction cs with
  | nil => rfl
  | cons a rest ih =>
    obtain ⟨ha, hrest⟩ := not_or.1 (mt List.mem_cons.2 h)
    have hcons : spellAmpersands (a :: rest) =
        (if a = '&' then " AND ".toList else [a]) ++ spellAmpersands rest := rfl
    rw [hcons, if_neg (Ne.symm ha), ih hrest, List.singleton_append]

theorem percent_not_mem_spellAmpersands (h : '%' ∉ cs) : '%' ∉ spellAmpersands cs := by
  intro hmem
  obtain ⟨a, ha, hin⟩ := List.mem_flatMap.1 hmem
  split at hin
  · simp at hin
  · exact h (List.mem_singleton.1 hin ▸ ha)

/-- A value that starts with a name without percent sign begins with the letters and digits of that
name, its ampersands spelled out. -/
theorem exists_capitals_enumValueName {name : String} (h : '%' ∉ name.toList) (rest : String) :
    ∃ more, capitals (enumValueName (name ++ rest)).toList =
      capitals (spellAmpersands name.toList) ++ more := by
  have hname := percent_not_mem_spellAmpersands h
  rw [capitals_enumValueName]
  unfold decodedValue
  rw [String.toList_append, spellAmpersands_append]
  unfold Uri.queryDecode?
  split
  · have hencodes : '%' ∉ (spellAmpersands name.toList).map fun c => if c = '+' then ' ' else c := by
      intro hmem
      obtain ⟨a, ha, heq⟩ := List.mem_map.1 hmem
      split at heq
      · cases heq
      · exact hname (heq ▸ ha)
    rw [Option.getD_some, List.map_append, Uri.percentDecode_append (.refl hencodes),
      capitals_append, capitals_plus]
    exact ⟨_, rfl⟩
  · exact ⟨_, capitals_append ..⟩

/-! ## Bare numbers -/

/-- A name with nothing but digits, if with anything. -/
def IsBare (s : String) : Prop := allDigits s.toList = true

instance (s : String) : Decidable (IsBare s) := inferInstanceAs (Decidable (_ = true))

/-- A name with a letter in it. -/
def HasLetter (s : String) : Prop := ∃ a ∈ s.toList, a.isAlpha = true

theorem not_isDigit_toUpper (h : a.isAlpha = true) : a.toUpper.isDigit = false := by
  rcases hlower : a.isLower with _ | _
  · rw [toUpper_eq_self hlower]
    have hupper : a.isUpper = true := by
      rcases Bool.or_eq_true_iff.1 h with h | h
      · exact h
      · rw [hlower] at h
        cases h
    have hlo : 65 ≤ a.val.toNat := (toNat_toLower hupper).1
    refine Bool.eq_false_iff.2 fun hdigit => ?_
    have hhi : a.val.toNat ≤ 57 := of_decide_eq_true (Bool.and_eq_true_iff.1 hdigit).2
    omega
  · have hnat := toNat_toUpper hlower
    have hlo : 97 ≤ a.val.toNat := of_decide_eq_true (Bool.and_eq_true_iff.1 hlower).1
    refine Bool.eq_false_iff.2 fun hdigit => ?_
    have hhi : a.toUpper.val.toNat ≤ 57 := of_decide_eq_true (Bool.and_eq_true_iff.1 hdigit).2
    omega

/-- A name with a letter among the letters and digits of its capitals is no bare number. -/
theorem not_isBare_of_letter {s : String} {cs more : List Char}
    (h : capitals s.toList = capitals cs ++ more) (ha : a ∈ cs) (halpha : a.isAlpha = true) :
    ¬ IsBare s := by
  intro hbare
  have hword : a.isAlphanum = true := Bool.or_eq_true_iff.2 (.inl halpha)
  have hmem : a.toUpper ∈ capitals s.toList := by
    rw [h]
    exact List.mem_append_left _ (List.mem_map.2 ⟨a, List.mem_filter.2 ⟨ha, hword⟩, rfl⟩)
  obtain ⟨b, hb, hupper⟩ := List.mem_map.1 hmem
  have hdigit : b.isDigit = true := List.all_eq_true.1 hbare b (List.mem_filter.1 hb).1
  have hlower : b.isLower = false := by
    refine Bool.eq_false_iff.2 fun hlower => ?_
    have hlo : 97 ≤ b.val.toNat := of_decide_eq_true (Bool.and_eq_true_iff.1 hlower).1
    have hhi : b.val.toNat ≤ 57 := of_decide_eq_true (Bool.and_eq_true_iff.1 hdigit).2
    omega
  rw [toUpper_eq_self hlower] at hupper
  have hnot := not_isDigit_toUpper halpha
  rw [← hupper, hdigit] at hnot
  cases hnot

end ApiProto.Name
