import ApiProto.Name.Case
import Mathlib.Data.List.Chain

/-!
# Names in snake case

Snake case is a normal form: a name in snake case is made of letters and digits with single
underscores between some of them, and stays as it is. So the names of fields, in which runs of other
characters become single underscores, are names in snake case.

* `Worded` — letters and digits with single underscores between some of them.
* `wordsOf_worded`, `breakWords_worded` — snake case is worded.
* `fieldName_eq_snake`, `snake_snake` — what is in snake case stays as it is.
-/

namespace ApiProto.Name

open Text

/-- One of two neighbours is no underscore. -/
def Apart (a b : Char) : Prop := a ≠ '_' ∨ b ≠ '_'

/-- Letters and digits with single underscores between some of them. -/
structure Worded (cs : List Char) : Prop where
  chars : ∀ c ∈ cs, c.isAlphanum = true ∨ c = '_'
  single : cs.IsChain Apart
  start : cs.head? ≠ some '_'
  finish : cs.getLast? ≠ some '_'

variable {cs : List Char} {a b c : Char}

/-! ## Characters -/

theorem toLower_eq_self (h : c.isUpper = false) : c.toLower = c := by
  unfold Char.toLower
  rw [dif_neg (of_decide_eq_false h)]

/-- The code of an upper-case letter in lower case. -/
theorem toNat_toLower (h : c.isUpper = true) :
    65 ≤ c.val.toNat ∧ c.val.toNat ≤ 90 ∧ c.toLower.val.toNat = c.val.toNat + 32 := by
  have hcase : c.val ≥ 'A'.val ∧ c.val ≤ 'Z'.val := of_decide_eq_true h
  have hlo : 65 ≤ c.val.toNat := hcase.1
  have hhi : c.val.toNat ≤ 90 := hcase.2
  refine ⟨hlo, hhi, ?_⟩
  unfold Char.toLower
  rw [dif_pos hcase]
  have hoffset : ('a'.val - 'A'.val).toNat = 32 := by decide
  show (c.val + ('a'.val - 'A'.val)).toNat = _
  rw [UInt32.toNat_add, hoffset]
  omega

@[simp] theorem isUpper_toLower (c : Char) : c.toLower.isUpper = false := by
  rcases h : c.isUpper with _ | _
  · rwa [toLower_eq_self h]
  · obtain ⟨hlo, hhi, hval⟩ := toNat_toLower h
    refine decide_eq_false fun hcase => ?_
    have hle : c.toLower.val.toNat ≤ 90 := hcase.2
    omega

theorem isAlphanum_toLower (h : c.isAlphanum = true) : c.toLower.isAlphanum = true := by
  rcases hc : c.isUpper with _ | _
  · rwa [toLower_eq_self hc]
  · obtain ⟨hlo, hhi, hval⟩ := toNat_toLower hc
    have hlo' : 97 ≤ c.toLower.val.toNat := by omega
    have hhi' : c.toLower.val.toNat ≤ 122 := by omega
    have hge : (97 : UInt32) ≤ c.toLower.val := hlo'
    have hle : c.toLower.val ≤ 122 := hhi'
    have hlower : c.toLower.isLower = true :=
      (Bool.and_eq_true ..).mpr ⟨decide_eq_true hge, decide_eq_true hle⟩
    show (c.toLower.isUpper || c.toLower.isLower || c.toLower.isDigit) = true
    rw [hlower, Bool.or_true, Bool.true_or]

@[simp] theorem toLower_eq_underscore : c.toLower = '_' ↔ c = '_' := by
  rcases h : c.isUpper with _ | _
  · rw [toLower_eq_self h]
  · obtain ⟨hlo, hhi, hval⟩ := toNat_toLower h
    refine ⟨fun heq => ?_, fun heq => ?_⟩
    · rw [heq] at hval
      have : '_'.val.toNat = 95 := rfl
      omega
    · rw [heq] at h
      cases h

theorem Apart.toLower (h : Apart a b) : Apart a.toLower b.toLower :=
  h.imp (mt toLower_eq_underscore.1) (mt toLower_eq_underscore.1)

/-! ## Words -/

theorem squeeze_sublist (target : Char) (cs : List Char) : (squeeze target cs).Sublist cs := by
  induction cs with
  | nil => exact .slnil
  | cons c rest ih =>
    rw [squeeze]
    split
    · exact ih.cons c
    · exact ih.cons_cons c

theorem head?_squeeze (target : Char) (cs : List Char) : (squeeze target cs).head? = cs.head? := by
  induction cs with
  | nil => rfl
  | cons c rest ih =>
    rw [squeeze]
    split
    · next h => rw [ih, h.2, h.1, List.head?_cons]
    · rfl

theorem squeeze_single (cs : List Char) : (squeeze '_' cs).IsChain Apart := by
  induction cs with
  | nil => exact .nil
  | cons c rest ih =>
    rw [squeeze]
    split
    · exact ih
    · next h =>
      refine List.isChain_cons.2 ⟨fun d hd => ?_, ih⟩
      rw [head?_squeeze] at hd
      by_cases hc : c = '_'
      · exact .inr fun hd' => h ⟨hc, by rw [Option.mem_def.1 hd, hd']⟩
      · exact .inl hc

theorem squeeze_eq_self (h : cs.IsChain Apart) : squeeze '_' cs = cs := by
  induction cs with
  | nil => rfl
  | cons c rest ih =>
    obtain ⟨hfirst, hrest⟩ := List.isChain_cons.1 h
    rw [squeeze, if_neg, ih hrest]
    rintro ⟨rfl, hhead⟩
    exact (hfirst '_' hhead).elim (· rfl) (· rfl)

theorem dropWhile_underscore_head? (cs : List Char) :
    (cs.dropWhile (· == '_')).head? ≠ some '_' := by
  intro h
  have hnot := List.head?_dropWhile_not (· == '_') cs
  rw [h] at hnot
  cases hnot

theorem dropWhile_underscore_eq_self (h : cs.head? ≠ some '_') : cs.dropWhile (· == '_') = cs := by
  cases cs with
  | nil => rfl
  | cons c rest => exact List.dropWhile_cons_of_neg (by simpa using h)

theorem exists_dropEndWhile_append (p : Char → Bool) (cs : List Char) :
    ∃ after, dropEndWhile p cs ++ after = cs := by
  have h := List.reverse_prefix.2 (List.dropWhile_suffix (l := cs.reverse) p)
  rwa [List.reverse_reverse] at h

theorem exists_append_trimUnderscores (cs : List Char) :
    ∃ before after, before ++ (trimUnderscores cs ++ after) = cs := by
  obtain ⟨before, hbefore⟩ := List.dropWhile_suffix (l := cs) (· == '_')
  obtain ⟨after, hafter⟩ := exists_dropEndWhile_append (· == '_') (cs.dropWhile (· == '_'))
  exact ⟨before, after, (congrArg (before ++ ·) hafter).trans hbefore⟩

theorem keepWords_chars (cs : List Char) : ∀ c ∈ keepWords cs, c.isAlphanum = true ∨ c = '_' := by
  intro c hc
  obtain ⟨d, -, hd⟩ := List.mem_filterMap.1 hc
  split at hd
  · next h => exact .inl (Option.some.inj hd ▸ h)
  · split at hd
    · exact .inr (Option.some.inj hd).symm
    · cases hd

theorem wordsOf_worded (cs : List Char) : Worded (wordsOf cs) where
  chars c hc := by
    obtain ⟨before, after, heq⟩ := exists_append_trimUnderscores (squeeze '_' (keepWords cs))
    have hmem : c ∈ squeeze '_' (keepWords cs) :=
      heq ▸ List.mem_append_right before (List.mem_append_left after hc)
    exact keepWords_chars cs c ((squeeze_sublist _ _).subset hmem)
  single := by
    obtain ⟨before, after, heq⟩ := exists_append_trimUnderscores (squeeze '_' (keepWords cs))
    have hsingle := squeeze_single (keepWords cs)
    rw [← heq] at hsingle
    exact hsingle.right_of_append.left_of_append
  start h := by
    obtain ⟨rest, hrest⟩ := exists_dropEndWhile_append (· == '_')
      ((squeeze '_' (keepWords cs)).dropWhile (· == '_'))
    refine dropWhile_underscore_head? (squeeze '_' (keepWords cs)) ?_
    rw [← hrest, List.head?_append]
    have hhead : (dropEndWhile (· == '_')
      ((squeeze '_' (keepWords cs)).dropWhile (· == '_'))).head? = some '_' := h
    rw [hhead]
    rfl
  finish h := by
    unfold wordsOf trimUnderscores dropEndWhile at h
    rw [List.getLast?_reverse] at h
    exact dropWhile_underscore_head? _ h

theorem wordsOf_eq_self (h : Worded cs) : wordsOf cs = cs := by
  have hkept : keepWords cs = cs := by
    refine (List.filterMap_congr (g := some) fun c hc => ?_).trans List.filterMap_some
    rcases h.chars c hc with hword | rfl
    · rw [if_pos hword]
    · rfl
  unfold wordsOf trimUnderscores dropEndWhile
  rw [hkept, squeeze_eq_self h.single, dropWhile_underscore_eq_self h.start,
    dropWhile_underscore_eq_self, List.reverse_reverse]
  rw [List.head?_reverse]
  exact h.finish

/-! ## Breaks between words -/

/-- A word starts at an upper-case letter after another character than an underscore. -/
theorem startsWord_true {after : Option Char} (h : startsWord (some b) c after = true) :
    b ≠ '_' ∧ c ≠ '_' := by
  simp only [startsWord, Bool.and_eq_true, bne_iff_ne] at h
  refine ⟨h.1.2, ?_⟩
  rintro rfl
  exact absurd h.1.1 (by decide)

theorem mem_breakWords {before : Option Char} (h : c ∈ breakWords before cs) :
    c = '_' ∨ ∃ d ∈ cs, c = d.toLower := by
  induction cs generalizing before with
  | nil => cases h
  | cons d rest ih =>
    have hcases : c = '_' ∨ c = d.toLower ∨ c ∈ breakWords (some d) rest := by
      rw [breakWords] at h
      split at h
      · simpa using h
      · exact .inr (by simpa using h)
    rcases hcases with hc | hc | hc
    · exact .inl hc
    · exact .inr ⟨d, List.mem_cons_self .., hc⟩
    · exact (ih hc).imp_right fun ⟨e, he, heq⟩ => ⟨e, List.mem_cons_of_mem _ he, heq⟩

theorem breakWords_single (h : (b :: cs).IsChain Apart) :
    (b.toLower :: breakWords (some b) cs).IsChain Apart := by
  induction cs generalizing b with
  | nil => exact .singleton _
  | cons c rest ih =>
    obtain ⟨hfirst, hrest⟩ := List.isChain_cons.1 h
    rw [breakWords]
    split
    · next hstarts =>
      obtain ⟨hb, hc⟩ := startsWord_true hstarts
      refine List.isChain_cons.2 ⟨fun d _ => .inl (mt toLower_eq_underscore.1 hb), ?_⟩
      refine List.isChain_cons.2 ⟨fun d hd => .inr ?_, ih hrest⟩
      obtain rfl : c.toLower = d := by simpa using hd
      exact mt toLower_eq_underscore.1 hc
    · refine List.isChain_cons.2 ⟨fun d hd => ?_, ih hrest⟩
      obtain rfl : c.toLower = d := by simpa using hd
      exact (hfirst c rfl).toLower

theorem getLast?_breakWords (before : Option Char) (cs : List Char) :
    (breakWords before cs).getLast? = cs.getLast?.map Char.toLower := by
  induction cs generalizing before with
  | nil => rfl
  | cons c rest ih =>
    have hlast : (c.toLower :: breakWords (some c) rest).getLast? =
        (c :: rest).getLast?.map Char.toLower := by
      rw [List.getLast?_cons, List.getLast?_cons, ih]
      cases rest.getLast? <;> rfl
    rw [breakWords]
    split
    · rw [List.getLast?_cons_cons, hlast]
    · exact hlast

theorem breakWords_worded (h : Worded cs) : Worded (breakWords none cs) where
  chars c hc := by
    rcases mem_breakWords hc with rfl | ⟨d, hd, rfl⟩
    · exact .inr rfl
    · exact (h.chars d hd).imp isAlphanum_toLower toLower_eq_underscore.2
  single := by
    cases cs with
    | nil => exact .nil
    | cons c rest => exact breakWords_single h.single
  start heq := by
    cases cs with
    | nil => cases heq
    | cons c rest =>
      obtain hc : c.toLower = '_' := Option.some.inj heq
      exact h.start (congrArg some (toLower_eq_underscore.1 hc))
  finish heq := by
    rw [getLast?_breakWords] at heq
    obtain ⟨c, hc, hlower⟩ := Option.map_eq_some_iff.1 heq
    exact h.finish (toLower_eq_underscore.1 hlower ▸ hc)

theorem isUpper_of_mem_breakWords {before : Option Char} (h : c ∈ breakWords before cs) :
    c.isUpper = false := by
  rcases mem_breakWords h with rfl | ⟨d, -, rfl⟩
  · rfl
  · exact isUpper_toLower d

theorem breakWords_eq_self (h : ∀ c ∈ cs, c.isUpper = false) (before : Option Char) :
    breakWords before cs = cs := by
  induction cs generalizing before with
  | nil => rfl
  | cons c rest ih =>
    have hc := h c (List.mem_cons_self ..)
    rw [breakWords, if_neg, toLower_eq_self hc, ih fun d hd => h d (List.mem_cons_of_mem _ hd)]
    cases before <;> simp [startsWord, hc]

/-! ## Names -/

theorem underscoredFrom_eq_self (hchars : ∀ c ∈ cs, c.isAlphanum = true ∨ c = '_')
    (hsingle : cs.IsChain Apart) {after : Bool} (hafter : after = true → cs.head? ≠ some '_') :
    underscoredFrom after cs = cs := by
  induction cs generalizing after with
  | nil => rfl
  | cons c rest ih =>
    obtain ⟨hfirst, hrest⟩ := List.isChain_cons.1 hsingle
    have hchars' := fun d hd => hchars d (List.mem_cons_of_mem c hd)
    rw [underscoredFrom]
    rcases hchars c (List.mem_cons_self ..) with hc | rfl
    · rw [if_pos hc, ih hchars' hrest (by simp)]
    · have hfresh : ¬ after = true := fun h => hafter h rfl
      rw [if_neg (by decide), if_neg hfresh, ih hchars' hrest fun _ hhead => ?_]
      exact (hfirst '_' hhead).elim (· rfl) (· rfl)

theorem snakeChars_worded (cs : List Char) : Worded (snakeChars cs) :=
  breakWords_worded (wordsOf_worded cs)

/-- The name of a field is its name in snake case. -/
theorem fieldName_eq_snake (s : String) : fieldName s = snake s := by
  have hworded := snakeChars_worded s.toList
  have hsame : underscoredFrom false (snakeChars s.toList) = snakeChars s.toList :=
    underscoredFrom_eq_self hworded.chars hworded.single nofun
  exact congrArg String.ofList hsame

/-- A name in snake case stays as it is. -/
@[simp] theorem snake_snake (s : String) : snake (snake s) = snake s := by
  unfold snake
  rw [String.toList_ofList]
  refine congrArg String.ofList ?_
  conv_lhs => rw [snakeChars, wordsOf_eq_self (snakeChars_worded _)]
  exact breakWords_eq_self (fun c hc => isUpper_of_mem_breakWords hc) none

end ApiProto.Name
