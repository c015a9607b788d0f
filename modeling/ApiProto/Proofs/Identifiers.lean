import ApiProto.Compile.Package
import ApiProto.Proofs.Capitals
import ApiProto.Proofs.Placeholders
import Mathlib.Data.List.TakeWhile

/-!
# Names as identifiers

The conversions of names drop or replace what cannot stand in an identifier, and keep letters and
digits. Nothing keeps a digit from coming first, and it may be that nothing is left. So a converted
name is an identifier if and only if the first of its letters and digits is a letter.

* `IsIdentifier` — what can be a name in a file: a letter or an underscore, and then letters, digits
  and underscores.
* `HasInitial` — texts with a letter as the first of their letters and digits; `Unnumbered` — texts
  in which no digit is the first of them.
* `isIdentifier_pascal_iff`, `isIdentifier_fieldName_iff`, `isIdentifier_endpointName_iff` — which
  converted names are identifiers.
* `isIdentifier_packageName_iff`, `isIdentifier_serviceName` — the names from titles.
-/

namespace ApiProto.Name

open Text

variable {cs ds : List Char} {s : String} {a : Char}

/-! ## Identifiers -/

/-- A character inside an identifier. -/
def isWordChar (a : Char) : Bool := a.isAlphanum || a == '_'

/-- Whether characters are those of an identifier: they match `[A-Za-z_][A-Za-z0-9_]*`. -/
def isIdentifierChars : List Char → Bool
  | [] => false
  | a :: rest => (a.isAlpha || a == '_') && rest.all isWordChar

/-- A name that can stand in a file. -/
def IsIdentifier (s : String) : Prop := isIdentifierChars s.toList = true

instance (s : String) : Decidable (IsIdentifier s) := inferInstanceAs (Decidable (_ = true))

/-- A name of letters, digits and underscores, if of anything. -/
def IsWord (s : String) : Prop := ∀ a ∈ s.toList, isWordChar a = true

instance (s : String) : Decidable (IsWord s) :=
  decidable_of_iff (s.toList.all isWordChar = true) List.all_eq_true

theorem IsPlain.isWord (h : IsPlain s) : IsWord s := fun a ha =>
  Bool.or_eq_true_iff.2 (.inl (h a ha))

theorem isDigit_toUpper (a : Char) : a.toUpper.isDigit = a.isDigit := by
  rcases hlower : a.isLower with _ | _
  · rw [toUpper_eq_self hlower]
  · have halpha : a.isAlpha = true := Bool.or_eq_true_iff.2 (.inr hlower)
    rw [not_isDigit_toUpper halpha]
    refine (Bool.eq_false_iff.2 fun hdigit => ?_).symm
    have hlo : 97 ≤ a.val.toNat := of_decide_eq_true (Bool.and_eq_true_iff.1 hlower).1
    have hhi : a.val.toNat ≤ 57 := of_decide_eq_true (Bool.and_eq_true_iff.1 hdigit).2
    omega

theorem not_isDigit_of_isAlpha (h : a.isAlpha = true) : a.isDigit = false := by
  rw [← isDigit_toUpper, not_isDigit_toUpper h]

/-- What keeps a name of such characters from being an identifier is a digit at its start, or that
nothing is there. -/
theorem IsWord.isIdentifier_iff (h : IsWord s) :
    IsIdentifier s ↔ s.toList.head?.map Char.isDigit = some false := by
  unfold IsIdentifier
  unfold IsWord at h
  rcases hs : s.toList with _ | ⟨a, rest⟩
  · simp [isIdentifierChars]
  · rw [hs] at h
    obtain ⟨ha, hrest⟩ := List.forall_mem_cons.1 h
    rw [isIdentifierChars, List.all_eq_true.2 hrest, Bool.and_true]
    rw [List.head?_cons, Option.map_some, Option.some.injEq]
    constructor
    · intro hstart
      rcases Bool.or_eq_true_iff.1 hstart with halpha | hunder
      · exact not_isDigit_of_isAlpha halpha
      · rw [beq_iff_eq.1 hunder]
        rfl
    · intro hdigit
      rcases Bool.or_eq_true_iff.1 ha with ha | hunder
      · rcases Bool.or_eq_true_iff.1 ha with halpha | hdigit'
        · rw [halpha, Bool.true_or]
        · rw [hdigit] at hdigit'
          cases hdigit'
      · rw [hunder, Bool.or_true]

/-! ## Initials -/

/-- The first letter or digit of a text, in upper case. -/
def initial? (cs : List Char) : Option Char := (capitals cs).head?

/-- The first of the letters and digits of a text is a letter. -/
def HasInitial (cs : List Char) : Prop := ((initial? cs).any fun a => !a.isDigit) = true

/-- No digit is the first of the letters and digits of a text. -/
def Unnumbered (cs : List Char) : Prop := ((initial? cs).all fun a => !a.isDigit) = true

instance (cs : List Char) : Decidable (HasInitial cs) := inferInstanceAs (Decidable (_ = true))

instance (cs : List Char) : Decidable (Unnumbered cs) := inferInstanceAs (Decidable (_ = true))

theorem initial?_append (cs ds : List Char) :
    initial? (cs ++ ds) = (initial? cs).or (initial? ds) := by
  unfold initial?
  rw [capitals_append, List.head?_append]

theorem initial?_cons (ha : a.isAlphanum = true) (cs : List Char) :
    initial? (a :: cs) = some a.toUpper := by
  unfold initial?
  rw [capitals_cons, if_pos ha]
  rfl

theorem HasInitial.unnumbered (h : HasInitial cs) : Unnumbered cs := by
  unfold HasInitial at h
  unfold Unnumbered
  rcases hcs : initial? cs with _ | a
  · rfl
  · rwa [hcs] at h

theorem HasInitial.append (h : HasInitial cs) (ds : List Char) : HasInitial (cs ++ ds) := by
  unfold HasInitial at h ⊢
  rw [initial?_append]
  rcases hcs : initial? cs with _ | a
  · rw [hcs] at h
    cases h
  · rwa [hcs] at h

theorem Unnumbered.append (hcs : Unnumbered cs) (hds : Unnumbered ds) : Unnumbered (cs ++ ds) := by
  unfold Unnumbered at hcs hds ⊢
  rw [initial?_append]
  rcases ha : initial? cs with _ | a
  · exact hds
  · rwa [ha] at hcs

theorem Unnumbered.hasInitial_append (hcs : Unnumbered cs) (hds : HasInitial ds) :
    HasInitial (cs ++ ds) := by
  unfold Unnumbered at hcs
  unfold HasInitial at hds ⊢
  rw [initial?_append]
  rcases ha : initial? cs with _ | a
  · exact hds
  · rwa [ha] at hcs

theorem HasInitial.unnumbered_left (h : HasInitial (cs ++ ds)) : Unnumbered cs := by
  unfold HasInitial at h
  unfold Unnumbered
  rw [initial?_append] at h
  rcases ha : initial? cs with _ | a
  · rfl
  · rwa [ha] at h

theorem Unnumbered.hasInitial (h : Unnumbered cs) (hne : capitals cs ≠ []) : HasInitial cs := by
  obtain ⟨a, rest, heq⟩ := List.exists_cons_of_ne_nil hne
  have hinitial : initial? cs = some a := by rw [initial?, heq, List.head?_cons]
  unfold Unnumbered at h
  unfold HasInitial
  rw [hinitial] at h ⊢
  exact h

theorem unnumbered_of_not_isDigit (h : ∀ a ∈ cs, a.isDigit = false) : Unnumbered cs := by
  refine (Option.all_eq_true ..).2 fun a ha => ?_
  obtain ⟨b, hb, rfl⟩ := List.mem_map.1 (List.mem_of_head? ha)
  rw [isDigit_toUpper, h b (List.mem_filter.1 hb).1]
  rfl

/-- A name that starts with no underscore is an identifier if its first letter or digit is a
letter. -/
theorem IsWord.isIdentifier_iff_hasInitial (h : IsWord s) (hstart : s.toList.head? ≠ some '_') :
    IsIdentifier s ↔ HasInitial s.toList := by
  rw [h.isIdentifier_iff]
  unfold HasInitial
  rcases hs : s.toList with _ | ⟨a, rest⟩
  · simp [initial?, capitals]
  · have ha : a.isAlphanum = true := by
      refine (Bool.or_eq_true_iff.1 (h a (hs ▸ List.mem_cons_self ..))).elim id fun hunder => ?_
      rw [hs, beq_iff_eq.1 hunder] at hstart
      exact absurd rfl hstart
    rw [initial?_cons ha]
    simp [isDigit_toUpper]

theorem IsPlain.isIdentifier_iff (h : IsPlain s) : IsIdentifier s ↔ HasInitial s.toList :=
  h.isWord.isIdentifier_iff_hasInitial fun hhead =>
    h.not_mem (by decide) (List.mem_of_head? hhead)

/-! ## Converted names -/

@[simp] theorem hasInitial_pascal (s : String) :
    HasInitial (pascal s).toList ↔ HasInitial s.toList := by
  unfold HasInitial initial?
  rw [capitals_pascal]

@[simp] theorem unnumbered_pascal (s : String) :
    Unnumbered (pascal s).toList ↔ Unnumbered s.toList := by
  unfold Unnumbered initial?
  rw [capitals_pascal]

@[simp] theorem hasInitial_snake (s : String) :
    HasInitial (snake s).toList ↔ HasInitial s.toList := by
  unfold HasInitial initial? snake
  rw [String.toList_ofList, capitals_snakeChars]

/-- A name in Pascal case is an identifier if the first letter or digit of the text is a letter. -/
theorem isIdentifier_pascal_iff (s : String) : IsIdentifier (pascal s) ↔ HasInitial s.toList :=
  (pascal_plain s).isIdentifier_iff.trans (hasInitial_pascal s)

theorem fieldName_isWord (s : String) : IsWord (fieldName s) := by
  intro a ha
  rw [fieldName_eq_snake, snake, String.toList_ofList] at ha
  rcases (snakeChars_worded s.toList).chars a ha with hword | rfl
  · exact Bool.or_eq_true_iff.2 (.inl hword)
  · rfl

/-- So is the name of a field. -/
theorem isIdentifier_fieldName_iff (s : String) :
    IsIdentifier (fieldName s) ↔ HasInitial s.toList := by
  rw [(fieldName_isWord s).isIdentifier_iff_hasInitial, fieldName_eq_snake, hasInitial_snake]
  rw [fieldName_eq_snake, snake, String.toList_ofList]
  exact (snakeChars_worded s.toList).start

/-- A procedure has the name of its verb and its path, which starts with a letter, or that of its
identifier. -/
theorem isIdentifier_endpointName_iff (verb : Document.Verb) (path identifier : String) :
    IsIdentifier (endpointName verb.word path identifier) ↔
      identifier.isEmpty = true ∨ HasInitial identifier.toList := by
  rw [(endpointName_plain verb.word path identifier).isIdentifier_iff]
  unfold endpointName
  rcases identifier.isEmpty with _ | _
  · have hname : operationName identifier = pascal (snake identifier) := by
      rw [operationName, pascal, snake, String.toList_ofList]
    rw [if_neg Bool.false_ne_true, hname, hasInitial_pascal, hasInitial_snake]
    simp
  · rw [if_pos rfl, String.toList_ofList]
    have hverb : HasInitial (pascalChars verb.word.toList) := by
      cases verb <;> decide
    exact iff_of_true (hverb.append _) (.inl rfl)

/-! ## Upper case -/

theorem not_isDigit_ofNat {n : Nat} (h : 57 < n) : (Char.ofNat n).isDigit = false := by
  rcases Decidable.em n.isValidChar with hvalid | hinvalid
  · rw [show Char.ofNat n = Char.ofNatAux n hvalid from dif_pos hvalid]
    refine Bool.eq_false_iff.2 fun hdigit => ?_
    have hhi : n ≤ 57 := of_decide_eq_true (Bool.and_eq_true_iff.1 hdigit).2
    omega
  · rw [show Char.ofNat n = _ from dif_neg hinvalid]
    rfl

theorem upperExpansions_wide :
    (upperExpansions.all fun (_, us) => !us.isEmpty && us.all (57 < ·)) = true := by
  decide +kernel

theorem upperRuns_wide :
    (upperRuns.all fun (first, _, _, distance) => decide ((57 : Int) < first + distance)) = true := by
  decide +kernel

/-- Upper case makes no digits of other characters. -/
theorem not_isDigit_upper (h : a.isDigit = false) : ∀ b ∈ upper a, b.isDigit = false := by
  intro b hb
  unfold upper at hb
  split at hb
  · rw [List.mem_singleton.1 hb, isDigit_toUpper, h]
  · unfold upperWide at hb
    dsimp only at hb
    split at hb
    · next us hus =>
      obtain ⟨u, hu, rfl⟩ := List.mem_map.1 hb
      have hwide := List.all_eq_true.1 upperExpansions_wide _ (Proto.mem_of_lookup hus)
      exact not_isDigit_ofNat (of_decide_eq_true
        (List.all_eq_true.1 (Bool.and_eq_true_iff.1 hwide).2 u hu))
    · split at hb
      · next first last step distance hfound =>
        obtain rfl := List.mem_singleton.1 hb
        have hwide := List.all_eq_true.1 upperRuns_wide _ (List.mem_of_find?_eq_some hfound)
        have hfirst := List.find?_some hfound
        have hwide : (57 : Int) < first + distance := of_decide_eq_true hwide
        simp only [Bool.and_eq_true, decide_eq_true_eq] at hfirst
        exact not_isDigit_ofNat (by omega)
      · rw [List.mem_singleton.1 hb, h]

theorem upper_ne_nil (a : Char) : upper a ≠ [] := by
  unfold upper
  split
  · exact List.cons_ne_nil _ _
  · unfold upperWide
    dsimp only
    split
    · next us hus =>
      have hwide := List.all_eq_true.1 upperExpansions_wide _ (Proto.mem_of_lookup hus)
      have hne := (Bool.and_eq_true_iff.1 hwide).1
      simpa using hne
    · split <;> exact List.cons_ne_nil _ _

theorem toNat_of_isAlphanum (h : a.isAlphanum = true) : 48 ≤ a.toNat ∧ a.toNat ≤ 122 := by
  rcases Bool.or_eq_true_iff.1 h with h | h
  · rcases Bool.or_eq_true_iff.1 h with h | h
    · obtain ⟨hlo, hhi, -⟩ := toNat_toLower h
      exact ⟨by show 48 ≤ a.val.toNat; omega, by show a.val.toNat ≤ 122; omega⟩
    · have hlo : 97 ≤ a.val.toNat := of_decide_eq_true (Bool.and_eq_true_iff.1 h).1
      have hhi : a.val.toNat ≤ 122 := of_decide_eq_true (Bool.and_eq_true_iff.1 h).2
      exact ⟨by show 48 ≤ a.val.toNat; omega, hhi⟩
  · have hlo : 48 ≤ a.val.toNat := of_decide_eq_true (Bool.and_eq_true_iff.1 h).1
    have hhi : a.val.toNat ≤ 57 := of_decide_eq_true (Bool.and_eq_true_iff.1 h).2
    exact ⟨hlo, by show a.val.toNat ≤ 122; omega⟩

theorem upper_of_isAlphanum (h : a.isAlphanum = true) : upper a = [a.toUpper] := by
  obtain ⟨-, hhi⟩ := toNat_of_isAlphanum h
  exact if_pos (by omega)

theorem not_isBlank_of_isAlphanum (h : a.isAlphanum = true) : isBlank a = false := by
  obtain ⟨hlo, hhi⟩ := toNat_of_isAlphanum h
  refine Bool.eq_false_iff.2 fun hblank => ?_
  simp only [isBlank, Bool.or_eq_true, Bool.and_eq_true, decide_eq_true_eq, beq_iff_eq] at hblank
  omega

/-! ## Titles -/

theorem Unnumbered.of_cons (h : Unnumbered (a :: cs)) (ha : a.isAlphanum = false) :
    Unnumbered cs := by
  unfold Unnumbered initial? at h ⊢
  rwa [capitals_cons, if_neg (by simp [ha])] at h

theorem not_isAlphanum_of_isBlank (h : isBlank a = true) : a.isAlphanum = false := by
  refine Bool.eq_false_iff.2 fun ha => ?_
  rw [not_isBlank_of_isAlphanum ha] at h
  cases h

/-- A character of a title stays or becomes upper case, so digits do not come first. -/
theorem Unnumbered.cons_of_piece {piece : List Char} (h : Unnumbered (a :: cs))
    (hpiece : piece = [a] ∨ piece = upper a) (hds : Unnumbered cs → Unnumbered ds) :
    Unnumbered (piece ++ ds) := by
  rcases ha : a.isAlphanum with _ | _
  · have hdigit : a.isDigit = false := (Bool.or_eq_false_iff.1 ha).2
    refine (unnumbered_of_not_isDigit fun b hb => ?_).append (hds (h.of_cons ha))
    rcases hpiece with rfl | rfl
    · rwa [List.mem_singleton.1 hb]
    · exact not_isDigit_upper hdigit b hb
  · have hinitial : HasInitial piece := by
      unfold Unnumbered at h
      rw [initial?_cons ha] at h
      unfold HasInitial
      rcases hpiece with rfl | rfl
      · rwa [initial?_cons ha]
      · rw [upper_of_isAlphanum ha, initial?_cons (isAlphanum_toUpper ha), toUpper_toUpper]
        exact h
    exact (hinitial.append ds).unnumbered

theorem joinWordsFrom_unnumbered (title : Bool) (h : Unnumbered cs) (spaced : Bool) :
    Unnumbered (joinWordsFrom title spaced cs) := by
  induction cs generalizing spaced with
  | nil => rfl
  | cons a rest ih =>
    rw [joinWordsFrom]
    split
    · next hblank => exact ih (h.of_cons (not_isAlphanum_of_isBlank hblank)) true
    · refine h.cons_of_piece ?_ fun hrest => ih hrest false
      split
      · exact .inr rfl
      · exact .inl rfl

theorem joinWords_unnumbered (title : Bool) (h : Unnumbered cs) :
    Unnumbered (joinWords title cs) := by
  cases cs with
  | nil => rfl
  | cons a rest =>
    rw [joinWords]
    split
    · next hblank =>
      exact joinWordsFrom_unnumbered title (h.of_cons (not_isAlphanum_of_isBlank hblank)) true
    · exact h.cons_of_piece (.inr rfl) fun hrest => joinWordsFrom_unnumbered title hrest false

theorem serviceName_plain (title : String) : IsPlain (serviceName title) := by
  intro a ha
  rw [serviceName, String.toList_ofList] at ha
  exact pascalChars_plain _ a ha

/-- The name of a service is an identifier if the title has a letter before all digits, or no
digits. -/
theorem isIdentifier_serviceName {title : String} (h : Unnumbered title.toList) :
    IsIdentifier (serviceName title) := by
  have hpascal : serviceName title =
      pascal (String.ofList (joinWords true title.toList ++ "Service".toList)) :=
    congrArg (fun cs => String.ofList (pascalChars cs)) String.toList_ofList.symm
  rw [hpascal, isIdentifier_pascal_iff, String.toList_ofList]
  exact (joinWords_unnumbered true h).hasInitial_append (by decide)

/-- The first character of a title that is not blank. -/
def firstMark? (title : String) : Option Char := title.toList.find? fun a => !isBlank a

theorem head?_clean (cs : List Char) :
    (clean cs).head?.map Char.isDigit = cs.head?.map Char.isDigit := by
  cases cs with
  | nil => rfl
  | cons a rest =>
    show some (if a.isAlphanum then a else '_').isDigit = some a.isDigit
    split
    · rfl
    · next ha =>
      have hdigit : a.isDigit = false := (Bool.or_eq_false_iff.1 (Bool.eq_false_iff.2 ha)).2
      rw [hdigit]
      rfl

theorem isDigit_toLower (a : Char) : a.toLower.isDigit = a.isDigit := by
  rw [← isDigit_toUpper, toUpper_toLower, isDigit_toUpper]

theorem head?_flatMap_lowerAscii (cs : List Char) :
    (cs.flatMap lowerAscii).head?.map Char.isDigit = cs.head?.map Char.isDigit := by
  cases cs with
  | nil => rfl
  | cons a rest =>
    rw [List.flatMap_cons]
    unfold lowerAscii
    split
    · next ha =>
      rw [show a = Char.ofNat 0x130 from Char.ext (UInt32.toNat_inj.1 ha)]
      rfl
    · split
      · next ha =>
        rw [show a = Char.ofNat 0x212A from Char.ext (UInt32.toNat_inj.1 ha)]
        rfl
      · show some a.toLower.isDigit = some a.isDigit
        rw [isDigit_toLower]

theorem head?_joinWordsFrom (cs : List Char) (spaced : Bool) :
    (joinWordsFrom false spaced cs).head? = cs.find? fun a => !isBlank a := by
  induction cs generalizing spaced with
  | nil => rfl
  | cons a rest ih =>
    rw [joinWordsFrom, List.find?_cons]
    rcases isBlank a with _ | _
    · simp
    · exact ih true

theorem head?_upper (a : Char) : (upper a).head?.map Char.isDigit = some a.isDigit := by
  rcases hupper : upper a with _ | ⟨b, rest⟩
  · exact absurd hupper (upper_ne_nil a)
  · show some b.isDigit = some a.isDigit
    rcases hdigit : a.isDigit with _ | _
    · rw [not_isDigit_upper hdigit b (hupper ▸ List.mem_cons_self ..)]
    · have ha : a.isAlphanum = true := Bool.or_eq_true_iff.2 (.inr hdigit)
      rw [upper_of_isAlphanum ha] at hupper
      rw [← (List.cons.inj hupper).1, isDigit_toUpper, hdigit]

theorem head?_joinWords (cs : List Char) :
    (joinWords false cs).head?.map Char.isDigit =
      (cs.find? fun a => !isBlank a).map Char.isDigit := by
  cases cs with
  | nil => rfl
  | cons a rest =>
    rw [joinWords, List.find?_cons]
    rcases isBlank a with _ | _
    · show (upper a ++ _).head?.map Char.isDigit = some a.isDigit
      rw [← head?_upper]
      rcases hupper : upper a with _ | ⟨b, more⟩
      · exact absurd hupper (upper_ne_nil a)
      · rfl
    · exact congrArg _ (head?_joinWordsFrom rest true)

theorem packageName_isWord (title : String) : IsWord (packageName title) := by
  intro a ha
  rw [packageName, String.toList_ofList] at ha
  obtain ⟨b, -, rfl⟩ := List.mem_map.1 ha
  show isWordChar (if b.isAlphanum then b else '_') = true
  split
  · next hb => exact Bool.or_eq_true_iff.2 (.inl hb)
  · rfl

/-- The name of a package is an identifier if something comes first in the title that is no
digit. -/
theorem isIdentifier_packageName_iff (title : String) :
    IsIdentifier (packageName title) ↔ ∃ a, firstMark? title = some a ∧ a.isDigit = false := by
  rw [(packageName_isWord title).isIdentifier_iff, packageName, String.toList_ofList, head?_clean,
    head?_flatMap_lowerAscii, head?_joinWords]
  exact Option.map_eq_some_iff

/-- A title with text in which no digit comes before all letters gives a package a name. -/
theorem isIdentifier_packageName {title : String} (htext : (strip title).isEmpty = false)
    (h : Unnumbered title.toList) : IsIdentifier (packageName title) := by
  rw [isIdentifier_packageName_iff]
  rcases hfirst : firstMark? title with _ | a
  · have hblank : title.toList.dropWhile isBlank = [] :=
      List.dropWhile_eq_nil_iff.2 fun b hb => by simpa using List.find?_eq_none.1 hfirst b hb
    rw [strip, stripBlank, hblank] at htext
    cases htext
  · refine ⟨a, rfl, Bool.eq_false_iff.2 fun hdigit => ?_⟩
    have ha : a.isAlphanum = true := Bool.or_eq_true_iff.2 (.inr hdigit)
    -- the digit would be the first of all letters and digits
    obtain ⟨-, before, after, htitle, hbefore⟩ := List.find?_eq_some_iff_append.1 hfirst
    have hcapitals : capitals before = [] := by
      rw [capitals, List.map_eq_nil_iff, List.filter_eq_nil_iff]
      intro b hb
      rw [not_isAlphanum_of_isBlank (by simpa using hbefore b hb)]
      exact Bool.false_ne_true
    unfold Unnumbered at h
    rw [htitle, initial?_append, initial?, hcapitals, List.head?_nil, Option.none_or,
      initial?_cons ha, Option.all_some, isDigit_toUpper, hdigit] at h
    cases h

end ApiProto.Name
