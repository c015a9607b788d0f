import ApiProto.Proofs.Capitals

/-!
# Breaks between words

Snake case says where the words of a text begin by looking at the neighbours of each character. The
same breaks come out when the text is read once from left to right, by counting capitals and by
taking back the last letter when a row of capitals turns out to have ended before it.

* `wordsBetween`, `wordsOf_eq_intercalate` — the text that is broken: its words, joined.
* `BreaksAt`, `breakWords_eq_flatten` — the places of breaks.
* `Scan`, `scan_eq_breakWords` — one pass over the text.
* `snake_breaks_words` — what snake case is.
-/

namespace ApiProto.Name

open Text

variable {cs rest : List Char} {a b c : Char} {before after : Option Char}

/-! ## Joined words -/

/-- The words between underscores. -/
def wordsBetween (cs : List Char) : List (List Char) :=
  (cs.splitOn '_').filter fun word => !word.isEmpty

theorem splitOn_underscore (cs : List Char) :
    ('_' :: cs).splitOn '_' = [] :: cs.splitOn '_' := by
  rw [List.splitOn_cons_eq_if_modifyHead, if_pos (beq_self_eq_true _)]

theorem splitOn_letter (hc : c ≠ '_') (cs : List Char) : ∃ word words,
    cs.splitOn '_' = word :: words ∧ (c :: cs).splitOn '_' = (c :: word) :: words := by
  obtain ⟨word, words, hcs⟩ := List.exists_cons_of_ne_nil (List.splitOn_ne_nil '_' cs)
  refine ⟨word, words, hcs, ?_⟩
  rw [List.splitOn_cons_eq_if_modifyHead, if_neg (by simpa using hc), hcs, List.modifyHead_cons]

@[simp] theorem wordsBetween_underscore (cs : List Char) :
    wordsBetween ('_' :: cs) = wordsBetween cs := by
  rw [wordsBetween, splitOn_underscore]
  rfl

/-- Runs of underscores separate as single ones do. -/
theorem splitOn_squeeze (cs : List Char) : ∃ word words words',
    cs.splitOn '_' = word :: words ∧ (squeeze '_' cs).splitOn '_' = word :: words' ∧
      (words.filter fun w => !w.isEmpty) = words'.filter fun w => !w.isEmpty := by
  induction cs with
  | nil => exact ⟨[], [], [], rfl, rfl, rfl⟩
  | cons c rest ih =>
    obtain ⟨word, words, words', hrest, hsqueeze, heq⟩ := ih
    rw [squeeze]
    by_cases hc : c = '_'
    · subst hc
      rw [splitOn_underscore, hrest]
      split
      · next hrun =>
        obtain ⟨rest', rfl⟩ : ∃ rest', rest = '_' :: rest' :=
          ⟨rest.tail, (List.cons_head?_tail hrun.2).symm⟩
        obtain rfl : [] = word := (List.cons.inj ((splitOn_underscore rest').symm.trans hrest)).1
        exact ⟨[], _, _, rfl, hsqueeze, heq⟩
      · refine ⟨[], _, _, rfl, (splitOn_underscore _).trans (congrArg _ hsqueeze), ?_⟩
        rw [List.filter_cons, List.filter_cons, heq]
    · rw [if_neg fun h => hc h.1]
      obtain ⟨w, ws, hw, hws⟩ := splitOn_letter hc rest
      obtain ⟨v, vs, hv, hvs⟩ := splitOn_letter hc (squeeze '_' rest)
      obtain ⟨rfl, rfl⟩ := List.cons.inj (hw.symm.trans hrest)
      obtain ⟨rfl, rfl⟩ := List.cons.inj (hv.symm.trans hsqueeze)
      exact ⟨_, _, _, hws, hvs, heq⟩

@[simp] theorem wordsBetween_squeeze (cs : List Char) :
    wordsBetween (squeeze '_' cs) = wordsBetween cs := by
  obtain ⟨word, words, words', hcs, hsqueeze, heq⟩ := splitOn_squeeze cs
  rw [wordsBetween, wordsBetween, hcs, hsqueeze, List.filter_cons, List.filter_cons, heq]

@[simp] theorem wordsBetween_dropWhile (cs : List Char) :
    wordsBetween (cs.dropWhile (· == '_')) = wordsBetween cs := by
  induction cs with
  | nil => rfl
  | cons c rest ih =>
    rw [List.dropWhile_cons]
    split
    · next hc =>
      obtain rfl := eq_of_beq hc
      rw [ih, wordsBetween_underscore]
    · rfl

theorem wordsBetween_concat (cs : List Char) : wordsBetween (cs ++ ['_']) = wordsBetween cs := by
  have hsplit : (cs ++ ['_']).splitOn '_' = cs.splitOn '_' ++ [[]] :=
    List.splitOnP_append_cons cs [] (beq_self_eq_true '_')
  rw [wordsBetween, hsplit, List.filter_append]
  exact List.append_nil _

@[simp] theorem wordsBetween_dropEndWhile (cs : List Char) :
    wordsBetween (dropEndWhile (· == '_') cs) = wordsBetween cs := by
  unfold dropEndWhile
  induction cs using List.reverseRecOn with
  | nil => rfl
  | append_singleton cs c ih =>
    rw [List.reverse_append, List.reverse_singleton, List.singleton_append, List.dropWhile_cons]
    split
    · next hc =>
      obtain rfl := eq_of_beq hc
      rw [ih, wordsBetween_concat]
    · rw [List.reverse_cons, List.reverse_reverse]

/-- Single underscores inside leave no empty words. -/
theorem splitOn_nonempty (hsingle : cs.IsChain Apart) (hfinish : cs.getLast? ≠ some '_') :
    ∃ word words, cs.splitOn '_' = word :: words ∧ (word = [] → cs = [] ∨ cs.head? = some '_') ∧
      ∀ w ∈ words, w ≠ [] := by
  induction cs with
  | nil => exact ⟨[], [], rfl, fun _ => .inl rfl, nofun⟩
  | cons c rest ih =>
    obtain ⟨hfirst, hrest⟩ := List.isChain_cons.1 hsingle
    have hend : rest.getLast? ≠ some '_' := by
      intro h
      rw [List.getLast?_cons, h] at hfinish
      exact hfinish rfl
    obtain ⟨word, words, hsplit, hword, hwords⟩ := ih hrest hend
    by_cases hc : c = '_'
    · subst hc
      refine ⟨[], _, splitOn_underscore rest, fun _ => .inr rfl, ?_⟩
      rw [hsplit]
      refine List.forall_mem_cons.2 ⟨fun hempty => ?_, hwords⟩
      rcases hword hempty with rfl | hhead
      · exact hfinish rfl
      · exact (hfirst '_' hhead).elim (· rfl) (· rfl)
    · obtain ⟨w, ws, hw, hws⟩ := splitOn_letter hc rest
      obtain ⟨rfl, rfl⟩ := List.cons.inj (hw.symm.trans hsplit)
      exact ⟨_, _, hws, nofun, hwords⟩

/-- What is worded consists of its words, joined by underscores. -/
theorem Worded.eq_intercalate (h : Worded cs) : cs = ['_'].intercalate (wordsBetween cs) := by
  obtain ⟨word, words, hsplit, hword, hwords⟩ := splitOn_nonempty h.single h.finish
  have hkept : (words.filter fun w => !w.isEmpty) = words :=
    List.filter_eq_self.2 fun w hw => by simpa using hwords w hw
  rw [wordsBetween, hsplit, List.filter_cons, hkept]
  split
  · rw [← hsplit, List.intercalate_splitOn]
  · next hempty =>
    rcases hword (by simpa using hempty) with rfl | hhead
    · rw [(List.cons.inj (hsplit.symm.trans (List.splitOn_nil '_'))).2]
      rfl
    · exact absurd hhead h.start

/-- The text that is broken into words has the words of the given one, separated by single
underscores. -/
theorem wordsOf_eq_intercalate (cs : List Char) :
    wordsOf cs = ['_'].intercalate (wordsBetween (keepWords cs)) := by
  have hwords : wordsBetween (wordsOf cs) = wordsBetween (keepWords cs) := by
    rw [wordsOf, trimUnderscores, wordsBetween_dropEndWhile, wordsBetween_dropWhile,
      wordsBetween_squeeze]
  rw [← hwords]
  exact (wordsOf_worded cs).eq_intercalate

/-! ## Places of breaks -/

/-- A break comes before the character with index `i`: an upper-case letter that follows neither an
underscore nor another upper-case letter, or that comes before a letter or digit which is not upper
case. -/
def BreaksAt (cs : List Char) (i : Nat) : Prop :=
  0 < i ∧ (cs[i]?.any Char.isUpper) = true ∧ cs[i - 1]? ≠ some '_' ∧
    ((cs[i - 1]?.any Char.isUpper) = false ∨
      (cs[i + 1]?.any fun c => c.isAlphanum && !c.isUpper) = true)

instance (cs : List Char) (i : Nat) : Decidable (BreaksAt cs i) :=
  inferInstanceAs (Decidable (_ ∧ _ ∧ _ ∧ (_ ∨ _)))

/-- A character in lower case, after an underscore if it starts a word. -/
def marked (before : Option Char) (c : Char) (after : Option Char) : List Char :=
  if startsWord before c after then ['_', c.toLower] else [c.toLower]

/-- Breaks words in a text that stands between other characters. -/
def breakBetween (before after : Option Char) : List Char → List Char
  | [] => []
  | c :: rest => marked before c (rest.head?.or after) ++ breakBetween (some c) after rest

theorem breakBetween_none (before : Option Char) (cs : List Char) :
    breakBetween before none cs = breakWords before cs := by
  induction cs generalizing before with
  | nil => rfl
  | cons c rest ih =>
    rw [breakBetween, breakWords, ih, Option.or_none, marked]
    split <;> rfl

theorem breakBetween_concat (before after : Option Char) (cs : List Char) (c : Char) :
    breakBetween before after (cs ++ [c]) =
      breakBetween before (some c) cs ++ marked (cs.getLast?.or before) c after := by
  induction cs generalizing before with
  | nil => exact List.append_nil _
  | cons d cs ih =>
    rw [List.cons_append, breakBetween, breakBetween, ih, List.append_assoc, List.getLast?_cons]
    congr 2
    · cases cs <;> rfl
    · cases cs.getLast? <;> rfl

/-- The characters before which a word starts are those at the places of breaks. -/
theorem breaksAt_iff (cs : List Char) (c : Char) (rest : List Char) :
    BreaksAt (cs ++ c :: rest) cs.length ↔ startsWord cs.getLast? c rest.head? = true := by
  rcases List.eq_nil_or_concat cs with rfl | ⟨cs, b, rfl⟩
  · simp [BreaksAt, startsWord]
  · have hbefore : (cs ++ [b] ++ c :: rest)[cs.length]? = some b := by simp
    have hhere : (cs ++ [b] ++ c :: rest)[cs.length + 1]? = some c := by simp
    have hafter : (cs ++ [b] ++ c :: rest)[cs.length + 1 + 1]? = rest.head? := by
      rw [List.getElem?_append_right (by simp)]
      cases rest <;> simp
    simp only [BreaksAt, List.concat_eq_append, List.length_append, List.length_singleton,
      Nat.add_sub_cancel, hbefore, hhere, hafter, startsWord, List.getLast?_concat]
    cases rest.head? <;> simp [isLowerWord, and_assoc]

theorem breakBetween_eq_flatten (cs rest : List Char) :
    breakBetween cs.getLast? none rest = ((rest.mapIdx fun i c =>
      if BreaksAt (cs ++ rest) (cs.length + i) then ['_', c.toLower] else [c.toLower])).flatten := by
  induction rest generalizing cs with
  | nil => rfl
  | cons c rest ih =>
    have hnext := ih (cs ++ [c])
    rw [List.getLast?_concat, List.append_assoc, List.singleton_append, List.length_append,
      List.length_singleton] at hnext
    rw [breakBetween, hnext, List.mapIdx_cons, List.flatten_cons, Option.or_none, marked]
    simp only [Nat.add_zero, breaksAt_iff, Nat.add_assoc, Nat.add_comm 1]

/-- An underscore comes before each place of a break. -/
theorem breakWords_eq_flatten (cs : List Char) : breakWords none cs =
    (cs.mapIdx fun i c => if BreaksAt cs i then ['_', c.toLower] else [c.toLower]).flatten := by
  rw [← breakBetween_none]
  simpa using breakBetween_eq_flatten [] cs

/-! ## One pass -/

/-- What is known while a text is read from left to right. -/
structure Scan where
  /-- The characters that have been read, the last one first. -/
  read : List Char
  /-- What has been written, the last character first. -/
  written : List Char
  /-- The capitals since the last other letter or digit; underscores do not count. -/
  capitals : Nat
  /-- Whether an underscore has been written last. -/
  atBreak : Bool

namespace Scan

/-- Nothing has been read. -/
def start : Scan := ⟨[], [], 0, false⟩

/-- Moves the last letter into a new word, if it and the one before it stand next to each other. -/
def takeBack (s : Scan) : List Char :=
  match s.read with
  | b :: a :: _ => if a ≠ '_' ∧ b ≠ '_' then b.toLower :: '_' :: s.written.tail else s.written
  | _ => s.written

/-- Reads a character. -/
def next (s : Scan) (c : Char) : Scan :=
  if !c.isAlphanum then
    if s.atBreak then { s with read := c :: s.read }
    else { s with read := c :: s.read, written := '_' :: s.written, atBreak := true }
  else if c.isUpper then
    { read := c :: s.read
      written := c.toLower ::
        if s.capitals = 0 ∧ s.written ≠ [] ∧ s.atBreak = false then '_' :: s.written else s.written
      capitals := s.capitals + 1
      atBreak := false }
  else
    { read := c :: s.read
      written := c.toLower ::
        if 1 < s.capitals ∧ s.written.length ≠ 1 then s.takeBack else s.written
      capitals := 0
      atBreak := false }

/-- What is written when a whole text is read. -/
def run (cs : List Char) : List Char := (cs.foldl next start).written.reverse

end Scan

/-- The capitals at the start of a text, without the underscores between them. -/
def capitalsOf (cs : List Char) : Nat :=
  (cs.takeWhile fun c => c.isUpper || c == '_').countP Char.isUpper

theorem capitalsOf_capital (hc : c.isUpper = true) (cs : List Char) :
    capitalsOf (c :: cs) = capitalsOf cs + 1 := by
  simp [capitalsOf, hc]

theorem capitalsOf_underscore (cs : List Char) : capitalsOf ('_' :: cs) = capitalsOf cs := by
  simp [capitalsOf]

theorem capitalsOf_other (hc : c.isUpper = false) (hword : c ≠ '_') (cs : List Char) :
    capitalsOf (c :: cs) = 0 := by
  simp [capitalsOf, hc, hword]

/-- More than one capital is open after two letters or digits only if both are capitals. -/
theorem one_lt_capitalsOf (ha : a ≠ '_') (hb : b ≠ '_') (cs : List Char) :
    1 < capitalsOf (b :: a :: cs) ↔ a.isUpper = true ∧ b.isUpper = true := by
  rcases hupperb : b.isUpper with _ | _
  · simp [capitalsOf_other hupperb hb]
  · rw [capitalsOf_capital hupperb]
    rcases huppera : a.isUpper with _ | _
    · simp [capitalsOf_other huppera ha]
    · simp [capitalsOf_capital huppera]

/-- What comes after a character matters if it is a capital after a capital. -/
theorem marked_capital (hc : isLowerWord c = true) : marked (some a) b (some c) =
    if a.isUpper = true ∧ b.isUpper = true then ['_', b.toLower] else marked (some a) b none := by
  rcases ha : a.isUpper with _ | _
  · simp [marked, startsWord, ha]
  · rcases hb : b.isUpper with _ | _
    · simp [marked, startsWord, hb]
    · have hne : a ≠ '_' := by
        rintro rfl
        cases ha
      simp [marked, startsWord, ha, hb, hne, hc]

/-- What is known when some characters have been read: what is written is broken as if nothing came
after them. -/
structure Scanned (cs : List Char) (s : Scan) : Prop where
  read : s.read = cs.reverse
  written : s.written = (breakBetween none none cs).reverse
  capitals : s.capitals = capitalsOf cs.reverse
  atBreak : s.atBreak = true ↔ cs.getLast? = some '_'

theorem marked_of_isUpper_false (hc : c.isUpper = false) (before after : Option Char) :
    marked before c after = [c.toLower] := by
  rw [marked, if_neg]
  cases before <;> simp [startsWord, hc]

/-- Only a letter or digit that is not upper case tells something about the character before it. -/
theorem breakBetween_some (hc : isLowerWord c = false) (before : Option Char) (cs : List Char) :
    breakBetween before (some c) cs = breakBetween before none cs := by
  rcases List.eq_nil_or_concat cs with rfl | ⟨cs, b, rfl⟩
  · rfl
  · rw [List.concat_eq_append, breakBetween_concat, breakBetween_concat]
    cases cs.getLast?.or before <;> simp [marked, startsWord, hc]

theorem length_le_breakBetween (before after : Option Char) (cs : List Char) :
    cs.length ≤ (breakBetween before after cs).length := by
  induction cs generalizing before with
  | nil => exact Nat.le_refl _
  | cons c rest ih =>
    have hrest := ih (some c)
    rw [breakBetween, List.length_append, List.length_cons, marked]
    split <;> simp only [List.length_cons, List.length_nil] <;> omega

namespace Scanned

variable {s : Scan} (h : Scanned cs s)
include h

/-- An underscore is written as it is; no two follow each other. -/
theorem underscore (hlast : cs.getLast? ≠ some '_') : Scanned (cs ++ ['_']) (s.next '_') := by
  have hfresh : s.atBreak = false := by simpa using mt h.atBreak.1 hlast
  have hnext : s.next '_' =
      { s with read := '_' :: s.read, written := '_' :: s.written, atBreak := true } := by
    simp [Scan.next, hfresh]
  rw [hnext]
  constructor
  · simp [h.read]
  · have hmark : marked (cs.getLast?.or none) '_' none = ['_'] := marked_of_isUpper_false rfl ..
    rw [breakBetween_concat, breakBetween_some rfl, hmark, List.reverse_append, ← h.written]
    rfl
  · rw [List.reverse_append, List.reverse_singleton, List.singleton_append, capitalsOf_underscore]
    exact h.capitals
  · simp

/-- A capital starts a word after a letter or digit that is none. -/
theorem capital (hc : c.isUpper = true) (hword : c.isAlphanum = true) :
    Scanned (cs ++ [c]) (s.next c) := by
  have hstarts : (s.capitals = 0 ∧ s.written ≠ [] ∧ s.atBreak = false) ↔
      startsWord (cs.getLast?.or none) c none = true := by
    rw [h.capitals, h.written, Option.or_none, ← Bool.not_eq_true, h.atBreak]
    rcases List.eq_nil_or_concat cs with rfl | ⟨cs, b, rfl⟩
    · simp [breakBetween, startsWord]
    · have hsome : (breakBetween none none (cs ++ [b])).reverse ≠ [] := by
        rw [breakBetween_concat, marked]
        split <;> simp
      rw [List.concat_eq_append, List.getLast?_concat, List.reverse_append, List.reverse_singleton,
        List.singleton_append]
      simp only [hsome, ne_eq, not_false_eq_true, true_and, startsWord, hc, Bool.true_and,
        Option.any_none, Bool.or_false, Bool.and_eq_true, bne_iff_ne, Option.some.injEq]
      rw [and_comm]
      refine and_congr_right fun hb => ?_
      rcases hupper : b.isUpper with _ | _
      · simp [capitalsOf_other hupper hb]
      · simp [capitalsOf_capital hupper]
  have hlower : isLowerWord c = false := by simp [isLowerWord, hc]
  constructor
  · simp [Scan.next, hc, hword, h.read]
  · rw [breakBetween_concat, breakBetween_some hlower, List.reverse_append, ← h.written, marked]
    simp only [Scan.next, hword, hc, Bool.not_true, Bool.false_eq_true, if_false, if_true, hstarts]
    split <;> simp
  · rw [List.reverse_append, List.reverse_singleton, List.singleton_append, capitalsOf_capital hc]
    simp [Scan.next, hc, hword, h.capitals]
  · have hne : c ≠ '_' := by
      rintro rfl
      cases hc
    simp [Scan.next, hc, hword, hne]

/-- The last letter is taken back if it and the one before it are capitals. -/
theorem takeBack_eq {r : List Char} (hread : s.read = b :: a :: r) :
    (if 1 < s.capitals ∧ s.written.length ≠ 1 then s.takeBack else s.written) =
      if a.isUpper = true ∧ b.isUpper = true then b.toLower :: '_' :: s.written.tail
      else s.written := by
  have hlength : s.written.length ≠ 1 := by
    have hle := length_le_breakBetween none none cs
    have hwritten : s.written.length = (breakBetween none none cs).length := by
      rw [h.written, List.length_reverse]
    have hcs : cs.length = r.length + 2 := by
      rw [← List.length_reverse, ← h.read, hread]
      rfl
    omega
  rw [Scan.takeBack, hread, h.capitals, ← h.read, hread]
  by_cases hne : a ≠ '_' ∧ b ≠ '_'
  · simp only [one_lt_capitalsOf hne.1 hne.2, hlength, hne, ne_eq, not_false_eq_true, and_self,
      and_true, if_true]
  · have hnone : ¬ (a.isUpper = true ∧ b.isUpper = true) := by
      rintro ⟨ha, hb⟩
      refine hne ⟨?_, ?_⟩ <;> rintro rfl
      · cases ha
      · cases hb
    simp only [hne, hnone, if_false, ite_self]

/-- After a row of capitals the last of them starts the word of another letter or digit. -/
theorem written_other (hc : c.isUpper = false) (hword : c.isAlphanum = true) :
    (if 1 < s.capitals ∧ s.written.length ≠ 1 then s.takeBack else s.written) =
      (breakBetween none (some c) cs).reverse := by
  rcases List.eq_nil_or_concat cs with rfl | ⟨cs, b, rfl⟩
  · rw [if_neg fun hrow => by simp [h.capitals, capitalsOf] at hrow, h.written]
    rfl
  rw [List.concat_eq_append] at h ⊢
  have hread := h.read
  have hwritten := h.written
  rw [breakBetween_concat, List.reverse_append] at hwritten
  rw [breakBetween_concat, List.reverse_append]
  rcases List.eq_nil_or_concat cs with rfl | ⟨cs, a, rfl⟩
  · -- The only letter starts no word, whatever comes after it.
    have hback : s.takeBack = s.written := by rw [Scan.takeBack, hread]; rfl
    rw [hback, ite_self, hwritten]
    rfl
  · rw [List.concat_eq_append, List.reverse_append, List.reverse_append] at hread
    rw [List.concat_eq_append, List.getLast?_concat, Option.or_none] at hwritten ⊢
    rw [h.takeBack_eq hread, hwritten, marked_capital (by simp [isLowerWord, hc, hword])]
    split
    · next hcapitals =>
      have hold : marked (some a) b none = [b.toLower] := by simp [marked, startsWord, hcapitals]
      rw [hold]
      rfl
    · rfl

/-- After another letter or digit no capitals are open. -/
theorem other (hc : c.isUpper = false) (hword : c.isAlphanum = true) :
    Scanned (cs ++ [c]) (s.next c) := by
  have hne : c ≠ '_' := by
    rintro rfl
    cases hword
  constructor
  · simp [Scan.next, hc, hword, h.read]
  · rw [breakBetween_concat, marked_of_isUpper_false hc, List.reverse_append,
      ← h.written_other hc hword]
    simp [Scan.next, hc, hword]
  · rw [List.reverse_append, List.reverse_singleton, List.singleton_append,
      capitalsOf_other hc hne]
    simp [Scan.next, hc, hword]
  · simp [Scan.next, hc, hword, hne]

/-- Every character of a worded text keeps what is known. -/
theorem next (hchars : c.isAlphanum = true ∨ c = '_') (hsingle : (cs ++ [c]).IsChain Apart) :
    Scanned (cs ++ [c]) (s.next c) := by
  rcases hchars with hword | rfl
  · rcases hc : c.isUpper with _ | _
    · exact h.other hc hword
    · exact h.capital hc hword
  · refine h.underscore fun hlast => ?_
    obtain ⟨cs, rfl⟩ := List.getLast?_eq_some_iff.1 hlast
    rw [List.append_assoc] at hsingle
    exact ((List.isChain_cons_cons.1 hsingle.right_of_append).1).elim (· rfl) (· rfl)

end Scanned

theorem scanned (hchars : ∀ c ∈ cs, c.isAlphanum = true ∨ c = '_') (hsingle : cs.IsChain Apart) :
    Scanned cs (cs.foldl Scan.next Scan.start) := by
  induction cs using List.reverseRecOn with
  | nil => exact ⟨rfl, rfl, rfl, by simp [Scan.start]⟩
  | append_singleton cs c ih =>
    rw [List.foldl_append]
    have hscanned := ih (fun d hd => hchars d (List.mem_append_left _ hd)) hsingle.left_of_append
    exact hscanned.next (hchars c (by simp)) hsingle

/-- One pass finds the breaks that the neighbours of the characters tell. -/
theorem scan_eq_breakWords (h : Worded cs) : Scan.run cs = breakWords none cs := by
  rw [Scan.run, (scanned h.chars h.single).written, List.reverse_reverse, breakBetween_none]

/-! ## Letters and digits -/

theorem toLower_toUpper (a : Char) : a.toUpper.toLower = a.toLower := by
  rcases h : a.isLower with _ | _
  · rw [toUpper_eq_self h]
  · have hnat := toNat_toUpper h
    have hlo : 97 ≤ a.val.toNat := of_decide_eq_true (Bool.and_eq_true_iff.1 h).1
    have hhi : a.val.toNat ≤ 122 := of_decide_eq_true (Bool.and_eq_true_iff.1 h).2
    have hupper : a.toUpper.isUpper = true := by
      have hge : (65 : UInt32) ≤ a.toUpper.val := by
        rw [UInt32.le_iff_toNat_le]
        show 65 ≤ _
        omega
      have hle : a.toUpper.val ≤ (90 : UInt32) := by
        rw [UInt32.le_iff_toNat_le]
        show _ ≤ 90
        omega
      exact decide_eq_true ⟨hge, hle⟩
    have hself : a.isUpper = false := by
      refine Bool.eq_false_iff.2 fun hcase => ?_
      have hle := (toNat_toLower hcase).2.1
      omega
    obtain ⟨-, -, hlower⟩ := toNat_toLower hupper
    rw [toLower_eq_self hself]
    refine Char.ext (UInt32.toNat_inj.1 ?_)
    omega

/-- Snake case keeps all letters and digits, in lower case. -/
theorem filter_snakeChars (cs : List Char) :
    (snakeChars cs).filter (· ≠ '_') = (cs.filter Char.isAlphanum).map Char.toLower := by
  have hmap : ∀ ds : List Char,
      (ds.filter Char.isAlphanum).map Char.toLower = (capitals ds).map Char.toLower := by
    intro ds
    rw [capitals, List.map_map]
    exact List.map_congr_left fun a _ => (toLower_toUpper a).symm
  have hfilter : (snakeChars cs).filter (· ≠ '_') = (snakeChars cs).filter Char.isAlphanum := by
    refine List.filter_congr fun a ha => ?_
    rcases (snakeChars_worded cs).chars a ha with hword | rfl
    · rw [hword, decide_eq_true_eq]
      rintro rfl
      cases hword
    · rfl
  have hlower : ((snakeChars cs).filter Char.isAlphanum).map Char.toLower =
      (snakeChars cs).filter Char.isAlphanum := by
    refine (List.map_congr_left fun a ha => ?_).trans (List.map_id _)
    exact toLower_eq_self (isUpper_of_mem_breakWords (List.mem_filter.1 ha).1)
  rw [hfilter, ← hlower, hmap, capitals_snakeChars, ← hmap]

/-! ## The rule -/

/-- What is in snake case has its words in lower case, joined by underscores, and an underscore more
before each place of a break. One pass over the words finds the same. So snake case has lower-case
letters, digits and single underscores inside, keeps all letters and digits, and stays as it is, also
as the name of a field. -/
theorem snake_breaks_words (x : String) :
    wordsOf x.toList = ['_'].intercalate (wordsBetween (keepWords x.toList)) ∧
    snake x = String.ofList ((wordsOf x.toList).mapIdx fun i c =>
      if BreaksAt (wordsOf x.toList) i then ['_', c.toLower] else [c.toLower]).flatten ∧
    snake x = String.ofList (Scan.run (wordsOf x.toList)) ∧
    (∀ c ∈ (snake x).toList, c.isLower = true ∨ c.isDigit = true ∨ c = '_') ∧
    (snake x).toList.head? ≠ some '_' ∧ (snake x).toList.getLast? ≠ some '_' ∧
    (snake x).toList.IsChain (fun a b => a ≠ '_' ∨ b ≠ '_') ∧
    (snake x).toList.filter (· ≠ '_') = (x.toList.filter Char.isAlphanum).map Char.toLower ∧
    snake (snake x) = snake x ∧
    String.ofList (underscored (snake x).toList) = snake x := by
  have hlist : (snake x).toList = snakeChars x.toList := String.toList_ofList
  have hworded := snakeChars_worded x.toList
  refine ⟨wordsOf_eq_intercalate _, ?_, ?_, ?_, ?_, ?_, ?_, ?_, snake_snake x, ?_⟩
  · exact congrArg String.ofList (breakWords_eq_flatten (wordsOf x.toList))
  · exact congrArg String.ofList (scan_eq_breakWords (wordsOf_worded _)).symm
  · rw [hlist]
    intro c hc
    have hlower : c.isUpper = false := isUpper_of_mem_breakWords hc
    rcases hworded.chars c hc with hword | rfl
    · rcases Bool.or_eq_true_iff.1 hword with hletter | hdigit
      · exact .inl ((Bool.or_eq_true_iff.1 hletter).resolve_left (by simp [hlower]))
      · exact .inr (.inl hdigit)
    · exact .inr (.inr rfl)
  · rw [hlist]
    exact hworded.start
  · rw [hlist]
    exact hworded.finish
  · rw [hlist]
    exact hworded.single
  · rw [hlist, filter_snakeChars]
  · rw [hlist]
    exact fieldName_eq_snake x

example : Scan.run "HTTPServer_URLv2Ab".toList = "http_server_ur_lv2_ab".toList := by
  decide +kernel

end ApiProto.Name
