import ApiProto.Proofs.Rows

/-!
# Lines of code

A line of a printed file is empty, a comment, or code. Which of these it is does not depend on its
indentation, but its indentation belongs to it, so unlike rows the lines are kept as they stand.

* `keptLines` — the lines of a text that are of some sort; `keptLines_append`,
  `keptLines_prefixLines` — the lines of joined and of indented texts.
* `filledLines`, `codeLines` — the lines that are not blank, and those that are no comments either.
* `codeLines_printComment` — a comment has no line of code, whatever is written in it.
* `SameCode` — two texts of which the first one has the lines of the second one, and comments.
* `SameCode.append`, `SameCode.commented`, `SameCode.block` — the parts that files are made of.
-/

namespace ApiProto.Proto

/-! ## Lines of a sort -/

/-- The lines of a text that are of a sort `p`. -/
def keptLines (p : List Char → Bool) (cs : List Char) : List (List Char) := (linesOf cs).filter p

/-- A sort of lines that does not depend on indentation, and to which the empty line does not
belong. -/
structure IsSort (p : List Char → Bool) : Prop where
  empty : p [] = false
  blank (line : List Char) : p (' ' :: line) = p line

section

variable {p : List Char → Bool}

theorem keptLines_append (cs cs' : List Char) :
    keptLines p (cs ++ '\n' :: cs') = keptLines p cs ++ keptLines p cs' := by
  rw [keptLines, linesOf_append, List.filter_append, keptLines, keptLines]

theorem keptLines_line {line : List Char} (h : '\n' ∉ line) :
    keptLines p line = if p line then [line] else [] := by
  rw [keptLines, linesOf_line h, List.filter_cons, List.filter_nil]

theorem IsSort.keptLines_nil (hp : IsSort p) : keptLines p [] = [] := by
  rw [keptLines_line List.not_mem_nil, hp.empty]
  rfl

theorem IsSort.keptLines_newline (hp : IsSort p) (cs : List Char) :
    keptLines p ('\n' :: cs) = keptLines p cs := by
  rw [← List.nil_append ('\n' :: cs), keptLines_append, hp.keptLines_nil, List.nil_append]

theorem IsSort.keptLines_joinLines (hp : IsSort p) (texts : List (List Char)) :
    keptLines p (joinLines texts) = texts.flatMap (keptLines p) := by
  induction texts with
  | nil => exact hp.keptLines_nil
  | cons text rest ih =>
    cases rest with
    | nil => simp
    | cons second rest =>
      rw [joinLines_cons _ (List.cons_ne_nil _ _), keptLines_append, ih]
      exact (List.flatMap_cons ..).symm

theorem IsSort.indented (hp : IsSort p) (n : Nat) (line : List Char) :
    p (List.replicate n ' ' ++ line) = p line := by
  induction n with
  | zero => rfl
  | succ n ih => rw [List.replicate_succ, List.cons_append, hp.blank, ih]

/-- All lines of a text but an empty one at its end have its lines of a sort. -/
theorem IsSort.filter_endedLines (hp : IsSort p) (cs : List Char) :
    (endedLines cs).filter p = keptLines p cs := by
  unfold endedLines
  dsimp only
  split
  · next hlast =>
    obtain ⟨start, rfl⟩ := List.getLast?_eq_some_iff.1 hlast
    rw [linesOf_append, linesOf_nil, List.dropLast_concat, keptLines_append, hp.keptLines_nil,
      List.append_nil, keptLines]
  · rfl

theorem not_mem_of_mem_endedLines {cs line : List Char} (h : line ∈ endedLines cs) :
    '\n' ∉ line := by
  unfold endedLines at h
  dsimp only at h
  split at h
  · exact not_mem_of_mem_linesOf (List.dropLast_subset _ h)
  · exact not_mem_of_mem_linesOf h

/-- The lines of an indented text are the lines of the text with the indentation before them. -/
theorem IsSort.keptLines_prefixLines (hp : IsSort p) (n : Nat) (cs : List Char) :
    keptLines p (prefixLines (List.replicate n ' ') false cs) =
      (keptLines p cs).map (List.replicate n ' ' ++ ·) := by
  have hindent : ∀ line : List Char, '\n' ∉ line → keptLines p
      (if (!line.isEmpty || false) = true then List.replicate n ' ' ++ line else []) =
        ([line].filter p).map (List.replicate n ' ' ++ ·) := by
    intro line hline
    cases line with
    | nil => simp [hp.keptLines_nil, hp.empty]
    | cons c line =>
      have hblanks : '\n' ∉ List.replicate n ' ' ++ c :: line := by
        rw [List.mem_append, not_or]
        exact ⟨fun hmem => absurd (List.eq_of_mem_replicate hmem) (by decide), hline⟩
      rw [if_pos (by simp), keptLines_line hblanks, hp.indented, List.filter_cons, List.filter_nil]
      split <;> rfl
  unfold prefixLines
  split
  · next hempty => rw [List.isEmpty_iff.1 hempty, hp.keptLines_nil, List.map_nil]
  · rw [hp.keptLines_joinLines, List.flatMap_map, ← hp.filter_endedLines]
    have hlines : ∀ lines : List (List Char), (∀ line ∈ lines, '\n' ∉ line) →
        (lines.flatMap fun line => keptLines p
          (if (!line.isEmpty || false) = true then List.replicate n ' ' ++ line else [])) =
          (lines.filter p).map (List.replicate n ' ' ++ ·) := by
      intro lines hlines
      induction lines with
      | nil => rfl
      | cons line rest ih =>
        rw [List.flatMap_cons, hindent line (hlines line (List.mem_cons_self ..)),
          ih fun line hmem => hlines line (List.mem_cons_of_mem _ hmem), ← List.map_append,
          ← List.filter_append, List.singleton_append]
    exact hlines _ fun line hmem => not_mem_of_mem_endedLines hmem

end

/-! ## Code and comments -/

/-- Whether there is anything but blanks in a line. -/
def isFilled (line : List Char) : Bool := line.any (· != ' ')

/-- Whether a line is a comment: the first characters that are no blanks are the comment mark. -/
def isCommentLine (line : List Char) : Bool :=
  "//".toList.isPrefixOf (line.dropWhile (· == ' '))

/-- Whether a line is code: it is neither blank nor a comment. -/
def isCode (line : List Char) : Bool := isFilled line && !isCommentLine line

theorem isFilled_isSort : IsSort isFilled := ⟨rfl, fun _ => rfl⟩

theorem isCode_isSort : IsSort isCode := ⟨rfl, fun _ => rfl⟩

/-- The lines of a text that are not blank. -/
def filledLines : List Char → List (List Char) := keptLines isFilled

/-- The lines of a text that are neither blank nor comments. -/
def codeLines : List Char → List (List Char) := keptLines isCode

/-- A line of code without indentation: it starts with something else than a blank or the comment
mark. -/
def IsCodeRow (row : List Char) : Prop :=
  '\n' ∉ row ∧ ∃ c rest, row = c :: rest ∧ c ≠ ' ' ∧ c ≠ '/'

/-- The test for a line of code. -/
def isCodeRow : List Char → Bool
  | [] => false
  | c :: rest => c != ' ' && c != '/' && (c :: rest).all (· != '\n')

theorem isCodeRow_iff {row : List Char} : isCodeRow row = true ↔ IsCodeRow row := by
  cases row with
  | nil => simp [isCodeRow, IsCodeRow]
  | cons c rest =>
    simp only [isCodeRow, IsCodeRow, Bool.and_eq_true, bne_iff_ne, List.all_eq_true,
      List.cons.injEq]
    constructor
    · rintro ⟨⟨hblank, hslash⟩, hline⟩
      exact ⟨fun hmem => hline _ hmem rfl, c, rest, ⟨rfl, rfl⟩, hblank, hslash⟩
    · rintro ⟨hline, _, _, ⟨rfl, rfl⟩, hblank, hslash⟩
      exact ⟨⟨hblank, hslash⟩, fun c hc heq => hline (heq ▸ hc)⟩

instance (row : List Char) : Decidable (IsCodeRow row) :=
  decidable_of_iff _ isCodeRow_iff

theorem IsCodeRow.append {row more : List Char} (h : IsCodeRow row) (hmore : '\n' ∉ more) :
    IsCodeRow (row ++ more) := by
  obtain ⟨hline, c, rest, rfl, hc⟩ := h
  refine ⟨?_, c, rest ++ more, rfl, hc⟩
  rw [List.mem_append, not_or]
  exact ⟨hline, hmore⟩

theorem IsCodeRow.isFilled {row : List Char} (h : IsCodeRow row) : isFilled row = true := by
  obtain ⟨_, c, rest, rfl, hblank, _⟩ := h
  simp [Proto.isFilled, hblank]

theorem IsCodeRow.isCode {row : List Char} (h : IsCodeRow row) : isCode row = true := by
  have hfilled := h.isFilled
  obtain ⟨_, c, rest, rfl, hblank, hslash⟩ := h
  have hmark : isCommentLine (c :: rest) = false := by
    simp [isCommentLine, hblank, List.isPrefixOf, Ne.symm hslash]
  rw [Proto.isCode, hfilled, hmark]
  rfl

theorem isCode_mark (line : List Char) : isCode ("//".toList ++ line) = false := by
  simp [isCode, isCommentLine]

/-- No line of a comment is code, whatever is written in it. -/
theorem codeLines_commentLines (cs : List Char) : codeLines (commentLines cs) = [] := by
  -- a marked text has marked lines only, or is a single empty line
  have hmarked : ∀ line ∈ linesOf (prefixLines "// ".toList true cs),
      line = [] ∨ ∃ rest, '\n' ∉ rest ∧ line = "// ".toList ++ rest := by
    intro line hline
    unfold prefixLines at hline
    split at hline
    · exact .inl (List.mem_singleton.1 hline)
    · simp only [Bool.or_true, if_true] at hline
      by_cases hnil : endedLines cs = []
      · rw [hnil] at hline
        exact .inl (List.mem_singleton.1 hline)
      · have hlines : ∀ line ∈ (endedLines cs).map ("// ".toList ++ ·), '\n' ∉ line := by
          intro line hmem
          obtain ⟨rest, hrest, rfl⟩ := List.mem_map.1 hmem
          rw [List.mem_append, not_or]
          exact ⟨by decide, not_mem_of_mem_endedLines hrest⟩
        rw [linesOf_joinLines (by simpa using hnil) hlines] at hline
        obtain ⟨rest, hmem, rfl⟩ := List.mem_map.1 hline
        exact .inr ⟨rest, not_mem_of_mem_endedLines hmem, rfl⟩
  rw [commentLines, codeLines, isCode_isSort.keptLines_joinLines, List.flatMap_map,
    List.flatMap_eq_nil_iff]
  intro line hline
  split
  · rfl
  · rcases hmarked line hline with rfl | ⟨rest, hrest, rfl⟩
    · rfl
    · have hline : '\n' ∉ "// ".toList ++ rest := by
        rw [List.mem_append, not_or]
        exact ⟨by decide, hrest⟩
      rw [keptLines_line hline, if_neg]
      exact Bool.eq_false_iff.1 (isCode_mark (' ' :: rest))

theorem codeLines_printComment (comment : String) : codeLines (printComment comment) = [] := by
  unfold printComment
  split
  · exact isCode_isSort.keptLines_nil
  · rw [codeLines, isCode_isSort.keptLines_newline]
    exact codeLines_commentLines comment.toList

theorem printComment_opens (comment : String) : Opens (printComment comment) := by
  unfold printComment
  split
  · exact .inl rfl
  · exact .inr ⟨_, rfl⟩

/-! ## Texts with the same code -/

/-- The lines of two texts of which the second one starts on a new line. -/
theorem IsSort.keptLines_opens {p : List Char → Bool} (hp : IsSort p) (cs : List Char)
    {cs' : List Char} (h : Opens cs') :
    keptLines p (cs ++ cs') = keptLines p cs ++ keptLines p cs' := by
  rcases h with rfl | ⟨rest, rfl⟩
  · rw [List.append_nil, hp.keptLines_nil, List.append_nil]
  · rw [keptLines_append, hp.keptLines_newline]

theorem Opens.append {cs cs' : List Char} (h : Opens cs) (h' : Opens cs') : Opens (cs ++ cs') := by
  rcases h with rfl | ⟨rest, rfl⟩
  · exact h'
  · exact .inr ⟨rest ++ cs', rfl⟩

theorem Opens.prefixLines {cs : List Char} (h : Opens cs) (start : List Char) :
    Opens (prefixLines start false cs) := by
  rcases h with rfl | ⟨rest, rfl⟩
  · exact .inl rfl
  · have hlines : ∃ lines, endedLines ('\n' :: rest) = [] :: lines := by
      unfold endedLines
      rw [linesOf_newline]
      dsimp only
      split
      · exact ⟨_, List.dropLast_cons_of_ne_nil (linesOf_ne_nil rest)⟩
      · exact ⟨_, rfl⟩
    obtain ⟨lines, hlines⟩ := hlines
    unfold Proto.prefixLines
    rw [if_neg (by simp), hlines, List.map_cons]
    cases lines with
    | nil => exact .inl rfl
    | cons line lines =>
      rw [List.map_cons, joinLines_cons _ (List.cons_ne_nil _ _)]
      exact .inr ⟨_, rfl⟩

theorem Opens.joinLines {texts : List (List Char)} (h : ∀ text ∈ texts, Opens text) :
    Opens (joinLines texts) := by
  cases texts with
  | nil => exact .inl rfl
  | cons text rest =>
    have hfirst := h text (List.mem_cons_self ..)
    cases rest with
    | nil => simpa using hfirst
    | cons second rest =>
      rw [joinLines_cons _ (List.cons_ne_nil _ _)]
      exact hfirst.append (.inr ⟨_, rfl⟩)

/-- Two texts that start on new lines, of which the first one has the lines of the second one, and
comments besides. If there are no such lines both are empty. -/
structure SameCode (cs cs' : List Char) : Prop where
  opens : Opens cs
  opens' : Opens cs'
  lines_eq : codeLines cs = filledLines cs'
  eq_nil : filledLines cs' = [] → cs = [] ∧ cs' = []

namespace SameCode

variable {cs cs' more more' : List Char}

theorem nil : SameCode [] [] := ⟨.inl rfl, .inl rfl, rfl, fun _ => ⟨rfl, rfl⟩⟩

theorem row {row : List Char} (h : IsCodeRow row) : SameCode ('\n' :: row) ('\n' :: row) := by
  have hcode : codeLines ('\n' :: row) = [row] := by
    rw [codeLines, isCode_isSort.keptLines_newline, keptLines_line h.1, if_pos h.isCode]
  have hfilled : filledLines ('\n' :: row) = [row] := by
    rw [filledLines, isFilled_isSort.keptLines_newline, keptLines_line h.1, if_pos h.isFilled]
  exact ⟨.inr ⟨row, rfl⟩, .inr ⟨row, rfl⟩, hcode.trans hfilled.symm, by simp [hfilled]⟩

/-- A row on a line of its own. -/
theorem line {line row : String} (hline : line = "\n" ++ row) (h : IsCodeRow row.toList) :
    SameCode line.toList line.toList := by
  rw [hline, String.toList_append]
  exact .row h

theorem nil_iff (h : SameCode cs cs') : cs = [] ↔ cs' = [] := by
  constructor
  · rintro rfl
    exact (h.eq_nil (h.lines_eq.symm.trans isCode_isSort.keptLines_nil)).2
  · rintro rfl
    exact (h.eq_nil isFilled_isSort.keptLines_nil).1

theorem append (h : SameCode cs cs') (hmore : SameCode more more') :
    SameCode (cs ++ more) (cs' ++ more') := by
  have hfilled : filledLines (cs' ++ more') = filledLines cs' ++ filledLines more' :=
    isFilled_isSort.keptLines_opens cs' hmore.opens'
  refine ⟨h.opens.append hmore.opens, h.opens'.append hmore.opens', ?_, fun hnil => ?_⟩
  · rw [hfilled, ← h.lines_eq, ← hmore.lines_eq]
    exact isCode_isSort.keptLines_opens cs hmore.opens
  · rw [hfilled] at hnil
    obtain ⟨hnil, hnil'⟩ := List.append_eq_nil_iff.1 hnil
    obtain ⟨rfl, rfl⟩ := h.eq_nil hnil
    obtain ⟨rfl, rfl⟩ := hmore.eq_nil hnil'
    exact ⟨rfl, rfl⟩

/-- A text after another one that has nothing but comments and blank lines. -/
theorem after {start start' : List Char} (h : SameCode cs cs') (hne : cs' ≠ [])
    (hopens : Opens start) (hopens' : Opens start') (hcode : codeLines start = [])
    (hfilled : filledLines start' = []) : SameCode (start ++ cs) (start' ++ cs') := by
  have hlines : filledLines (start' ++ cs') = filledLines cs' := by
    rw [filledLines, isFilled_isSort.keptLines_opens start' h.opens']
    exact congrArg (· ++ filledLines cs') hfilled
  refine ⟨hopens.append h.opens, hopens'.append h.opens', ?_, fun hnil => ?_⟩
  · rw [hlines, ← h.lines_eq, codeLines, isCode_isSort.keptLines_opens start h.opens]
    exact congrArg (· ++ codeLines cs) hcode
  · exact absurd (h.eq_nil (hlines.symm.trans hnil)).2 hne

/-- A text with a comment before it. -/
theorem commented (h : SameCode cs cs') (hne : cs' ≠ []) (comment : String) :
    SameCode (printComment comment ++ cs) (printComment "" ++ cs') :=
  h.after hne (printComment_opens comment) (.inl rfl) (codeLines_printComment comment) rfl

/-- A text with or without an empty line before it. -/
theorem spaced (h : SameCode cs cs') (hne : cs' ≠ []) (b b' : Bool) :
    SameCode ((if b then [] else ['\n']) ++ cs) ((if b' then [] else ['\n']) ++ cs') := by
  refine h.after hne ?_ ?_ ?_ ?_
  · cases b
    · exact .inr ⟨[], rfl⟩
    · exact .inl rfl
  · cases b'
    · exact .inr ⟨[], rfl⟩
    · exact .inl rfl
  · cases b <;> rfl
  · cases b' <;> rfl

theorem flatMap {α β : Type} {f : α → List Char} {f' : β → List Char} {g : α → β} {l : List α}
    (h : ∀ a ∈ l, SameCode (f a) (f' (g a))) : SameCode (l.flatMap f) ((l.map g).flatMap f') := by
  induction l with
  | nil => exact nil
  | cons a rest ih =>
    rw [List.flatMap_cons, List.map_cons, List.flatMap_cons]
    exact (h a (List.mem_cons_self ..)).append (ih fun b hb => h b (List.mem_cons_of_mem _ hb))

/-- Texts that are not empty, separated by empty lines. -/
theorem joinLines {α β : Type} {f : α → List Char} {f' : β → List Char} {g : α → β} {l : List α}
    (h : ∀ a ∈ l, SameCode (f a) (f' (g a))) (hne : ∀ a ∈ l, f a ≠ []) :
    SameCode (joinLines (l.map f)) (joinLines ((l.map g).map f')) := by
  refine ⟨?_, ?_, ?_, fun hnil => ?_⟩
  · refine .joinLines fun text htext => ?_
    obtain ⟨a, ha, rfl⟩ := List.mem_map.1 htext
    exact (h a ha).opens
  · refine .joinLines fun text htext => ?_
    obtain ⟨_, hb, rfl⟩ := List.mem_map.1 htext
    obtain ⟨a, ha, rfl⟩ := List.mem_map.1 hb
    exact (h a ha).opens'
  · rw [codeLines, isCode_isSort.keptLines_joinLines, filledLines,
      isFilled_isSort.keptLines_joinLines, List.flatMap_map, List.flatMap_map, List.flatMap_map]
    exact congrArg List.flatten (List.map_congr_left fun a ha => (h a ha).lines_eq)
  · cases l with
    | nil => exact ⟨rfl, rfl⟩
    | cons a rest =>
      have hmem : a ∈ a :: rest := List.mem_cons_self ..
      rw [filledLines, isFilled_isSort.keptLines_joinLines, List.map_cons, List.map_cons,
        List.flatMap_cons] at hnil
      exact absurd ((h a hmem).eq_nil (List.append_eq_nil_iff.1 hnil).1).1 (hne a hmem)

/-- Indented texts. -/
theorem prefixLines (h : SameCode cs cs') (n : Nat) :
    SameCode (prefixLines (List.replicate n ' ') false cs)
      (prefixLines (List.replicate n ' ') false cs') := by
  have hfilled := isFilled_isSort.keptLines_prefixLines n cs'
  refine ⟨h.opens.prefixLines _, h.opens'.prefixLines _, ?_, fun hnil => ?_⟩
  · rw [filledLines, hfilled, codeLines, isCode_isSort.keptLines_prefixLines]
    exact congrArg (List.map _) h.lines_eq
  · rw [filledLines, hfilled, List.map_eq_nil_iff] at hnil
    obtain ⟨rfl, rfl⟩ := h.eq_nil hnil
    exact ⟨rfl, rfl⟩

theorem block_ne_nil (indent head body : List Char) : Proto.block indent head body ≠ [] := by
  simp [Proto.block]

/-- Two blocks with the same head and the same ending, of which the bodies have the same code. -/
theorem endedBlock {head ending : List Char} (hhead : IsCodeRow head) (hending : '\n' ∉ ending)
    (h : SameCode cs cs') (n : Nat) :
    SameCode (Proto.block (List.replicate n ' ') head cs ++ ending)
      (Proto.block (List.replicate n ' ') head cs' ++ ending) := by
  have hinner := h.prefixLines n
  unfold Proto.block
  generalize Proto.prefixLines (List.replicate n ' ') false cs = inner at hinner
  generalize Proto.prefixLines (List.replicate n ' ') false cs' = inner' at hinner
  by_cases hnil : inner = []
  · obtain rfl := hinner.nil_iff.1 hnil
    obtain rfl := hnil
    have hbraces : IsCodeRow (head ++ " \x7b\x7d".toList) := hhead.append (by decide)
    simpa using SameCode.row (hbraces.append hending)
  · have hnil' : inner' ≠ [] := fun heq => hnil (hinner.nil_iff.2 heq)
    have hstart := SameCode.row (hhead.append (show '\n' ∉ " \x7b".toList by decide))
    have hbrace : IsCodeRow "\x7d".toList := by decide
    have hsame := hstart.append (hinner.append (.row (hbrace.append hending)))
    simpa [hnil, hnil'] using hsame

theorem block {head : List Char} (hhead : IsCodeRow head) (h : SameCode cs cs') (n : Nat) :
    SameCode (Proto.block (List.replicate n ' ') head cs)
      (Proto.block (List.replicate n ' ') head cs') := by
  have hended := endedBlock hhead (show '\n' ∉ ([] : List Char) from nofun) h n
  simpa using hended

end SameCode

end ApiProto.Proto
