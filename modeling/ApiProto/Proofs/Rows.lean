import ApiProto.Proto.Printer

/-!
# The rows of a text

A printed file is read line by line. Indentation and empty lines carry nothing, so what is left of a
text are its rows: the lines without the blanks before them, and without those that are empty then.

* `linesOf_append`, `joinLines_linesOf` — the lines of a text.
* `rowsOf` — the rows of a text; `rowsOf_append`, `rowsOf_prefixLines` — neither line ends nor
  indentation add any.
* `Shows` — a text that starts on a new line and has given rows.
* `Shows.row`, `Shows.append`, `Shows.comment`, `Shows.block` — the parts that files are made of.
-/

namespace ApiProto.Proto

/-! ## Lines -/

@[simp] theorem linesOf_nil : linesOf [] = [[]] := rfl

theorem linesOf_newline (cs : List Char) : linesOf ('\n' :: cs) = [] :: linesOf cs := by
  simp [linesOf, Text.splitAround]

theorem linesOf_ne_nil (cs : List Char) : linesOf cs ≠ [] := by
  cases cs with
  | nil => simp
  | cons c cs =>
    simp only [linesOf, Text.splitAround]
    split
    · simp
    · split <;> simp

/-- A character that is no line end goes to the first line. -/
theorem linesOf_cons {c : Char} (hc : c ≠ '\n') {cs line : List Char} {lines : List (List Char)}
    (h : linesOf cs = line :: lines) : linesOf (c :: cs) = (c :: line) :: lines := by
  simp only [linesOf] at h
  simp [linesOf, Text.splitAround, hc, h]

/-- The lines of two texts with a line end between them. -/
theorem linesOf_append (cs cs' : List Char) :
    linesOf (cs ++ '\n' :: cs') = linesOf cs ++ linesOf cs' := by
  induction cs with
  | nil => exact linesOf_newline cs'
  | cons c cs ih =>
    by_cases hc : c = '\n'
    · rw [hc, List.cons_append, linesOf_newline, linesOf_newline, ih, List.cons_append]
    · obtain ⟨line, lines, hlines⟩ := List.exists_cons_of_ne_nil (linesOf_ne_nil cs)
      rw [hlines, List.cons_append] at ih
      rw [List.cons_append, linesOf_cons hc ih, linesOf_cons hc hlines, List.cons_append]

/-- A text without line ends is one line. -/
theorem linesOf_line {line : List Char} (h : '\n' ∉ line) : linesOf line = [line] := by
  induction line with
  | nil => rfl
  | cons c line ih =>
    rw [List.mem_cons, not_or] at h
    exact linesOf_cons (fun heq => h.1 heq.symm) (ih h.2)

theorem not_mem_of_mem_linesOf {cs line : List Char} (h : line ∈ linesOf cs) : '\n' ∉ line := by
  induction cs generalizing line with
  | nil =>
    obtain rfl := List.mem_singleton.1 h
    exact List.not_mem_nil
  | cons c cs ih =>
    by_cases hc : c = '\n'
    · rw [hc, linesOf_newline] at h
      rcases List.mem_cons.1 h with rfl | h
      · exact List.not_mem_nil
      · exact ih h
    · obtain ⟨first, lines, hlines⟩ := List.exists_cons_of_ne_nil (linesOf_ne_nil cs)
      rw [linesOf_cons hc hlines] at h
      rw [hlines] at ih
      rcases List.mem_cons.1 h with rfl | h
      · intro hmem
        rcases List.mem_cons.1 hmem with heq | hmem
        · exact hc heq.symm
        · exact ih (List.mem_cons_self ..) hmem
      · exact ih (List.mem_cons_of_mem _ h)

@[simp] theorem joinLines_singleton (line : List Char) : joinLines [line] = line := by
  simp [joinLines, List.intercalate]

theorem joinLines_cons (line : List Char) {lines : List (List Char)} (h : lines ≠ []) :
    joinLines (line :: lines) = line ++ '\n' :: joinLines lines := by
  obtain ⟨second, rest, rfl⟩ := List.exists_cons_of_ne_nil h
  simp [joinLines, List.intercalate]

/-- A line end before each line. -/
theorem newline_joinLines {lines : List (List Char)} (h : lines ≠ []) :
    '\n' :: joinLines lines = lines.flatMap ('\n' :: ·) := by
  induction lines with
  | nil => exact absurd rfl h
  | cons line rest ih =>
    cases rest with
    | nil => simp
    | cons second rest =>
      rw [joinLines_cons _ (List.cons_ne_nil _ _), ih (List.cons_ne_nil _ _)]
      rfl

theorem joinLines_linesOf (cs : List Char) : joinLines (linesOf cs) = cs := by
  induction cs with
  | nil => rfl
  | cons c cs ih =>
    by_cases hc : c = '\n'
    · rw [hc, linesOf_newline, joinLines_cons _ (linesOf_ne_nil cs), ih, List.nil_append]
    · obtain ⟨line, lines, hlines⟩ := List.exists_cons_of_ne_nil (linesOf_ne_nil cs)
      rw [hlines] at ih
      rw [linesOf_cons hc hlines, ← ih]
      cases lines with
      | nil => simp
      | cons second rest =>
        rw [joinLines_cons _ (List.cons_ne_nil _ _), joinLines_cons _ (List.cons_ne_nil _ _),
          List.cons_append]

theorem linesOf_injective : Function.Injective linesOf := by
  intro cs cs' h
  rw [← joinLines_linesOf cs, h, joinLines_linesOf]

/-- Lines that have been joined are the lines of the text. -/
theorem linesOf_joinLines {lines : List (List Char)} (hne : lines ≠ [])
    (h : ∀ line ∈ lines, '\n' ∉ line) : linesOf (joinLines lines) = lines := by
  induction lines with
  | nil => exact absurd rfl hne
  | cons line rest ih =>
    have hline := linesOf_line (h line (List.mem_cons_self ..))
    cases rest with
    | nil => rw [joinLines_singleton, hline]
    | cons second rest =>
      rw [joinLines_cons _ (List.cons_ne_nil _ _), linesOf_append, hline,
        ih (List.cons_ne_nil _ _) fun line hmem => h line (List.mem_cons_of_mem _ hmem)]
      rfl

/-! ## Rows -/

/-- The rows of a text: its lines without the blanks before them, if there is something else. -/
def rowsOf (cs : List Char) : List (List Char) :=
  ((linesOf cs).map (List.dropWhile (· == ' '))).filter (!·.isEmpty)

@[simp] theorem rowsOf_nil : rowsOf [] = [] := rfl

/-- The rows of two texts with a line end between them. -/
theorem rowsOf_append (cs cs' : List Char) :
    rowsOf (cs ++ '\n' :: cs') = rowsOf cs ++ rowsOf cs' := by
  simp only [rowsOf, linesOf_append, List.map_append, List.filter_append]

theorem rowsOf_newline (cs : List Char) : rowsOf ('\n' :: cs) = rowsOf cs :=
  rowsOf_append [] cs

theorem rowsOf_joinLines (texts : List (List Char)) :
    rowsOf (joinLines texts) = texts.flatMap rowsOf := by
  induction texts with
  | nil => rfl
  | cons text rest ih =>
    cases rest with
    | nil => simp
    | cons second rest =>
      rw [joinLines_cons _ (List.cons_ne_nil _ _), rowsOf_append, ih]
      exact (List.flatMap_cons ..).symm

/-- Indentation adds nothing to the rows. -/
theorem rowsOf_blanks (n : Nat) (cs : List Char) :
    rowsOf (List.replicate n ' ' ++ cs) = rowsOf cs := by
  induction n with
  | zero => rfl
  | succ n ih =>
    obtain ⟨line, lines, hlines⟩ :=
      List.exists_cons_of_ne_nil (linesOf_ne_nil (List.replicate n ' ' ++ cs))
    rw [List.replicate_succ, List.cons_append, ← ih, rowsOf, rowsOf,
      linesOf_cons (by decide) hlines, hlines]
    simp

/-- All lines of a text but an empty one at its end have its rows. -/
theorem flatMap_endedLines (cs : List Char) : (endedLines cs).flatMap rowsOf = rowsOf cs := by
  have hlines : ∀ cs, (linesOf cs).flatMap rowsOf = rowsOf cs := by
    intro cs
    rw [← rowsOf_joinLines, joinLines_linesOf]
  unfold endedLines
  dsimp only
  split
  · next hlast =>
    obtain ⟨start, rfl⟩ := List.getLast?_eq_some_iff.1 hlast
    rw [linesOf_append, linesOf_nil, List.dropLast_concat, hlines, rowsOf_append, rowsOf_nil,
      List.append_nil]
  · exact hlines cs

/-- Indented text has the same rows. -/
theorem rowsOf_prefixLines (n : Nat) (cs : List Char) :
    rowsOf (prefixLines (List.replicate n ' ') false cs) = rowsOf cs := by
  unfold prefixLines
  split
  · next hempty => rw [List.isEmpty_iff.1 hempty]
  · have hindent : ∀ line : List Char, rowsOf
        (if (!line.isEmpty || false) = true then List.replicate n ' ' ++ line else []) =
          rowsOf line := by
      intro line
      cases line with
      | nil => rfl
      | cons c line => exact rowsOf_blanks n (c :: line)
    rw [rowsOf_joinLines, List.flatMap_map]
    simp only [hindent]
    exact flatMap_endedLines cs

/-- A row as it stands in a text: it has no line end and starts with something else than a blank. -/
def IsRow (row : List Char) : Prop := '\n' ∉ row ∧ ∃ c rest, row = c :: rest ∧ c ≠ ' '

theorem IsRow.rowsOf_eq {row : List Char} (h : IsRow row) : rowsOf row = [row] := by
  obtain ⟨hline, c, rest, rfl, hc⟩ := h
  rw [rowsOf, linesOf_line hline]
  simp [hc]

theorem IsRow.append {row more : List Char} (h : IsRow row) (hmore : '\n' ∉ more) :
    IsRow (row ++ more) := by
  obtain ⟨hline, c, rest, rfl, hc⟩ := h
  refine ⟨?_, c, rest ++ more, rfl, hc⟩
  rw [List.mem_append, not_or]
  exact ⟨hline, hmore⟩

/-! ## Texts that show rows -/

/-- A text that is empty or starts with a line end. -/
def Opens (cs : List Char) : Prop := cs = [] ∨ ∃ rest, cs = '\n' :: rest

/-- A text that starts on a new line and has given rows. It is empty if there are none. -/
structure Shows (cs : List Char) (rows : List (List Char)) : Prop where
  opens : Opens cs
  rowsOf_eq : rowsOf cs = rows
  eq_nil : rows = [] → cs = []

namespace Shows

variable {cs cs' : List Char} {rows rows' : List (List Char)}

theorem nil : Shows [] [] := ⟨.inl rfl, rfl, fun _ => rfl⟩

theorem row {row : List Char} (h : IsRow row) : Shows ('\n' :: row) [row] :=
  ⟨.inr ⟨row, rfl⟩, by rw [rowsOf_newline, h.rowsOf_eq], by simp⟩

/-- A row on a line of its own. -/
theorem line {line row : String} (hline : line = "\n" ++ row) (h : IsRow row.toList) :
    Shows line.toList [row.toList] := by
  rw [hline, String.toList_append]
  exact .row h

/-- A text with an empty line before it. -/
theorem newline (h : Shows cs rows) (hne : rows ≠ []) : Shows ('\n' :: cs) rows :=
  ⟨.inr ⟨cs, rfl⟩, by rw [rowsOf_newline, h.rowsOf_eq], fun hnil => absurd hnil hne⟩

theorem append (h : Shows cs rows) (h' : Shows cs' rows') : Shows (cs ++ cs') (rows ++ rows') := by
  have hrows : rowsOf (cs ++ cs') = rowsOf cs ++ rowsOf cs' := by
    rcases h'.opens with rfl | ⟨rest, rfl⟩
    · simp
    · rw [rowsOf_append, rowsOf_newline]
  refine ⟨?_, by rw [hrows, h.rowsOf_eq, h'.rowsOf_eq], fun hnil => ?_⟩
  · rcases h.opens with rfl | ⟨rest, rfl⟩
    · exact h'.opens
    · exact .inr ⟨rest ++ cs', rfl⟩
  · obtain ⟨hnil, hnil'⟩ := List.append_eq_nil_iff.1 hnil
    rw [h.eq_nil hnil, h'.eq_nil hnil', List.append_nil]

theorem flatMap {α : Type} {f : α → List Char} {g : α → List (List Char)} {l : List α}
    (h : ∀ a ∈ l, Shows (f a) (g a)) : Shows (l.flatMap f) (l.flatMap g) := by
  induction l with
  | nil => exact nil
  | cons a rest ih =>
    rw [List.flatMap_cons, List.flatMap_cons]
    exact (h a (List.mem_cons_self ..)).append (ih fun b hb => h b (List.mem_cons_of_mem _ hb))

/-- Texts with rows, separated by empty lines. -/
theorem joinLines {α : Type} {f : α → List Char} {g : α → List (List Char)} {l : List α}
    (h : ∀ a ∈ l, Shows (f a) (g a)) (hne : ∀ a ∈ l, g a ≠ []) :
    Shows (joinLines (l.map f)) (l.flatMap g) := by
  induction l with
  | nil => exact nil
  | cons a rest ih =>
    have hfirst := h a (List.mem_cons_self ..)
    have hrest := ih (fun b hb => h b (List.mem_cons_of_mem _ hb))
      fun b hb => hne b (List.mem_cons_of_mem _ hb)
    cases rest with
    | nil => simpa using hfirst
    | cons b rest =>
      have hsome : (b :: rest).flatMap g ≠ [] := by
        rw [List.flatMap_cons]
        intro hnil
        exact hne b (by simp) (List.append_eq_nil_iff.1 hnil).1
      rw [List.map_cons, joinLines_cons _ (by simp), List.flatMap_cons]
      exact hfirst.append (hrest.newline hsome)

/-- A part of a text with an empty line before it, if there is anything in it. -/
theorem part {α β : Type} {items : List α} {sorted : List β} {f : β → List Char}
    {g : β → List (List Char)} (hperm : items.isEmpty = sorted.isEmpty) (hne : ∀ b, g b ≠ [])
    (h : Shows (sorted.flatMap f) (sorted.flatMap g)) :
    Shows (if items.isEmpty then [] else '\n' :: sorted.flatMap f) (sorted.flatMap g) := by
  rw [hperm]
  cases sorted with
  | nil => exact .nil
  | cons b rest =>
    refine h.newline fun hnil => hne b ?_
    rw [List.flatMap_cons] at hnil
    exact (List.append_eq_nil_iff.1 hnil).1

/-- Indented text. -/
theorem prefixLines (h : Shows cs rows) (n : Nat) :
    Shows (prefixLines (List.replicate n ' ') false cs) rows := by
  refine ⟨?_, by rw [rowsOf_prefixLines, h.rowsOf_eq], fun hnil => ?_⟩
  · rcases h.opens with rfl | ⟨rest, rfl⟩
    · exact .inl rfl
    · unfold Proto.prefixLines endedLines
      rw [if_neg (by simp), linesOf_newline]
      dsimp only
      split
      · next hlast =>
        rw [List.dropLast_cons_of_ne_nil (linesOf_ne_nil rest), List.map_cons]
        cases (linesOf rest).dropLast with
        | nil => exact .inl rfl
        | cons line lines =>
          rw [joinLines_cons _ (by simp)]
          exact .inr ⟨_, rfl⟩
      · rw [List.map_cons, joinLines_cons _ (by simp [linesOf_ne_nil])]
        exact .inr ⟨_, rfl⟩
  · rw [h.eq_nil hnil]
    rfl

end Shows

/-! ## Blocks -/

/-- The rows of a block that ends with `ending` after the brace; one row if there is nothing in
it. -/
def blockRows (head ending : List Char) (rows : List (List Char)) : List (List Char) :=
  if rows = [] then [head ++ " \x7b\x7d".toList ++ ending]
  else (head ++ " \x7b".toList) :: (rows ++ ["\x7d".toList ++ ending])

theorem blockRows_ne_nil (head ending : List Char) (rows : List (List Char)) :
    blockRows head ending rows ≠ [] := by
  unfold blockRows
  split <;> simp

theorem Shows.block {head ending body : List Char} {rows : List (List Char)} (hhead : IsRow head)
    (hending : '\n' ∉ ending) (h : Shows body rows) (n : Nat) :
    Shows (block (List.replicate n ' ') head body ++ ending) (blockRows head ending rows) := by
  have hinner := h.prefixLines n
  unfold Proto.block blockRows
  generalize Proto.prefixLines (List.replicate n ' ') false body = inner at hinner
  dsimp only
  by_cases hnil : rows = []
  · rw [if_pos hnil, hinner.eq_nil hnil]
    have hrow : IsRow (head ++ " \x7b\x7d".toList) := hhead.append (by decide)
    have hshows := Shows.row (hrow.append hending)
    simpa using hshows
  · rw [if_neg hnil]
    have hne : inner ≠ [] := by
      rintro rfl
      exact hnil (hinner.rowsOf_eq.symm.trans rfl)
    have hbrace : IsRow "\x7d".toList := ⟨by decide, _, _, rfl, by decide⟩
    have hstart := Shows.row (hhead.append (show '\n' ∉ " \x7b".toList by decide))
    have hshows := hstart.append (hinner.append (.row (hbrace.append hending)))
    simpa [hne] using hshows

/-! ## Comments -/

/-- A line of a comment as a row. -/
def commentRow (line : List Char) : List Char :=
  if line = [] then "//".toList else "// ".toList ++ line

/-- The rows of a comment; none if it is empty. -/
def commentRows (comment : String) : List (List Char) :=
  if comment.isEmpty then [] else (linesOf comment.toList).map commentRow

theorem isRow_commentRow {line : List Char} (h : '\n' ∉ line) : IsRow (commentRow line) := by
  have hmark : ∀ more : List Char, '\n' ∉ more → IsRow ("//".toList ++ more) := fun more hmore =>
    IsRow.append ⟨by decide, _, _, rfl, by decide⟩ hmore
  unfold commentRow
  split
  · simpa using hmark [] (by simp)
  · have hblank : '\n' ∉ ' ' :: line := by simp [h]
    exact hmark (' ' :: line) hblank

/-- The lines of a comment that does not end with a line end. -/
theorem commentLines_eq {comment : List Char} (hne : comment ≠ [])
    (hlast : comment.getLast? ≠ some '\n') :
    commentLines comment = joinLines ((linesOf comment).map commentRow) := by
  have hprefix : prefixLines "// ".toList true comment =
      joinLines ((linesOf comment).map ("// ".toList ++ ·)) := by
    unfold prefixLines endedLines
    rw [if_neg (by simpa using hne)]
    simp [hlast]
  have hlines : ∀ line ∈ (linesOf comment).map ("// ".toList ++ ·), '\n' ∉ line := by
    intro line hline
    obtain ⟨line, hmem, rfl⟩ := List.mem_map.1 hline
    rw [List.mem_append, not_or]
    exact ⟨by decide, not_mem_of_mem_linesOf hmem⟩
  rw [commentLines, hprefix, linesOf_joinLines (by simp [linesOf_ne_nil]) hlines, List.map_map]
  refine congrArg joinLines (List.map_congr_left fun line _ => ?_)
  cases line with
  | nil => rfl
  | cons c line => simp [commentRow]

theorem Shows.comment {comment : String} (h : comment.toList.getLast? ≠ some '\n') :
    Shows (printComment comment) (commentRows comment) := by
  unfold printComment commentRows
  split
  · exact .nil
  · next hne =>
    have hne : comment.toList ≠ [] := by simpa using hne
    have hrows : Shows (((linesOf comment.toList).map commentRow).flatMap ('\n' :: ·))
        (((linesOf comment.toList).map commentRow).flatMap ([·])) := by
      refine .flatMap fun row hrow => .row ?_
      obtain ⟨line, hline, rfl⟩ := List.mem_map.1 hrow
      exact isRow_commentRow (not_mem_of_mem_linesOf hline)
    rwa [← newline_joinLines (by simp [linesOf_ne_nil]), ← commentLines_eq hne h,
      List.flatMap_singleton'] at hrows

end ApiProto.Proto
