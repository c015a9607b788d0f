import ApiProto.Proofs.PrintedRows

/-!
# Reading rows back

What has been written to rows can be told from them, and so can where it ends: a name ends at a mark,
a comment at the first row that belongs to none, a block at the row with its brace.

* `IsName.read`, `IsTypeName.read` — names.
* `comment_read` — comments.
* `ReadsAs` — an item is known from the rows that start with its own.
* `items_read`, `items_read_closing`, `rows_read` — items that stand one after another.
* `blockRows_read` — blocks.
-/

namespace ApiProto.Proto

open Text

/-! ## Names -/

/-- Where two equal lists first hold something of another kind, it is the same in both. -/
theorem append_read {α : Type} {p : α → Bool} {l l' rest rest' : List α} {a a' : α}
    (hl : ∀ x ∈ l, p x = false) (hl' : ∀ x ∈ l', p x = false) (ha : p a = true) (ha' : p a' = true)
    (h : l ++ a :: rest = l' ++ a' :: rest') : l = l' ∧ a = a' ∧ rest = rest' := by
  induction l generalizing l' with
  | nil =>
    cases l' with
    | nil => exact ⟨rfl, List.cons.inj h⟩
    | cons x l' =>
      obtain ⟨rfl, -⟩ := List.cons.inj h
      exact absurd ha (by simp [hl' a (List.mem_cons_self ..)])
  | cons x l ih =>
    cases l' with
    | nil =>
      obtain ⟨rfl, -⟩ := List.cons.inj h
      exact absurd ha' (by simp [hl x (List.mem_cons_self ..)])
    | cons x' l' =>
      obtain ⟨rfl, heq⟩ := List.cons.inj h
      obtain ⟨rfl, hrest⟩ := ih (fun y hy => hl y (List.mem_cons_of_mem _ hy))
        (fun y hy => hl' y (List.mem_cons_of_mem _ hy)) heq
      exact ⟨rfl, hrest⟩

/-- A name ends at the first mark. -/
theorem IsName.read {s s' : String} (h : IsName s) (h' : IsName s') {c c' : Char}
    {cs cs' : List Char} (hc : isMark c = true) (hc' : isMark c' = true)
    (heq : s.toList ++ c :: cs = s'.toList ++ c' :: cs') : s = s' ∧ c = c' ∧ cs = cs' := by
  obtain ⟨hs, hrest⟩ := append_read h.2 h'.2 hc hc' heq
  exact ⟨String.toList_inj.1 hs, hrest⟩

theorem isName_map : IsName "map" := by decide

/-- A map is told from a name by the mark after its first word. -/
theorem IsTypeName.read {t t' : String} (h : IsTypeName t) (h' : IsTypeName t') {c c' : Char}
    {cs cs' : List Char} (hc : isMark c = true) (hc' : isMark c' = true) (hne : c ≠ '<')
    (hne' : c' ≠ '<') (heq : t.toList ++ c :: cs = t'.toList ++ c' :: cs') :
    t = t' ∧ c = c' ∧ cs = cs' := by
  have hmap : ∀ (key value : String) (c : Char) (cs : List Char),
      ("map<" ++ key ++ ", " ++ value ++ ">").toList ++ c :: cs =
        "map".toList ++ '<' :: (key.toList ++ ',' :: ' ' :: (value.toList ++ '>' :: c :: cs)) := by
    intro key value c cs
    simp
  cases h with
  | name h =>
    cases h' with
    | name h' => exact h.read h' hc hc' heq
    | map hkey' hvalue' =>
      rw [hmap] at heq
      exact absurd (h.read isName_map hc (by decide) heq).2.1 hne
  | map hkey hvalue =>
    rw [hmap] at heq
    cases h' with
    | name h' => exact absurd (isName_map.read h' (by decide) hc' heq).2.1.symm hne'
    | map hkey' hvalue' =>
      rw [hmap] at heq
      obtain ⟨-, -, heq⟩ := isName_map.read isName_map (by decide) (by decide) heq
      obtain ⟨rfl, -, heq⟩ := hkey.read hkey' (by decide) (by decide) heq
      obtain ⟨rfl, -, heq⟩ := hvalue.read hvalue' (by decide) (by decide) (List.cons.inj heq).2
      exact ⟨rfl, List.cons.inj heq⟩

/-- A row that starts with no mark, unlike comments and the ends of blocks. -/
def Unmarked (row : List Char) : Prop := ∃ c rest, row = c :: rest ∧ isMark c = false

theorem Unmarked.append {row : List Char} (h : Unmarked row) (more : List Char) :
    Unmarked (row ++ more) := by
  obtain ⟨c, rest, rfl, hc⟩ := h
  exact ⟨c, rest ++ more, rfl, hc⟩

theorem Unmarked.head?_ne {row : List Char} (h : Unmarked row) {c : Char} (hc : isMark c = true) :
    row.head? ≠ some c := by
  obtain ⟨c', rest, rfl, hc'⟩ := h
  rintro ⟨⟩
  exact absurd hc (by simp [hc'])

theorem IsName.unmarked {s : String} (h : IsName s) : Unmarked s.toList := h.exists_cons

theorem IsTypeName.unmarked {t : String} (h : IsTypeName t) : Unmarked t.toList := by
  cases h with
  | name h => exact h.unmarked
  | map =>
    have hmap : Unmarked "map<".toList := ⟨_, _, rfl, by decide⟩
    simp only [String.toList_append]
    exact (((hmap.append _).append _).append _).append _

/-! ## Comments -/

/-- Rows of which the first belongs to no comment. -/
def Uncommented (rows : List (List Char)) : Prop :=
  ∃ row more, rows = row :: more ∧ (row.head? != some '/') = true

theorem Unmarked.uncommented {row : List Char} (h : Unmarked row) (more : List (List Char)) :
    Uncommented (row :: more) :=
  ⟨row, more, rfl, by simpa using h.head?_ne (by decide)⟩

theorem Uncommented.append {rows : List (List Char)} (h : Uncommented rows)
    (more : List (List Char)) : Uncommented (rows ++ more) := by
  obtain ⟨row, rest, rfl, hrow⟩ := h
  exact ⟨row, rest ++ more, rfl, hrow⟩

theorem commentRow_injective : Function.Injective commentRow := by
  intro line line' h
  unfold commentRow at h
  split at h <;> split at h
  · next hnil hnil' => rw [hnil, hnil']
  · simp at h
  · simp at h
  · exact List.append_cancel_left h

theorem commentRows_injective : Function.Injective commentRows := by
  intro c c' h
  unfold commentRows at h
  split at h <;> split at h
  · next hempty hempty' => rw [String.isEmpty_iff.1 hempty, String.isEmpty_iff.1 hempty']
  · exact absurd h.symm (by simp [linesOf_ne_nil])
  · exact absurd h (by simp [linesOf_ne_nil])
  · exact String.toList_inj.1 (linesOf_injective (commentRow_injective.list_map h))

theorem head?_of_mem_commentRows {c : String} {row : List Char} (h : row ∈ commentRows c) :
    (row.head? != some '/') = false := by
  unfold commentRows at h
  split at h
  · cases h
  · obtain ⟨line, -, rfl⟩ := List.mem_map.1 h
    unfold commentRow
    split <;> rfl

/-- A comment ends at the first row that belongs to none. -/
theorem comment_read {c c' : String} {rows rows' : List (List Char)} (h : Uncommented rows)
    (h' : Uncommented rows') (heq : commentRows c ++ rows = commentRows c' ++ rows') :
    c = c' ∧ rows = rows' := by
  obtain ⟨row, more, rfl, hrow⟩ := h
  obtain ⟨row', more', rfl, hrow'⟩ := h'
  obtain ⟨hcomment, rfl, rfl⟩ := append_read (fun _ => head?_of_mem_commentRows)
    (fun _ => head?_of_mem_commentRows) hrow hrow' heq
  exact ⟨commentRows_injective hcomment, rfl⟩

/-- The first row that belongs to no comment. -/
def mainRow? (rows : List (List Char)) : Option (List Char) :=
  rows.find? fun row => row.head? != some '/'

theorem mainRow?_append (rows rows' : List (List Char)) :
    mainRow? (rows ++ rows') = (mainRow? rows).or (mainRow? rows') :=
  List.find?_append

@[simp] theorem mainRow?_commentRows (c : String) (rows : List (List Char)) :
    mainRow? (commentRows c ++ rows) = mainRow? rows := by
  have hnone : mainRow? (commentRows c) = none :=
    List.find?_eq_none.2 fun row hrow => by simp [head?_of_mem_commentRows hrow]
  rw [mainRow?_append, hnone, Option.none_or]

theorem mainRow?_cons {row : List Char} (h : row.head? ≠ some '/') (more : List (List Char)) :
    mainRow? (row :: more) = some row :=
  List.find?_cons_of_pos (by simpa using h)

theorem Unmarked.mainRow?_cons {row : List Char} (h : Unmarked row) (more : List (List Char)) :
    mainRow? (row :: more) = some row :=
  Proto.mainRow?_cons (h.head?_ne (by decide)) more

theorem forall_mainRow?_append {P : List Char → Prop} {rows rest : List (List Char)}
    (h : ∀ row ∈ mainRow? rows, P row) (hrest : ∀ row ∈ mainRow? rest, P row) :
    ∀ row ∈ mainRow? (rows ++ rest), P row := by
  intro row hrow
  rw [mainRow?_append] at hrow
  rcases Option.or_eq_some_iff.1 hrow with hrow | ⟨-, hrow⟩
  · exact h row hrow
  · exact hrest row hrow

theorem forall_mainRow?_flatMap {α : Type} {P : List Char → Prop} {rows : α → List (List Char)}
    {l : List α} {rest : List (List Char)} (h : ∀ a ∈ l, ∀ row ∈ mainRow? (rows a), P row)
    (hrest : ∀ row ∈ mainRow? rest, P row) : ∀ row ∈ mainRow? (l.flatMap rows ++ rest), P row := by
  induction l with
  | nil => exact hrest
  | cons a l ih =>
    rw [List.flatMap_cons, List.append_assoc]
    exact forall_mainRow?_append (h a (List.mem_cons_self ..))
      (ih fun b hb => h b (List.mem_cons_of_mem _ hb))

/-- A row that stands there or not is told from another one. -/
theorem optional_read {b b' : Bool} {row : List Char} (hrow : row.head? ≠ some '/')
    {rest rest' : List (List Char)} (hrest : ∀ other ∈ mainRow? rest, other ≠ row)
    (hrest' : ∀ other ∈ mainRow? rest', other ≠ row)
    (h : (if b then [row] else []) ++ rest = (if b' then [row] else []) ++ rest') :
    b = b' ∧ rest = rest' := by
  cases b <;> cases b'
  · exact ⟨rfl, h⟩
  · have h : rest = row :: rest' := h
    exact absurd rfl (hrest row (h ▸ mainRow?_cons hrow rest'))
  · have h : row :: rest = rest' := h
    exact absurd rfl (hrest' row (h ▸ mainRow?_cons hrow rest))
  · exact ⟨rfl, (List.cons.inj h).2⟩

/-! ## Items -/

section Items

variable {α : Type} {good : α → Prop} {rows : α → List (List Char)} {R : α → α → Prop}

/-- An item is known up to `R` from any rows that start with its own. -/
def ReadsAs (good : α → Prop) (rows : α → List (List Char)) (R : α → α → Prop) (a : α) : Prop :=
  ∀ a', good a' → ∀ rest rest', rows a ++ rest = rows a' ++ rest' → R a a' ∧ rest = rest'

/-- Items one after another are known if what follows does not start with the main row `P` of an
item. -/
theorem items_read {P : List Char → Prop}
    (hmain : ∀ a, good a → ∃ row, mainRow? (rows a) = some row ∧ P row) {l l' : List α}
    (hl : ∀ a ∈ l, good a) (hl' : ∀ a ∈ l', good a) (hread : ∀ a ∈ l, ReadsAs good rows R a)
    {rest rest' : List (List Char)} (hrest : ∀ row ∈ mainRow? rest, ¬P row)
    (hrest' : ∀ row ∈ mainRow? rest', ¬P row)
    (h : l.flatMap rows ++ rest = l'.flatMap rows ++ rest') :
    List.Forall₂ R l l' ∧ rest = rest' := by
  have hends : ∀ {rest : List (List Char)}, (∀ row ∈ mainRow? rest, ¬P row) →
      ∀ a, good a → ∀ more, rest ≠ rows a ++ more := by
    rintro rest hrest a ha more rfl
    obtain ⟨row, hrow, hP⟩ := hmain a ha
    refine hrest row ?_ hP
    rw [mainRow?_append, hrow]
    rfl
  induction l generalizing l' with
  | nil =>
    cases l' with
    | nil => exact ⟨.nil, h⟩
    | cons a' l' =>
      rw [List.flatMap_nil, List.nil_append, List.flatMap_cons, List.append_assoc] at h
      exact absurd h (hends hrest a' (hl' a' (List.mem_cons_self ..)) _)
  | cons a l ih =>
    cases l' with
    | nil =>
      rw [List.flatMap_nil, List.nil_append, List.flatMap_cons, List.append_assoc] at h
      exact absurd h.symm (hends hrest' a (hl a (List.mem_cons_self ..)) _)
    | cons a' l' =>
      rw [List.flatMap_cons, List.flatMap_cons, List.append_assoc, List.append_assoc] at h
      obtain ⟨hfirst, h⟩ := hread a (List.mem_cons_self ..) a' (hl' a' (List.mem_cons_self ..)) _ _ h
      obtain ⟨hitems, hrest⟩ := ih (fun b hb => hl b (List.mem_cons_of_mem _ hb))
        (fun b hb => hl' b (List.mem_cons_of_mem _ hb))
        (fun b hb => hread b (List.mem_cons_of_mem _ hb)) h
      exact ⟨.cons hfirst hitems, hrest⟩

/-- The row at the end of a block. -/
def closingRow (ending : List Char) : List Char := "\x7d".toList ++ ending

theorem mainRow?_closingRow (ending : List Char) (rest : List (List Char)) :
    mainRow? (closingRow ending :: rest) = some (closingRow ending) :=
  mainRow?_cons (by simp [closingRow]) rest

/-- Items at the end of a block. -/
theorem items_read_closing
    (hmain : ∀ a, good a → ∃ row, mainRow? (rows a) = some row ∧ Unmarked row)
    {l l' : List α} (hl : ∀ a ∈ l, good a) (hl' : ∀ a ∈ l', good a)
    (hread : ∀ a ∈ l, ReadsAs good rows R a) {ending : List Char} {rest rest' : List (List Char)}
    (h : l.flatMap rows ++ closingRow ending :: rest =
      l'.flatMap rows ++ closingRow ending :: rest') :
    List.Forall₂ R l l' ∧ rest = rest' := by
  have hclosing : ∀ (rest : List (List Char)), ∀ row ∈ mainRow? (closingRow ending :: rest),
      ¬Unmarked row := by
    intro rest row hrow hunmarked
    rw [mainRow?_closingRow] at hrow
    obtain rfl := Option.some.inj hrow
    exact hunmarked.head?_ne (c := '\x7d') (by decide) rfl
  obtain ⟨hitems, hrest⟩ := items_read hmain hl hl' hread (hclosing rest) (hclosing rest') h
  exact ⟨hitems, (List.cons.inj hrest).2⟩

/-- An item of one row is known as soon as the row is. -/
theorem ReadsAs.of_row {row : α → List Char}
    (hrow : ∀ a a', good a → good a' → row a = row a' → a = a') {a : α} (ha : good a) :
    ReadsAs good (fun a => [row a]) Eq a := by
  intro a' ha' rest rest' heq
  obtain ⟨hsame, hrest⟩ := List.cons.inj heq
  exact ⟨hrow a a' ha ha' hsame, hrest⟩

/-- Items of one row each. -/
theorem rows_read {P : List Char → Prop} {l l' : List α} (hl : ∀ a ∈ l, good a)
    (hl' : ∀ a ∈ l', good a) {row : α → List Char}
    (hmain : ∀ a, good a → mainRow? [row a] = some (row a) ∧ P (row a))
    (hrow : ∀ a a', good a → good a' → row a = row a' → a = a') {rest rest' : List (List Char)}
    (hrest : ∀ row ∈ mainRow? rest, ¬P row) (hrest' : ∀ row ∈ mainRow? rest', ¬P row)
    (h : (l.flatMap fun a => [row a]) ++ rest = (l'.flatMap fun a => [row a]) ++ rest') :
    l = l' ∧ rest = rest' := by
  obtain ⟨hitems, hrest⟩ := items_read (fun a ha => ⟨row a, hmain a ha⟩) hl hl'
    (fun a ha => .of_row hrow (hl a ha)) hrest hrest' h
  rw [List.forall₂_eq_eq_eq] at hitems
  exact ⟨hitems, hrest⟩

/-- Items of one row each at the end of a block. -/
theorem rows_read_closing {l l' : List α} (hl : ∀ a ∈ l, good a) (hl' : ∀ a ∈ l', good a)
    {row : α → List Char} (hunmarked : ∀ a, good a → Unmarked (row a))
    (hrow : ∀ a a', good a → good a' → row a = row a' → a = a') {ending : List Char}
    {rest rest' : List (List Char)}
    (h : (l.flatMap fun a => [row a]) ++ closingRow ending :: rest =
      (l'.flatMap fun a => [row a]) ++ closingRow ending :: rest') : l = l' ∧ rest = rest' := by
  obtain ⟨hitems, hrest⟩ := items_read_closing
    (fun a ha => ⟨row a, (hunmarked a ha).mainRow?_cons [], hunmarked a ha⟩) hl hl'
    (fun a ha => .of_row hrow (hl a ha)) h
  rw [List.forall₂_eq_eq_eq] at hitems
  exact ⟨hitems, hrest⟩

end Items

/-! ## Blocks -/

/-- The head of a block is known, and so is what is inside it as soon as its end is. -/
theorem blockRows_read {head head' ending : List Char} {rows rows' rest rest' : List (List Char)}
    (hending : ending.getLast? ≠ some '\x7b')
    (h : blockRows head ending rows ++ rest = blockRows head' ending rows' ++ rest') :
    head = head' ∧ rows ++ closingRow ending :: rest = rows' ++ closingRow ending :: rest' := by
  -- a row ends with the brace that opens a block only if there is something in it
  have hne : ∀ head head' : List Char,
      head ++ " \x7b\x7d".toList ++ ending ≠ head' ++ " \x7b".toList := by
    intro head head' heq
    have hlast := congrArg List.getLast? heq
    cases hcase : ending.getLast? with
    | none => simp [List.getLast?_eq_none_iff.1 hcase] at hlast
    | some c =>
      rw [List.getLast?_append, hcase, Option.some_or, List.getLast?_append] at hlast
      exact hending (hcase.trans hlast)
  unfold blockRows at h
  split at h <;> split at h
  · next hnil hnil' =>
    obtain ⟨hhead, rfl⟩ := List.cons.inj h
    rw [hnil, hnil', List.append_cancel_right (List.append_cancel_right hhead)]
    exact ⟨rfl, rfl⟩
  · exact absurd (List.cons.inj h).1 (hne head head')
  · exact absurd (List.cons.inj h).1.symm (hne head' head)
  · obtain ⟨hhead, hrows⟩ := List.cons.inj h
    refine ⟨List.append_cancel_right hhead, ?_⟩
    simpa [closingRow] using hrows

/-- A block starts with its head, in a row that does not end like a field. -/
theorem mainRow?_blockRows {head : List Char} (h : Unmarked head) (rows : List (List Char)) :
    ∃ row, mainRow? (blockRows head [] rows) = some row ∧ row.head? = head.head? ∧
      Unmarked row ∧ row.getLast? ≠ some ';' := by
  have hhead : ∀ more, (head ++ more).head? = head.head? := by
    obtain ⟨c, cs, rfl, -⟩ := h
    exact fun _ => rfl
  unfold blockRows
  rw [List.append_nil]
  split
  · refine ⟨_, (h.append _).mainRow?_cons _, hhead _, h.append _, ?_⟩
    rw [List.getLast?_append]
    simp
  · refine ⟨_, (h.append _).mainRow?_cons _, hhead _, h.append _, ?_⟩
    rw [List.getLast?_append]
    simp

theorem uncommented_blockRows {head : List Char} (h : Unmarked head) (ending : List Char)
    (rows : List (List Char)) : Uncommented (blockRows head ending rows) := by
  unfold blockRows
  split
  · exact ((h.append _).append _).uncommented _
  · exact (h.append _).uncommented _

end ApiProto.Proto
