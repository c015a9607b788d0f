import ApiProto.Proofs.RowReading
import Mathlib.Data.List.Perm.Basic

/-!
# Unique reading

A printed file tells what it has been printed from, up to the order of what stands side by side:
two files that can be printed and have the same text are the same in some order.

* `typedRow_injective`, `fieldRow_injective` — fields.
* `Rpc.Printable.read` — procedures with their options.
* `Declaration.Printable.read` — declarations, by induction on the tree.
* `File.reordered_of_text_eq` — files with the same text.
* `Graph.reordered_of_print_eq` — packages with the same text.
-/

namespace ApiProto.Proto

open Text

attribute [ext] Field Enumeration ExtensionField Extension

/-! ## Sorted lists -/

/-- Lists that are the same when they are sorted are the same up to order. -/
theorem perm_of_sortBy_eq {α : Type} {le : α → α → Bool} {l l' : List α}
    (h : sortBy le l = sortBy le l') : l.Perm l' :=
  ((sortBy_perm le l).symm.trans (.of_eq h)).trans (sortBy_perm le l')

/-- Lists of which the sorted ones are related item by item are related in some order. -/
theorem ReorderedBy.of_sortBy {α : Type} {R : α → α → Prop} {le : α → α → Bool} {l l' : List α}
    (h : List.Forall₂ R (sortBy le l) (sortBy le l')) : ReorderedBy R l l' := by
  have hcomp : Relation.Comp (List.Forall₂ R) List.Perm (sortBy le l) l' :=
    ⟨sortBy le l', h, sortBy_perm le l'⟩
  rw [List.forall₂_comp_perm_eq_perm_comp_forall₂] at hcomp
  obtain ⟨mid, hperm, hrelated⟩ := hcomp
  exact ⟨mid, (sortBy_perm le l).symm.trans hperm, hrelated⟩

/-! ## Fields -/

theorem typedRow_eq (type name : String) (number : Int) :
    typedRow type name number = type.toList ++ ' ' ::
      (name.toList ++ ' ' :: '=' :: ' ' :: ((toString number).toList ++ [';'])) := by
  simp [typedRow]

theorem typedRow_injective {type type' name name' : String} {number number' : Int}
    (ht : IsTypeName type) (ht' : IsTypeName type') (hn : IsName name) (hn' : IsName name')
    (h : typedRow type name number = typedRow type' name' number') :
    type = type' ∧ name = name' ∧ number = number' := by
  rw [typedRow_eq, typedRow_eq] at h
  obtain ⟨rfl, -, h⟩ := ht.read ht' (by decide) (by decide) (by decide) (by decide) h
  obtain ⟨rfl, -, h⟩ := hn.read hn' (by decide) (by decide) h
  have hnumber := List.append_cancel_right (List.cons.inj (List.cons.inj h).2).2
  exact ⟨rfl, rfl, integer_injective (String.toList_inj.1 hnumber)⟩

/-- What stands before a repeated field is no type: it would be followed by a name of two words. -/
theorem repeated_ne_typedRow {type type' name name' : String} {number number' : Int}
    (ht : IsTypeName type) (ht' : IsTypeName type') (hn : IsName name) (hn' : IsName name') :
    "repeated ".toList ++ typedRow type name number ≠ typedRow type' name' number' := by
  intro h
  have hrepeated : IsTypeName "repeated" := .name (by decide)
  have hstart : "repeated ".toList ++ typedRow type name number =
      "repeated".toList ++ ' ' :: typedRow type name number := by simp
  rw [hstart, typedRow_eq, typedRow_eq] at h
  -- `repeated` is read as the type on the right, so the type on the left is read as the name, and
  -- the name on the left would start with an equals sign
  obtain ⟨-, -, h⟩ := hrepeated.read ht' (by decide) (by decide) (by decide) (by decide) h
  obtain ⟨-, -, h⟩ := ht.read (.name hn') (by decide) (by decide) (by decide) (by decide) h
  obtain ⟨c, rest, hc, hmark⟩ := hn.exists_cons
  rw [hc] at h
  obtain ⟨rfl, -⟩ := List.cons.inj h
  exact absurd hmark (by decide)

theorem fieldRow_injective {f f' : NamedField String} (h : f.Printable) (h' : f'.Printable)
    (heq : fieldRow f = fieldRow f') : f.repeated = f'.repeated ∧ f.type = f'.type ∧
      f.name = f'.name ∧ f.number = f'.number := by
  unfold fieldRow at heq
  cases hf : f.repeated <;> cases hf' : f'.repeated <;> simp only [hf, hf', if_true] at heq
  · exact ⟨rfl, typedRow_injective h.type h'.type h.name h'.name heq⟩
  · exact absurd heq.symm (repeated_ne_typedRow h'.type h.type h'.name h.name)
  · exact absurd heq (repeated_ne_typedRow h.type h'.type h.name h'.name)
  · exact ⟨rfl, typedRow_injective h.type h'.type h.name h'.name (List.append_cancel_left heq)⟩

theorem unmarked_typedRow {type : String} (h : IsTypeName type) (name : String) (number : Int) :
    Unmarked (typedRow type name number) := by
  rw [typedRow_eq]
  exact h.unmarked.append _

theorem getLast?_typedRow (type name : String) (number : Int) :
    (typedRow type name number).getLast? = some ';' := by
  rw [typedRow, String.toList_append, List.getLast?_append]
  simp

/-- The main row of a field starts with no mark, and it does not end like a head. -/
theorem mainRow?_fieldRows {f : NamedField String} (h : f.Printable) :
    mainRow? (fieldRows f) = some (fieldRow f) ∧ Unmarked (fieldRow f) ∧
      (fieldRow f).getLast? = some ';' := by
  have hrow : Unmarked (fieldRow f) ∧ (fieldRow f).getLast? = some ';' := by
    unfold fieldRow
    split
    · refine ⟨Unmarked.append ⟨_, _, rfl, by decide⟩ _, ?_⟩
      rw [List.getLast?_append, getLast?_typedRow]
      rfl
    · exact ⟨unmarked_typedRow h.type .., getLast?_typedRow ..⟩
  rw [fieldRows, mainRow?_commentRows, hrow.1.mainRow?_cons]
  exact ⟨rfl, hrow⟩

theorem Field.Printable.read {f : NamedField String} (h : f.Printable) :
    ReadsAs Field.Printable fieldRows Eq f := by
  intro f' h' rest rest' heq
  rw [fieldRows, fieldRows, List.append_assoc, List.append_assoc] at heq
  obtain ⟨hcomment, hrows⟩ := comment_read ((mainRow?_fieldRows h).2.1.uncommented rest)
    ((mainRow?_fieldRows h').2.1.uncommented rest') heq
  obtain ⟨hrow, hrest⟩ := List.cons.inj hrows
  obtain ⟨hrepeated, htype, hname, hnumber⟩ := fieldRow_injective h h' hrow
  exact ⟨Field.ext htype hname hnumber hrepeated hcomment, hrest⟩

/-- Fields at the end of a block. -/
theorem fields_read {fields fields' : List (NamedField String)}
    (h : ∀ f ∈ fields, f.Printable) (h' : ∀ f ∈ fields', f.Printable) {rest rest' : List (List Char)}
    (heq : fields.flatMap fieldRows ++ closingRow [] :: rest =
      fields'.flatMap fieldRows ++ closingRow [] :: rest') : fields = fields' ∧ rest = rest' := by
  obtain ⟨hfields, hrest⟩ := items_read_closing
    (fun f hf => ⟨_, (mainRow?_fieldRows hf).1, (mainRow?_fieldRows hf).2.1⟩) h h'
    (fun f hf => (h f hf).read) heq
  rw [List.forall₂_eq_eq_eq] at hfields
  exact ⟨hfields, hrest⟩

/-! ## Enums and extensions -/

theorem unmarked_elementRow {element : String} (h : IsName element) (i : Nat) :
    Unmarked (elementRow element i) := by
  simp only [elementRow, String.toList_append]
  exact ((h.unmarked.append _).append _).append _

theorem elementRow_injective {element element' : String} {i i' : Nat} (h : IsName element)
    (h' : IsName element') (heq : elementRow element i = elementRow element' i') :
    element = element' ∧ i = i' := by
  have hrow : ∀ (element : String) (i : Nat), elementRow element i =
      element.toList ++ ' ' :: '=' :: ' ' :: ((toString i).toList ++ [';']) := by
    intro element i
    simp [elementRow]
  rw [hrow, hrow] at heq
  obtain ⟨rfl, -, heq⟩ := h.read h' (by decide) (by decide) heq
  have hnumber := List.append_cancel_right (List.cons.inj (List.cons.inj heq).2).2
  exact ⟨rfl, natural_injective (String.toList_inj.1 hnumber)⟩

theorem elements_read {elements elements' : List String} (h : ∀ e ∈ elements, IsName e)
    (h' : ∀ e ∈ elements', IsName e) {rest rest' : List (List Char)}
    (heq : (elements.zipIdx.flatMap fun (element, i) => [elementRow element i]) ++
        closingRow [] :: rest =
      (elements'.zipIdx.flatMap fun (element, i) => [elementRow element i]) ++
        closingRow [] :: rest') : elements = elements' ∧ rest = rest' := by
  have hnames : ∀ {elements : List String}, (∀ e ∈ elements, IsName e) →
      ∀ entry ∈ elements.zipIdx, IsName entry.1 :=
    fun h entry hentry => h _ (List.fst_mem_of_mem_zipIdx hentry)
  obtain ⟨hzip, hrest⟩ := rows_read_closing (hnames h) (hnames h')
    (fun entry hentry => unmarked_elementRow hentry entry.2)
    (fun entry entry' hn hn' hrow => Prod.ext_iff.2 (elementRow_injective hn hn' hrow)) heq
  have hfirst := congrArg (List.map Prod.fst) hzip
  rw [List.zipIdx_map_fst, List.zipIdx_map_fst] at hfirst
  exact ⟨hfirst, hrest⟩

theorem extensionFields_read {fields fields' : List ExtensionField}
    (h : ∀ f ∈ fields, IsTypeName f.type ∧ IsName f.name)
    (h' : ∀ f ∈ fields', IsTypeName f.type ∧ IsName f.name) {rest rest' : List (List Char)}
    (heq : (fields.flatMap fun f => [typedRow f.type f.name f.number]) ++ closingRow [] :: rest =
      (fields'.flatMap fun f => [typedRow f.type f.name f.number]) ++ closingRow [] :: rest') :
    fields = fields' ∧ rest = rest' := by
  refine rows_read_closing h h' (fun f hf => unmarked_typedRow hf.1 f.name f.number)
    (fun f f' hf hf' hrow => ?_) heq
  obtain ⟨htype, hname, hnumber⟩ := typedRow_injective hf.1 hf'.1 hf.2 hf'.2 hrow
  exact ExtensionField.ext hname htype hnumber

/-! ## Procedures -/

theorem methodRow_injective {method method' path path' : String} (h : IsName method)
    (h' : IsName method')
    (heq : (method ++ ": " ++ quote path).toList = (method' ++ ": " ++ quote path').toList) :
    method = method' ∧ path = path' := by
  have hrow : ∀ method path : String, (method ++ ": " ++ quote path).toList =
      method.toList ++ ':' :: ' ' :: (quote path).toList := by
    intro method path
    simp
  rw [hrow, hrow] at heq
  obtain ⟨hmethod, -, heq⟩ := h.read h' (by decide) (by decide) heq
  exact ⟨hmethod, quote_injective (String.toList_inj.1 (List.cons.inj heq).2)⟩

/-- The body of an HTTP option may be missing; what follows is the end of the block then. -/
theorem bodyRow_read {body body' : String} {rest rest' : List (List Char)}
    (h : (if body.isEmpty then [] else [("body: " ++ quote body).toList]) ++
        closingRow [';'] :: rest =
      (if body'.isEmpty then [] else [("body: " ++ quote body').toList]) ++
        closingRow [';'] :: rest') : body = body' ∧ rest = rest' := by
  have hne : ∀ body : String, ("body: " ++ quote body).toList ≠ closingRow [';'] := by
    intro body hclosing
    simp [closingRow] at hclosing
  split at h <;> split at h
  · next hempty hempty' =>
    rw [String.isEmpty_iff.1 hempty, String.isEmpty_iff.1 hempty']
    exact ⟨rfl, (List.cons.inj h).2⟩
  · exact absurd (List.cons.inj h).1.symm (hne body')
  · exact absurd (List.cons.inj h).1 (hne body)
  · obtain ⟨hbody, h⟩ := List.cons.inj h
    rw [String.toList_inj, String.append_right_inj] at hbody
    exact ⟨quote_injective hbody, (List.cons.inj h).2⟩

theorem mainRow?_httpRows (method path body : String) :
    mainRow? (httpRows method path body) = some "option (google.api.http) = \x7b".toList :=
  mainRow?_cons (by decide) _

theorem httpRows_read {option : String × String × String} (h : IsName option.1) :
    ReadsAs (fun option : String × String × String => IsName option.1)
      (fun (method, path, body) => httpRows method path body) Eq option := by
  intro option' h' rest rest' heq
  obtain ⟨-, heq⟩ := blockRows_read (by decide) heq
  obtain ⟨hmethod, heq⟩ := List.cons.inj heq
  obtain ⟨hbody, hrest⟩ := bodyRow_read heq
  obtain ⟨hmethod, hpath⟩ := methodRow_injective h h' hmethod
  exact ⟨Prod.ext hmethod (Prod.ext hpath hbody), hrest⟩

theorem unmarked_customRow (name literal : String) : Unmarked (customRow name literal) := by
  have hoption : Unmarked "option (".toList := ⟨_, _, rfl, by decide⟩
  simp only [customRow, String.toList_append]
  exact (((hoption.append _).append _).append _).append _

theorem getLast?_customRow (name literal : String) :
    (customRow name literal).getLast? = some ';' := by
  rw [customRow, String.toList_append, List.getLast?_append]
  simp

theorem customRow_injective {name name' literal literal' : String} (h : IsName name)
    (h' : IsName name') (heq : customRow name literal = customRow name' literal') :
    name = name' ∧ literal = literal' := by
  have hrow : ∀ name literal : String, customRow name literal = "option (".toList ++
      (name.toList ++ ')' :: ' ' :: '=' :: ' ' :: (literal.toList ++ [';'])) := by
    intro name literal
    simp [customRow]
  rw [hrow, hrow] at heq
  obtain ⟨hname, -, heq⟩ := h.read h' (by decide) (by decide) (List.append_cancel_left heq)
  have hliteral := List.append_cancel_right (List.cons.inj (List.cons.inj (List.cons.inj heq).2).2).2
  exact ⟨hname, String.toList_inj.1 hliteral⟩

theorem customRow_ne_deprecatedRow (name literal : String) :
    customRow name literal ≠ deprecatedRow := by
  show customRow name literal ≠ "option deprecated = true;".toList
  simp [customRow]

/-- Custom options at the end of a procedure start neither like an HTTP option nor like what marks
the procedure as deprecated. -/
theorem mainRow?_customRows (entries : List (String × String)) (rest : List (List Char)) :
    ∀ row ∈ mainRow? ((entries.flatMap fun (name, literal) => [customRow name literal]) ++
      closingRow [] :: rest), row.getLast? ≠ some '\x7b' ∧ row ≠ deprecatedRow := by
  refine forall_mainRow?_flatMap (fun entry _ row hrow => ?_) fun row hrow => ?_
  · rw [(unmarked_customRow ..).mainRow?_cons] at hrow
    obtain rfl := Option.some.inj hrow
    exact ⟨by simp [getLast?_customRow], customRow_ne_deprecatedRow _ _⟩
  · rw [mainRow?_closingRow] at hrow
    obtain rfl := Option.some.inj hrow
    exact ⟨by decide, by decide⟩

theorem mainRow?_deprecatedRow (b : Bool) {rest : List (List Char)}
    (h : ∀ row ∈ mainRow? rest, row.getLast? ≠ some '\x7b') :
    ∀ row ∈ mainRow? ((if b then [deprecatedRow] else []) ++ rest), row.getLast? ≠ some '\x7b' := by
  refine forall_mainRow?_append (fun row hrow => ?_) h
  cases b with
  | false => cases hrow
  | true =>
    obtain rfl := Option.some.inj hrow
    decide

theorem httpOptions_read {options options' : List (String × String × String)}
    (hnames : ∀ option ∈ options, IsName option.1) (hnames' : ∀ option ∈ options', IsName option.1)
    {rest rest' : List (List Char)} (h : ∀ row ∈ mainRow? rest, row.getLast? ≠ some '\x7b')
    (h' : ∀ row ∈ mainRow? rest', row.getLast? ≠ some '\x7b')
    (heq : (options.flatMap fun (method, path, body) => httpRows method path body) ++ rest =
      (options'.flatMap fun (method, path, body) => httpRows method path body) ++ rest') :
    options = options' ∧ rest = rest' := by
  obtain ⟨hoptions, hrest⟩ := items_read (R := Eq) (P := fun row => row.getLast? = some '\x7b')
    (fun option _ => ⟨_, mainRow?_httpRows .., by decide⟩) hnames hnames'
    (fun option hoption => httpRows_read (hnames option hoption)) h h' heq
  rw [List.forall₂_eq_eq_eq] at hoptions
  exact ⟨hoptions, hrest⟩

theorem customRows_read {entries entries' : List (String × String)}
    (h : ∀ entry ∈ entries, IsName entry.1) (h' : ∀ entry ∈ entries', IsName entry.1)
    {rest rest' : List (List Char)}
    (heq : (entries.flatMap fun (name, literal) => [customRow name literal]) ++
        closingRow [] :: rest =
      (entries'.flatMap fun (name, literal) => [customRow name literal]) ++
        closingRow [] :: rest') : entries = entries' ∧ rest = rest' := by
  refine rows_read_closing h h' (fun entry _ => unmarked_customRow entry.1 entry.2)
    (fun entry entry' hn hn' hrow => ?_) heq
  exact Prod.ext_iff.2 (customRow_injective hn hn' hrow)

theorem rpcBody_read {r r' : NamedRpc} (h : r.Printable) (h' : r'.Printable)
    {rest rest' : List (List Char)} (heq : rpcBodyRows r ++ closingRow [] :: rest =
      rpcBodyRows r' ++ closingRow [] :: rest') :
    httpOptions r.options = httpOptions r'.options ∧ r.deprecated = r'.deprecated ∧
      (literalOptions r.options).Perm (literalOptions r'.options) ∧ rest = rest' := by
  have hcustom : ∀ {r : NamedRpc}, r.Printable → ∀ entry ∈ sortEntries (literalOptions r.options),
      IsName entry.1 := by
    intro r h entry hentry
    obtain ⟨option, hoption, rfl⟩ := List.mem_map.1 (mem_sortEntries.1 hentry)
    exact h.custom option hoption
  simp only [rpcBodyRows, List.append_assoc] at heq
  obtain ⟨hhttp, heq⟩ := httpOptions_read h.http h'.http
    (mainRow?_deprecatedRow _ fun row hrow => (mainRow?_customRows _ _ row hrow).1)
    (mainRow?_deprecatedRow _ fun row hrow => (mainRow?_customRows _ _ row hrow).1) heq
  obtain ⟨hdeprecated, heq⟩ := optional_read (by decide)
    (fun row hrow => (mainRow?_customRows _ _ row hrow).2)
    (fun row hrow => (mainRow?_customRows _ _ row hrow).2) heq
  obtain ⟨hentries, hrest⟩ := customRows_read (hcustom h) (hcustom h') heq
  exact ⟨hhttp, hdeprecated, perm_of_sortBy_eq hentries, hrest⟩

theorem rpcHead_eq (r : NamedRpc) : rpcHead r = "rpc ".toList ++ (r.name.toList ++ '(' ::
    (r.parameter.toList ++ ')' :: (" returns (".toList ++ (r.response.toList ++ [')'])))) := by
  simp [rpcHead]

theorem unmarked_rpcHead (r : NamedRpc) : Unmarked (rpcHead r) := by
  rw [rpcHead_eq]
  exact Unmarked.append ⟨_, _, rfl, by decide⟩ _

theorem rpcHead_injective {r r' : NamedRpc} (h : r.Printable) (h' : r'.Printable)
    (heq : rpcHead r = rpcHead r') :
    r.name = r'.name ∧ r.parameter = r'.parameter ∧ r.response = r'.response := by
  rw [rpcHead_eq, rpcHead_eq] at heq
  obtain ⟨hname, -, heq⟩ := h.name.read h'.name (by decide) (by decide) (List.append_cancel_left heq)
  obtain ⟨hparameter, -, heq⟩ := h.parameter.read h'.parameter (by decide) (by decide) (by decide)
    (by decide) heq
  obtain ⟨hresponse, -⟩ := h.response.read h'.response (by decide) (by decide) (by decide)
    (by decide) (List.append_cancel_left heq)
  exact ⟨hname, hparameter, hresponse⟩

theorem Rpc.Printable.read {r : NamedRpc} (h : r.Printable) :
    ReadsAs Rpc.Printable rpcRows Rpc.Reordered r := by
  intro r' h' rest rest' heq
  rw [rpcRows, rpcRows, List.append_assoc, List.append_assoc] at heq
  obtain ⟨hcomment, heq⟩ := comment_read
    ((uncommented_blockRows (unmarked_rpcHead r) ..).append rest)
    ((uncommented_blockRows (unmarked_rpcHead r') ..).append rest') heq
  obtain ⟨hhead, heq⟩ := blockRows_read (by decide) heq
  obtain ⟨hname, hparameter, hresponse⟩ := rpcHead_injective h h' hhead
  obtain ⟨hhttp, hdeprecated, hcustom, hrest⟩ := rpcBody_read h h' heq
  exact ⟨⟨hname.symm, hparameter.symm, hresponse.symm, hcomment.symm, hdeprecated.symm, hhttp.symm,
    hcustom⟩, hrest⟩

theorem mainRow?_rpcRows (r : NamedRpc) : ∃ row, mainRow? (rpcRows r) = some row ∧ Unmarked row := by
  obtain ⟨row, hrow, -, hunmarked, -⟩ := mainRow?_blockRows (unmarked_rpcHead r) (rpcBodyRows r)
  exact ⟨row, by rw [rpcRows, mainRow?_commentRows, hrow], hunmarked⟩

/-! ## Declarations -/

namespace Declaration

variable {n : Nat} {d d' : Declaration String}

theorem Printable.name (h : d.Printable) : IsName d.name := by
  cases h <;> assumption

/-- What stands before the name of a declaration is a word and a blank. -/
theorem Printable.keyword (h : d.Printable) : ∃ word, IsName word ∧ d.keyword = word ++ " " := by
  cases h with
  | message => exact ⟨"message", by decide, rfl⟩
  | enumeration => exact ⟨"enum", by decide, rfl⟩
  | extension => exact ⟨"extend", by decide, rfl⟩
  | service => exact ⟨"service", by decide, rfl⟩

theorem Printable.unmarked_head (h : d.Printable) : Unmarked d.head := by
  obtain ⟨word, hword, heq⟩ := h.keyword
  rw [head, heq, String.toList_append, String.toList_append]
  exact (hword.unmarked.append _).append _

theorem head_injective (h : d.Printable) (h' : d'.Printable) (heq : d.head = d'.head) :
    d.keyword = d'.keyword ∧ d.name = d'.name := by
  obtain ⟨word, hword, hkeyword⟩ := h.keyword
  obtain ⟨word', hword', hkeyword'⟩ := h'.keyword
  have hhead : ∀ word name : String, (word ++ " " ++ name).toList =
      word.toList ++ ' ' :: name.toList := by
    intro word name
    simp
  rw [head, head, hkeyword, hkeyword', hhead, hhead] at heq
  obtain ⟨rfl, -, hname⟩ := hword.read hword' (by decide) (by decide) heq
  exact ⟨hkeyword.trans hkeyword'.symm, String.toList_inj.1 hname⟩

/-- A declaration starts with a row that is no field and does not end a block. -/
theorem Printable.mainRow? (h : d.Printable) :
    ∃ row, Proto.mainRow? (d.rows n) = some row ∧ row.head? = d.head.head? ∧ Unmarked row ∧
      row.getLast? ≠ some ';' := by
  obtain ⟨row, hrow, hfacts⟩ := mainRow?_blockRows h.unmarked_head (d.bodyRows n)
  exact ⟨row, by rw [(h.shown n).rows_eq, mainRow?_commentRows, hrow], hfacts⟩

/-- The comment, the keyword and the name of a declaration are known, and so is what is inside it as
soon as its end is. -/
theorem Printable.read_outside (h : d.Printable) (h' : d'.Printable) {rest rest' : List (List Char)}
    (heq : d.rows n ++ rest = d'.rows n ++ rest') :
    d.comment = d'.comment ∧ d.keyword = d'.keyword ∧ d.name = d'.name ∧
      d.bodyRows n ++ closingRow [] :: rest = d'.bodyRows n ++ closingRow [] :: rest' := by
  rw [(h.shown n).rows_eq, (h'.shown n).rows_eq, List.append_assoc, List.append_assoc] at heq
  obtain ⟨hcomment, heq⟩ := comment_read ((uncommented_blockRows h.unmarked_head ..).append rest)
    ((uncommented_blockRows h'.unmarked_head ..).append rest') heq
  obtain ⟨hhead, hbody⟩ := blockRows_read (by decide) heq
  obtain ⟨hkeyword, hname⟩ := head_injective h h' hhead
  exact ⟨hcomment, hkeyword, hname, hbody⟩

/-- The declarations and the fields in a message. -/
theorem message_read {children children' : List (Declaration String)}
    {fields fields' : List (NamedField String)} (hchildren : ∀ d ∈ children, d.Printable)
    (hchildren' : ∀ d ∈ children', d.Printable) (hfields : ∀ f ∈ fields, f.Printable)
    (hfields' : ∀ f ∈ fields', f.Printable)
    (hread : ∀ d ∈ children, ReadsAs Printable (rows n) Reordered d) {rest rest' : List (List Char)}
    (heq : children.flatMap (rows n) ++ (fields.flatMap fieldRows ++ closingRow [] :: rest) =
      children'.flatMap (rows n) ++ (fields'.flatMap fieldRows ++ closingRow [] :: rest')) :
    List.Forall₂ Reordered children children' ∧ fields = fields' ∧ rest = rest' := by
  -- a field may start with a comment like a declaration does: what tells them apart is the end of
  -- the row after the comment
  have hafter : ∀ {fields : List (NamedField String)}, (∀ f ∈ fields, f.Printable) →
      ∀ rest, ∀ row ∈ Proto.mainRow? (fields.flatMap fieldRows ++ closingRow [] :: rest),
        ¬(Unmarked row ∧ row.getLast? ≠ some ';') := by
    intro fields h rest
    refine forall_mainRow?_flatMap (fun f hf row hrow => ?_) fun row hrow => ?_
    · rw [(mainRow?_fieldRows (h f hf)).1] at hrow
      obtain rfl := Option.some.inj hrow
      exact fun hnot => hnot.2 (mainRow?_fieldRows (h f hf)).2.2
    · rw [mainRow?_closingRow] at hrow
      obtain rfl := Option.some.inj hrow
      exact fun hnot => hnot.1.head?_ne (c := '\x7d') (by decide) rfl
  have hmain : ∀ d : Declaration String, d.Printable →
      ∃ row, Proto.mainRow? (d.rows n) = some row ∧ Unmarked row ∧ row.getLast? ≠ some ';' := by
    intro d h
    obtain ⟨row, hrow, -, hfacts⟩ := h.mainRow?
    exact ⟨row, hrow, hfacts⟩
  obtain ⟨hrelated, heq⟩ := items_read hmain hchildren hchildren' hread (hafter hfields rest)
    (hafter hfields' rest') heq
  obtain ⟨hfields, hrest⟩ := fields_read hfields hfields' heq
  exact ⟨hrelated, hfields, hrest⟩

/-- A declaration is known up to order from any rows that start with its own. -/
theorem Printable.read (n : Nat) :
    ∀ {d : Declaration String}, d.Printable → ReadsAs Printable (rows n) Reordered d := by
  intro d
  induction d using Declaration.induct with
  | message name comment fields children ih =>
    intro h d' h' rest rest' heq
    obtain ⟨rfl, hkeyword, rfl, hbody⟩ := h.read_outside h' heq
    cases h' with
    | message _ _ hfields' hchildren' =>
      obtain ⟨-, -, hfields, hchildren⟩ := h
      simp only [bodyRows, List.append_assoc] at hbody
      obtain ⟨hrelated, hsame, hrest⟩ := message_read
        (fun d hd => hchildren d (mem_sortBy.1 hd)) (fun d hd => hchildren' d (mem_sortBy.1 hd))
        (fun f hf => hfields f (mem_sortBy.1 hf)) (fun f hf => hfields' f (mem_sortBy.1 hf))
        (fun d hd => ih d (mem_sortBy.1 hd) (hchildren d (mem_sortBy.1 hd))) hbody
      obtain ⟨mid, hperm, hmid⟩ := ReorderedBy.of_sortBy hrelated
      exact ⟨.message (perm_of_sortBy_eq hsame) hperm hmid, hrest⟩
    | _ => simp [Declaration.keyword] at hkeyword
  | enumeration e =>
    intro h d' h' rest rest' heq
    obtain ⟨hcomment, hkeyword, hname, hbody⟩ := h.read_outside h' heq
    cases h' with
    | enumeration _ _ helements' =>
      cases h with
      | enumeration _ _ helements =>
        obtain ⟨helements, hrest⟩ := elements_read helements helements' hbody
        have hsame := Enumeration.ext hname helements hcomment
        exact ⟨hsame ▸ .enumeration e, hrest⟩
    | _ => simp [Declaration.keyword] at hkeyword
  | extension e =>
    intro h d' h' rest rest' heq
    obtain ⟨-, hkeyword, hname, hbody⟩ := h.read_outside h' heq
    cases h' with
    | extension _ hfields' =>
      cases h with
      | extension _ hfields =>
        obtain ⟨hfields, hrest⟩ := extensionFields_read hfields hfields' hbody
        have hsame := Extension.ext hname hfields
        exact ⟨hsame ▸ .extension e, hrest⟩
    | _ => simp [Declaration.keyword] at hkeyword
  | service name rpcs =>
    intro h d' h' rest rest' heq
    obtain ⟨-, hkeyword, rfl, hbody⟩ := h.read_outside h' heq
    cases h' with
    | service _ _ hrpcs' =>
      cases h with
      | service _ _ hrpcs =>
        obtain ⟨hrelated, hrest⟩ := items_read_closing (fun r _ => mainRow?_rpcRows r)
          (fun r hr => hrpcs r (mem_sortBy.1 hr)) (fun r hr => hrpcs' r (mem_sortBy.1 hr))
          (fun r hr => (hrpcs r (mem_sortBy.1 hr)).read) hbody
        exact ⟨.service (.of_sortBy hrelated), hrest⟩
    | _ => simp [Declaration.keyword] at hkeyword
  | other kind name => nofun

/-- No declaration starts like an import or an option. -/
theorem Printable.head?_head (h : d.Printable) :
    d.head.head? ≠ some 'i' ∧ d.head.head? ≠ some 'o' := by
  cases h <;> simp [head, Declaration.keyword]

end Declaration

/-! ## Files -/

theorem importRow_injective : Function.Injective importRow := by
  intro file file' h
  rw [importRow, importRow, String.toList_inj, String.append_left_inj, String.append_right_inj] at h
  exact quote_injective h

theorem optionRow_injective {name name' value value' : String} (h : IsName name)
    (h' : IsName name') (heq : optionRow name value = optionRow name' value') :
    name = name' ∧ value = value' := by
  have hrow : ∀ name value : String, optionRow name value = "option ".toList ++
      (name.toList ++ ' ' :: '=' :: ' ' :: ((quote value).toList ++ [';'])) := by
    intro name value
    simp [optionRow]
  rw [hrow, hrow] at heq
  obtain ⟨hname, -, heq⟩ := h.read h' (by decide) (by decide) (List.append_cancel_left heq)
  have hvalue := List.append_cancel_right (List.cons.inj (List.cons.inj heq).2).2
  exact ⟨hname, quote_injective (String.toList_inj.1 hvalue)⟩

theorem mainRow?_importRow (file : String) :
    mainRow? [importRow file] = some (importRow file) ∧ (importRow file).head? = some 'i' := by
  have hhead : (importRow file).head? = some 'i' := by simp [importRow]
  exact ⟨mainRow?_cons (by simp [hhead]) _, hhead⟩

theorem mainRow?_optionRow (name value : String) : mainRow? [optionRow name value] =
    some (optionRow name value) ∧ (optionRow name value).head? = some 'o' := by
  have hhead : (optionRow name value).head? = some 'o' := by simp [optionRow]
  exact ⟨mainRow?_cons (by simp [hhead]) _, hhead⟩

/-- Declarations at the end of a file start like no import and no option. -/
theorem mainRow?_declarations {n : Nat} {ds : List (Declaration String)}
    (h : ∀ d ∈ ds, d.Printable) : ∀ row ∈ mainRow? (ds.flatMap (Declaration.rows n) ++ []),
      row.head? ≠ some 'i' ∧ row.head? ≠ some 'o' := by
  refine forall_mainRow?_flatMap (fun d hd row hrow => ?_) nofun
  obtain ⟨main, hmain, hhead, -⟩ := (h d hd).mainRow? (n := n)
  obtain rfl := Option.some.inj (hmain.symm.trans hrow)
  rw [hhead]
  exact (h d hd).head?_head

/-- Options before something that is no import start like none. -/
theorem mainRow?_options {options : List (String × String)} {rest : List (List Char)}
    (h : ∀ row ∈ mainRow? rest, row.head? ≠ some 'i') : ∀ row ∈ mainRow?
      ((options.flatMap fun (name, value) => [optionRow name value]) ++ rest),
        row.head? ≠ some 'i' := by
  refine forall_mainRow?_flatMap (fun option _ row hrow => ?_) h
  rw [(mainRow?_optionRow ..).1] at hrow
  obtain rfl := Option.some.inj hrow
  simp [(mainRow?_optionRow ..).2]

theorem imports_read {imports imports' : List String} {rest rest' : List (List Char)}
    (h : ∀ row ∈ mainRow? rest, row.head? ≠ some 'i')
    (h' : ∀ row ∈ mainRow? rest', row.head? ≠ some 'i')
    (heq : (imports.flatMap fun file => [importRow file]) ++ rest =
      (imports'.flatMap fun file => [importRow file]) ++ rest') :
    imports = imports' ∧ rest = rest' := by
  have hany : ∀ files : List String, ∀ file ∈ files, True := fun _ _ _ => trivial
  exact rows_read (P := fun row => row.head? = some 'i') (hany imports) (hany imports')
    (fun file _ => mainRow?_importRow file) (fun _ _ _ _ hrow => importRow_injective hrow) h h' heq

theorem options_read {options options' : List (String × String)}
    (hnames : ∀ option ∈ options, IsName option.1) (hnames' : ∀ option ∈ options', IsName option.1)
    {rest rest' : List (List Char)} (h : ∀ row ∈ mainRow? rest, row.head? ≠ some 'o')
    (h' : ∀ row ∈ mainRow? rest', row.head? ≠ some 'o')
    (heq : (options.flatMap fun (name, value) => [optionRow name value]) ++ rest =
      (options'.flatMap fun (name, value) => [optionRow name value]) ++ rest') :
    options = options' ∧ rest = rest' := by
  refine rows_read (P := fun row => row.head? = some 'o') hnames hnames'
    (fun option _ => mainRow?_optionRow option.1 option.2) (fun option option' hn hn' hrow => ?_) h
    h' heq
  exact Prod.ext_iff.2 (optionRow_injective hn hn' hrow)

theorem declarations_read {n : Nat} {ds ds' : List (Declaration String)}
    (h : ∀ d ∈ ds, d.Printable) (h' : ∀ d ∈ ds', d.Printable)
    (heq : ds.flatMap (Declaration.rows n) ++ [] = ds'.flatMap (Declaration.rows n) ++ []) :
    List.Forall₂ Declaration.Reordered ds ds' := by
  have hmain : ∀ d : Declaration String, d.Printable →
      ∃ row, mainRow? (d.rows n) = some row ∧ Unmarked row := by
    intro d hd
    obtain ⟨row, hrow, -, hunmarked, -⟩ := hd.mainRow? (n := n)
    exact ⟨row, hrow, hunmarked⟩
  have hend : ∀ row ∈ mainRow? [], ¬Unmarked row := by
    intro row hrow
    cases hrow
  exact (items_read hmain h h' (fun d hd => (h d hd).read n) hend hend heq).1

theorem File.rows_eq (n : Nat) (f : File String) : f.rows n =
    "syntax = \"proto3\";".toList :: ("package " ++ f.name ++ ";").toList ::
      (((sortBy (fun a b => decide (a ≤ b)) f.imports).flatMap fun file => [importRow file]) ++
        (((sortEntries f.options).flatMap fun (name, value) => [optionRow name value]) ++
          ((Declaration.inOrder f.children).flatMap (Declaration.rows n) ++ []))) := by
  rw [rows, headRows, List.cons_append, List.cons_append, List.append_assoc, List.append_nil]

/-- Files with the same rows are the same up to order. -/
theorem File.reordered_of_rows_eq {f f' : File String} (h : f.Printable) (h' : f'.Printable)
    {n : Nat} (heq : f.rows n = f'.rows n) : f.Reordered f' := by
  have hnames : ∀ {f : File String}, f.Printable → ∀ option ∈ sortEntries f.options,
      IsName option.1 := fun h option hoption => h.options option (mem_sortEntries.1 hoption)
  have hprintable : ∀ {f : File String}, f.Printable →
      ∀ d ∈ Declaration.inOrder f.children, d.Printable :=
    fun h d hd => h.children d (mem_sortBy.1 hd)
  have hafter : ∀ {f : File String}, f.Printable → ∀ row ∈ mainRow?
      ((Declaration.inOrder f.children).flatMap (Declaration.rows n) ++ []),
        row.head? ≠ some 'i' ∧ row.head? ≠ some 'o' :=
    fun h => mainRow?_declarations (hprintable h)
  -- the sections stand one after another, and each ends where a row starts with another letter
  rw [rows_eq, rows_eq] at heq
  obtain ⟨hname, heq⟩ := List.cons.inj (List.cons.inj heq).2
  rw [String.toList_inj, String.append_left_inj, String.append_right_inj] at hname
  obtain ⟨himports, heq⟩ := imports_read (mainRow?_options fun row hrow => (hafter h row hrow).1)
    (mainRow?_options fun row hrow => (hafter h' row hrow).1) heq
  obtain ⟨hoptions, heq⟩ := options_read (hnames h) (hnames h')
    (fun row hrow => (hafter h row hrow).2) (fun row hrow => (hafter h' row hrow).2) heq
  have hchildren := declarations_read (hprintable h) (hprintable h') heq
  exact ⟨hname.symm, perm_of_sortBy_eq himports, perm_of_sortBy_eq hoptions, .of_sortBy hchildren⟩

/-- Files with the same text are the same up to order. -/
theorem File.reordered_of_text_eq {f f' : File String} (h : f.Printable) (h' : f'.Printable)
    {n : Nat} (heq : f.print (String.ofList (List.replicate n ' ')) =
      f'.print (String.ofList (List.replicate n ' '))) : f.Reordered f' := by
  obtain ⟨text, hprint, hrows⟩ := print_ok h n
  obtain ⟨text', hprint', hrows'⟩ := print_ok h' n
  obtain rfl := Except.ok.inj ((hprint.symm.trans heq).trans hprint')
  exact reordered_of_rows_eq h h' (hrows.symm.trans hrows')

/-! ## Packages -/

/-- Packages that are printed to the same text are the same up to the order of what is inside
them. -/
theorem Graph.reordered_of_print_eq {g g' : Graph} {package package' : Nat} {f f' : File String}
    (hf : g.written? package = some f) (hf' : g'.written? package' = some f') (h : f.Printable)
    (h' : f'.Printable) (n : Nat)
    (heq : g.print (String.ofList (List.replicate n ' ')) package =
      g'.print (String.ofList (List.replicate n ' ')) package') : f.Reordered f' := by
  rw [print_of_written hf, print_of_written hf'] at heq
  exact File.reordered_of_text_eq h h' heq

theorem mem_turn {α : Type} {turned : Bool} {a : α} {l : List α} : a ∈ turn turned l ↔ a ∈ l := by
  cases turned <;> simp [turn]

theorem petFile_printable (turned : Bool) : (petFile turned).Printable where
  name := (by decide : IsName "pets")
  options := by cases turned <;> decide
  children := by
    intro d hd
    rcases List.mem_cons.1 (mem_turn.1 hd) with rfl | hd
    · refine .message (by decide) (by decide) (fun f hf => ?_) nofun
      rcases List.mem_cons.1 (mem_turn.1 hf) with rfl | hf
      · exact ⟨.name (by decide), by decide, by decide⟩
      · obtain rfl := List.mem_singleton.1 hf
        exact ⟨.name (by decide), by decide, by decide⟩
    · obtain rfl := List.mem_singleton.1 hd
      refine .service (by decide) (by cases turned <;> simp [petRpcs, turn]) fun r hr => ?_
      rcases List.mem_cons.1 (mem_turn.1 hr) with rfl | hr
      · have hpet : IsTypeName "Pet" := .name (by decide)
        have hfind : IsName "Find" ∧ IsComment "Finds a pet." := by decide
        exact ⟨hfind.1, hpet, hpet, hfind.2, by cases turned <;> decide, by cases turned <;> decide⟩
      · obtain rfl := List.mem_singleton.1 hr
        exact ⟨by decide, .name (by decide), .name (by decide), by decide, nofun, nofun⟩

theorem petGraph_print_eq (indent : String) :
    (petGraph false).print indent 0 = (petGraph true).print indent 0 := by
  rw [Graph.print_of_written (f := petFile false) rfl, Graph.print_of_written (f := petFile true) rfl]
  exact File.print_eq indent petFile_keysDiffer petFile_reordered

theorem Graph.reordered_of_print_eq_pets :
    (petGraph false).written? 0 = some (petFile false) ∧
      (petGraph true).written? 0 = some (petFile true) ∧ (petFile false).Printable ∧
      (petFile true).Printable ∧ (petGraph false).print (String.ofList (List.replicate 2 ' ')) 0 =
        (petGraph true).print (String.ofList (List.replicate 2 ' ')) 0 ∧
      (petFile false).Reordered (petFile true) :=
  ⟨rfl, rfl, petFile_printable false, petFile_printable true, petGraph_print_eq _,
    Graph.reordered_of_print_eq rfl rfl (petFile_printable false) (petFile_printable true) 2
      (petGraph_print_eq _)⟩

end ApiProto.Proto
