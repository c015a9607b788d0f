import ApiProto.Proofs.Literals
import ApiProto.Proofs.ReorderedFiles
import ApiProto.Proofs.Rows

/-!
# The rows of a printed file

Which rows a file is printed to. Names have no blanks, no line ends and none of the marks that rows
are made of.

* `IsName`, `IsTypeName`, `File.Printable` — what a file may hold.
* `fieldRow`, `rpcRows`, `Declaration.rows`, `File.rows` — the rows of the parts of a file.
* `Declaration.Printable.shown`, `File.print_ok` — a file that is printable is printed to its rows,
  whatever the indentation.
-/

namespace ApiProto.Proto

open Text

/-! ## What can be printed -/

/-- The characters that rows are made of besides names: marks, blanks and line ends. -/
def isMark (c : Char) : Bool := " \n\"/():;,<=>\x7b\x7d".toList.contains c

/-- A name: a text without marks that is not empty, such as a dotted identifier. -/
def IsName (s : String) : Prop := s ≠ "" ∧ ∀ c ∈ s.toList, isMark c = false

instance (s : String) : Decidable (IsName s) :=
  decidable_of_iff (s ≠ "" ∧ s.toList.all (fun c => !isMark c) = true) (by simp [IsName])

/-- The name of a type that is no map, or a map between two of these. -/
inductive IsTypeName : String → Prop
  | name {s : String} : IsName s → IsTypeName s
  | map {key value : String} : IsName key → IsName value →
      IsTypeName ("map<" ++ key ++ ", " ++ value ++ ">")

/-- A comment that does not end with a line end. -/
def IsComment (s : String) : Prop := s.toList.getLast? ≠ some '\n'

instance (s : String) : Decidable (IsComment s) := inferInstanceAs (Decidable (_ ≠ _))

/-- A field that can be printed. -/
structure Field.Printable (f : NamedField String) : Prop where
  type : IsTypeName f.type
  name : IsName f.name
  comment : IsComment f.comment

/-- A procedure that can be printed. -/
structure Rpc.Printable (r : NamedRpc) : Prop where
  name : IsName r.name
  parameter : IsTypeName r.parameter
  response : IsTypeName r.response
  comment : IsComment r.comment
  http : ∀ option ∈ httpOptions r.options, IsName option.1
  custom : ∀ option ∈ customOptions r.options, IsName option.1

/-- A declaration that can be printed. -/
inductive Declaration.Printable : Declaration String → Prop
  | message {name comment : String} {fields : List (NamedField String)}
      {children : List (Declaration String)} : IsName name → IsComment comment →
      (∀ f ∈ fields, f.Printable) → (∀ d ∈ children, Declaration.Printable d) →
      Declaration.Printable (.message name comment fields children)
  | enumeration {e : Enumeration} : IsName e.name → IsComment e.comment →
      (∀ element ∈ e.elements, IsName element) → Declaration.Printable (.enumeration e)
  | extension {e : Extension} : IsName e.base →
      (∀ f ∈ e.fields, IsTypeName f.type ∧ IsName f.name) → Declaration.Printable (.extension e)
  | service {name : String} {rpcs : List NamedRpc} : IsName name → rpcs ≠ [] →
      (∀ r ∈ rpcs, r.Printable) → Declaration.Printable (.service name rpcs)

/-- A file that can be printed. Imports and the values of options may be any texts. -/
structure File.Printable (f : File String) : Prop where
  name : IsName f.name
  options : ∀ option ∈ f.options, IsName option.1
  children : ∀ d ∈ f.children, d.Printable

/-! ## Names -/

theorem IsName.not_newline {s : String} (h : IsName s) : '\n' ∉ s.toList := by
  intro hmem
  have hmark := h.2 _ hmem
  revert hmark
  decide

theorem IsName.exists_cons {s : String} (h : IsName s) :
    ∃ c rest, s.toList = c :: rest ∧ isMark c = false := by
  obtain ⟨c, rest, heq⟩ := List.exists_cons_of_ne_nil
    (show s.toList ≠ [] from fun hnil => h.1 (String.toList_eq_nil_iff.1 hnil))
  exact ⟨c, rest, heq, h.2 c (heq ▸ List.mem_cons_self ..)⟩

theorem IsName.isRow {s : String} (h : IsName s) : IsRow s.toList := by
  obtain ⟨c, rest, heq, hmark⟩ := h.exists_cons
  refine ⟨h.not_newline, c, rest, heq, ?_⟩
  rintro rfl
  exact absurd hmark (by decide)

theorem IsTypeName.isRow {s : String} (h : IsTypeName s) : IsRow s.toList := by
  cases h with
  | name h => exact h.isRow
  | map hkey hvalue =>
    have hmap : IsRow "map<".toList := ⟨by decide, _, _, rfl, by decide⟩
    simp only [String.toList_append]
    exact (((hmap.append hkey.not_newline).append (by decide)).append hvalue.not_newline).append
      (by decide)

/-! ## Fields -/

/-- A type, a name and a number. -/
def typedRow (type name : String) (number : Int) : List Char :=
  (type ++ " " ++ name ++ " = " ++ toString number ++ ";").toList

/-- A field without its comment. -/
def fieldRow (f : NamedField String) : List Char :=
  (if f.repeated then "repeated ".toList else []) ++ typedRow f.type f.name f.number

/-- The rows of a field. -/
def fieldRows (f : NamedField String) : List (List Char) := commentRows f.comment ++ [fieldRow f]

theorem isRow_typedRow {type name : String} (htype : IsTypeName type) (hname : IsName name)
    (number : Int) : IsRow (typedRow type name number) := by
  simp only [typedRow, String.toList_append]
  exact ((((htype.isRow.append (by decide)).append hname.not_newline).append (by decide)).append
    (not_newline_integer number)).append (by decide)

theorem Field.Printable.isRow {f : NamedField String} (h : f.Printable) : IsRow (fieldRow f) := by
  have htyped := isRow_typedRow h.type h.name f.number
  unfold fieldRow
  split
  · exact IsRow.append ⟨by decide, _, _, rfl, by decide⟩ htyped.1
  · exact htyped

theorem printField_shows {f : NamedField String} (h : f.Printable) :
    Shows (printField f) (fieldRows f) := by
  have hrow : Shows ('\n' :: fieldRow f) [fieldRow f] := .row h.isRow
  have hshows := (Shows.comment h.comment).append hrow
  rwa [fieldRow, ← List.cons_append, ← List.append_assoc] at hshows

theorem fieldRows_ne_nil (f : NamedField String) : fieldRows f ≠ [] := by
  simp [fieldRows]

/-- Fields after the declarations in a message. -/
theorem printFields_shows {body : List Char} {rows : List (List Char)} (h : Shows body rows)
    {fields : List (NamedField String)} (hfields : ∀ f ∈ fields, f.Printable) :
    Shows (printFields body fields) (rows ++ fields.flatMap fieldRows) := by
  have hspaced : ∀ (b : Bool) (f : NamedField String), f ∈ fields →
      Shows ((if b then [] else ['\n']) ++ printField f) (fieldRows f) := by
    intro b f hf
    cases b with
    | true => exact printField_shows (hfields f hf)
    | false => exact (printField_shows (hfields f hf)).newline (fieldRows_ne_nil f)
  cases fields with
  | nil => simpa [printFields] using h
  | cons first rest =>
    have hfirst := hspaced body.isEmpty first (List.mem_cons_self ..)
    have hrest : Shows (rest.flatMap fun f => (if f.comment.isEmpty then [] else ['\n']) ++
        printField f) (rest.flatMap fieldRows) :=
      .flatMap fun f hf => hspaced f.comment.isEmpty f (List.mem_cons_of_mem _ hf)
    have hshows := (h.append hfirst).append hrest
    rw [printFields, List.flatMap_cons]
    simpa only [List.append_assoc] using hshows

/-! ## Enums and extensions -/

/-- An element of an enum. -/
def elementRow (element : String) (i : Nat) : List Char :=
  (element ++ " = " ++ toString i ++ ";").toList

theorem elements_shows {elements : List String} (h : ∀ element ∈ elements, IsName element) :
    Shows (elements.zipIdx.flatMap fun (element, i) =>
        ("\n" ++ element ++ " = " ++ toString i ++ ";").toList)
      (elements.zipIdx.flatMap fun (element, i) => [elementRow element i]) := by
  refine .flatMap fun (element, i) hmem => ?_
  have hname := h element (List.fst_mem_of_mem_zipIdx hmem)
  have hrow : IsRow (elementRow element i) := by
    simp only [elementRow, String.toList_append]
    exact ((hname.isRow.append (by decide)).append (not_mem_natural (by decide) i)).append
      (by decide)
  exact .line (by simp only [String.append_assoc]) hrow

theorem extensionFields_shows {fields : List ExtensionField}
    (h : ∀ f ∈ fields, IsTypeName f.type ∧ IsName f.name) :
    Shows (fields.flatMap fun f =>
        ("\n" ++ f.type ++ " " ++ f.name ++ " = " ++ toString f.number ++ ";").toList)
      (fields.flatMap fun f => [typedRow f.type f.name f.number]) := by
  refine .flatMap fun f hf => ?_
  exact .line (by simp only [String.append_assoc])
    (isRow_typedRow (h f hf).1 (h f hf).2 f.number)

/-! ## Procedures -/

/-- The row of a custom option with its value as it is written. -/
def customRow (name literal : String) : List Char :=
  ("option (" ++ name ++ ") = " ++ literal ++ ";").toList

/-- What marks a procedure as deprecated. -/
def deprecatedRow : List Char := "option deprecated = true;".toList

/-- The rows of an HTTP option. -/
def httpRows (method path body : String) : List (List Char) :=
  blockRows "option (google.api.http) =".toList [';']
    ((method ++ ": " ++ quote path).toList ::
      if body.isEmpty then [] else [("body: " ++ quote body).toList])

/-- The rows inside a procedure. -/
def rpcBodyRows (r : NamedRpc) : List (List Char) :=
  ((httpOptions r.options).flatMap fun (method, path, body) => httpRows method path body) ++
    (if r.deprecated then [deprecatedRow] else []) ++
    (sortEntries (literalOptions r.options)).flatMap fun (name, literal) => [customRow name literal]

/-- The head of a procedure. -/
def rpcHead (r : NamedRpc) : List Char :=
  ("rpc " ++ r.name ++ "(" ++ r.parameter ++ ") returns (" ++ r.response ++ ")").toList

/-- The rows of a procedure. -/
def rpcRows (r : NamedRpc) : List (List Char) :=
  commentRows r.comment ++ blockRows (rpcHead r) [] (rpcBodyRows r)

theorem printHttp_shows {method : String} (hmethod : IsName method) (path body : String) (n : Nat) :
    Shows (printHttp (List.replicate n ' ') method path body) (httpRows method path body) := by
  have hhead : IsRow "option (google.api.http) =".toList := ⟨by decide, _, _, rfl, by decide⟩
  have hmethodRow : Shows ("\n" ++ method ++ ": " ++ quote path).toList
      [(method ++ ": " ++ quote path).toList] := by
    have hrow : IsRow (method ++ ": " ++ quote path).toList := by
      simp only [String.toList_append]
      exact (hmethod.isRow.append (by decide)).append (not_newline_quote path)
    exact .line (by simp only [String.append_assoc]) hrow
  have hbodyRow : Shows (if body.isEmpty then [] else ("\nbody: " ++ quote body).toList)
      (if body.isEmpty then [] else [("body: " ++ quote body).toList]) := by
    split
    · exact .nil
    · have hrow : IsRow ("body: " ++ quote body).toList := by
        rw [String.toList_append]
        exact IsRow.append ⟨by decide, _, _, rfl, by decide⟩ (not_newline_quote body)
      exact .line (by simp only [← String.append_assoc, String.reduceAppend]) hrow
  exact .block hhead (by decide) (hmethodRow.append hbodyRow) n

theorem rpcBody_shows {r : NamedRpc} (h : r.Printable) (n : Nat) :
    Shows (printHttpOptions (List.replicate n ' ') r.options ++
      (if r.deprecated then "\noption deprecated = true;".toList else []) ++
      printCustomOptions (customOptions r.options)) (rpcBodyRows r) := by
  rw [printHttpOptions_eq, printCustomOptions_eq]
  have hhttp : Shows ((httpOptions r.options).flatMap fun (method, path, body) =>
        printHttp (List.replicate n ' ') method path body)
      ((httpOptions r.options).flatMap fun (method, path, body) => httpRows method path body) :=
    .flatMap fun option hoption => printHttp_shows (h.http option hoption) _ _ n
  have hdeprecated : Shows (if r.deprecated then "\noption deprecated = true;".toList else [])
      (if r.deprecated then [deprecatedRow] else []) := by
    split
    · exact .row ⟨by decide, _, _, rfl, by decide⟩
    · exact .nil
  have hcustom : Shows ((sortEntries (literalOptions r.options)).flatMap fun (name, literal) =>
        ("\noption (" ++ name ++ ") = " ++ literal ++ ";").toList)
      ((sortEntries (literalOptions r.options)).flatMap fun (name, literal) =>
        [customRow name literal]) := by
    refine .flatMap fun (name, literal) hmem => ?_
    obtain ⟨⟨key, value⟩, hcustom, heq⟩ := List.mem_map.1 (mem_sortEntries.1 hmem)
    obtain ⟨rfl, rfl⟩ := Prod.mk.inj heq
    have hrow : IsRow (customRow key (optionLiteral value)) := by
      have hoption : IsRow "option (".toList := ⟨by decide, _, _, rfl, by decide⟩
      simp only [customRow, String.toList_append]
      exact (((hoption.append (h.custom _ hcustom).not_newline).append (by decide)).append
        (not_newline_literal value)).append (by decide)
    exact .line (by simp only [← String.append_assoc, String.reduceAppend]) hrow
  exact (hhttp.append hdeprecated).append hcustom

theorem isRow_rpcHead {r : NamedRpc} (h : r.Printable) : IsRow (rpcHead r) := by
  have hrpc : IsRow "rpc ".toList := ⟨by decide, _, _, rfl, by decide⟩
  simp only [rpcHead, String.toList_append]
  exact (((((hrpc.append h.name.not_newline).append (by decide)).append h.parameter.isRow.1).append
    (by decide)).append h.response.isRow.1).append (by decide)

theorem printRpc_shows {r : NamedRpc} (h : r.Printable) (n : Nat) :
    Shows (printRpc (List.replicate n ' ') r) (rpcRows r) := by
  have hblock := Shows.block (isRow_rpcHead h) (show '\n' ∉ [] by simp) (rpcBody_shows h n) n
  rw [List.append_nil] at hblock
  exact (Shows.comment h.comment).append hblock

/-! ## Declarations -/

/-- Steps that all succeed give the list of their results. -/
theorem mapM_eq_ok {α β : Type} {f : α → Except Error β} {g : α → β} {l : List α}
    (h : ∀ a ∈ l, f a = .ok (g a)) : l.mapM f = .ok (l.map g) := by
  induction l with
  | nil => rfl
  | cons a rest ih =>
    rw [List.mapM_cons, h a (List.mem_cons_self ..),
      ih fun b hb => h b (List.mem_cons_of_mem _ hb)]
    rfl

namespace Declaration

/-- The comment of a declaration; extensions and services have none. -/
def comment : Declaration String → String
  | .message _ comment .. => comment
  | .enumeration e => e.comment
  | _ => ""

/-- What stands before the name of a declaration. -/
def keyword : Declaration String → String
  | .message .. => "message "
  | .enumeration _ => "enum "
  | .extension _ => "extend "
  | .service .. => "service "
  | .other .. => ""

/-- The head of a declaration. -/
def head (d : Declaration String) : List Char := (d.keyword ++ d.name).toList

/-- Declarations in the order in which they are printed. -/
def inOrder (ds : List (Declaration String)) : List (Declaration String) :=
  sortBy (fun a b => a.key.before b.key) ds

/-- The text of a declaration, printed with an indentation of `n` blanks. -/
def text (n : Nat) (d : Declaration String) : List Char :=
  (d.print (List.replicate n ' ')).toOption.getD []

/-- The rows of a declaration. -/
def rows (n : Nat) (d : Declaration String) : List (List Char) := rowsOf (d.text n)

/-- The rows inside a declaration. -/
def bodyRows (n : Nat) : Declaration String → List (List Char)
  | .message _ _ fields children =>
    (inOrder children).flatMap (rows n) ++
      (sortBy (fun a b => a.number ≤ b.number) fields).flatMap fieldRows
  | .enumeration e => e.elements.zipIdx.flatMap fun (element, i) => [elementRow element i]
  | .extension e => e.fields.flatMap fun f => [typedRow f.type f.name f.number]
  | .service _ rpcs => (sortBy (fun a b => a.name ≤ b.name) rpcs).flatMap rpcRows
  | .other .. => []

/-- A declaration that is printed to a text with its rows: a comment, and a block. -/
structure Shown (n : Nat) (d : Declaration String) : Prop where
  print_ok : d.print (List.replicate n ' ') = .ok (d.text n)
  shows : Shows (d.text n) (commentRows d.comment ++ blockRows d.head [] (d.bodyRows n))

variable {n : Nat} {d : Declaration String} {ds : List (Declaration String)}

theorem Shown.of_print {text : List Char} (hprint : d.print (List.replicate n ' ') = .ok text)
    (h : Shows text (commentRows d.comment ++ blockRows d.head [] (d.bodyRows n))) : d.Shown n := by
  have htext : d.text n = text := by
    rw [Declaration.text, hprint]
    rfl
  exact ⟨htext ▸ hprint, htext ▸ h⟩

theorem Shown.rows_eq (h : d.Shown n) :
    d.rows n = commentRows d.comment ++ blockRows d.head [] (d.bodyRows n) :=
  h.shows.rowsOf_eq

theorem Shown.rows_ne_nil (h : d.Shown n) : d.rows n ≠ [] := by
  rw [h.rows_eq]
  intro hnil
  exact blockRows_ne_nil _ _ _ (List.append_eq_nil_iff.1 hnil).2

theorem Shown.text_ne_nil (h : d.Shown n) : d.text n ≠ [] := by
  intro hnil
  apply h.rows_ne_nil
  rw [rows, hnil, rowsOf_nil]

/-- Declarations are joined to a text that shows the rows of all. -/
theorem joinDeclarations_shows (h : ∀ d ∈ ds, d.Shown n) :
    ∃ text, joinDeclarations (printAll (List.replicate n ' ') ds) = .ok text ∧
      Shows text ((inOrder ds).flatMap (rows n)) := by
  have hmem : ∀ d ∈ inOrder ds, d.Shown n := fun d hd => h d (mem_sortBy.1 hd)
  have hsorted : sortBy (fun a b => a.1.before b.1) (printAll (List.replicate n ' ') ds) =
      (inOrder ds).map fun d => (d.key, d.print (List.replicate n ' ')) := by
    rw [printAll_eq_map]
    exact sortBy_map (fun _ _ => rfl) ds
  have hkept : ((inOrder ds).map (text n)).filter (fun text => !text.isEmpty) =
      (inOrder ds).map (text n) := by
    refine List.filter_eq_self.2 fun t ht => ?_
    obtain ⟨d, hd, rfl⟩ := List.mem_map.1 ht
    simpa using (hmem d hd).text_ne_nil
  refine ⟨joinLines ((inOrder ds).map (text n)), ?_, ?_⟩
  · have htexts : ((inOrder ds).map fun d => (d.key, d.print (List.replicate n ' '))).mapM (·.2) =
        Except.ok ((inOrder ds).map (text n)) := by
      rw [List.mapM_map]
      exact mapM_eq_ok fun d hd => (hmem d hd).print_ok
    rw [joinDeclarations, hsorted, htexts]
    exact congrArg (fun texts => Except.ok (joinLines texts)) hkept
  · exact .joinLines (fun d hd => (hmem d hd).rows_eq ▸ (hmem d hd).shows)
      fun d hd => (hmem d hd).rows_ne_nil

theorem isRow_head (hkeyword : IsRow d.keyword.toList) (hname : IsName d.name) : IsRow d.head := by
  rw [head, String.toList_append]
  exact hkeyword.append hname.not_newline

/-- A block with the head of a declaration. -/
theorem block_shows (hkeyword : IsRow d.keyword.toList) (hname : IsName d.name) {body : List Char}
    (h : Shows body (d.bodyRows n)) :
    Shows (block (List.replicate n ' ') d.head body) (blockRows d.head [] (d.bodyRows n)) := by
  have hblock := Shows.block (isRow_head hkeyword hname) (show '\n' ∉ [] by simp) h n
  rwa [List.append_nil] at hblock

/-- A declaration that is printable is printed to its rows. -/
theorem Printable.shown (n : Nat) : ∀ {d : Declaration String}, d.Printable → d.Shown n := by
  intro d
  induction d using Declaration.induct with
  | message name comment fields children ih =>
    rintro ⟨hname, hcomment, hfields, hchildren⟩
    obtain ⟨body, hbody, hshows⟩ := joinDeclarations_shows fun d hd => ih d hd (hchildren d hd)
    have hkeyword : IsRow "message ".toList := ⟨by decide, _, _, rfl, by decide⟩
    have hprinted : Shows (printFields body (sortBy (fun a b => a.number ≤ b.number) fields))
        ((Declaration.message name comment fields children).bodyRows n) :=
      printFields_shows hshows fun f hf => hfields f (mem_sortBy.1 hf)
    have hblock := block_shows (d := .message name comment fields children) hkeyword hname hprinted
    refine .of_print ?_ ((Shows.comment hcomment).append hblock)
    rw [print, hbody]
    rfl
  | enumeration e =>
    rintro (_ | ⟨hname, hcomment, helements⟩)
    have hkeyword : IsRow "enum ".toList := ⟨by decide, _, _, rfl, by decide⟩
    have hblock := block_shows (d := .enumeration e) (n := n) hkeyword hname
      (elements_shows helements)
    refine .of_print ?_ ((Shows.comment hcomment).append hblock)
    rfl
  | extension e =>
    rintro (_ | _ | ⟨hname, hfields⟩)
    have hkeyword : IsRow "extend ".toList := ⟨by decide, _, _, rfl, by decide⟩
    have hblock := block_shows (d := .extension e) (n := n) hkeyword hname
      (extensionFields_shows hfields)
    refine .of_print ?_ hblock
    rfl
  | service name rpcs =>
    rintro (_ | _ | _ | ⟨hname, hne, hrpcs⟩)
    have hkeyword : IsRow "service ".toList := ⟨by decide, _, _, rfl, by decide⟩
    have hbody : Shows (joinLines ((sortBy (fun a b => decide (a.name ≤ b.name)) rpcs).map
        (printRpc (List.replicate n ' ')))) ((Declaration.service name rpcs).bodyRows n) :=
      .joinLines (fun r hr => printRpc_shows (hrpcs r (mem_sortBy.1 hr)) n) fun r _ hnil =>
        blockRows_ne_nil _ _ _ (List.append_eq_nil_iff.1 hnil).2
    have hblock := block_shows (d := .service name rpcs) hkeyword hname hbody
    refine .of_print ?_ hblock
    rw [print, printService, if_neg (by simpa using hne)]
    rfl
  | other kind name =>
    intro h
    cases h

end Declaration

/-! ## Files -/

/-- An import. -/
def importRow (file : String) : List Char := ("import " ++ quote file ++ ";").toList

/-- An option of a file. -/
def optionRow (name value : String) : List Char :=
  ("option " ++ name ++ " = " ++ quote value ++ ";").toList

/-- The rows of a file before its declarations. -/
def File.headRows (f : File String) : List (List Char) :=
  "syntax = \"proto3\";".toList :: ("package " ++ f.name ++ ";").toList ::
    ((sortBy (fun a b => a ≤ b) f.imports).flatMap (fun file => [importRow file]) ++
      (sortEntries f.options).flatMap fun (name, value) => [optionRow name value])

/-- The rows of a file, printed with an indentation of `n` blanks. -/
def File.rows (n : Nat) (f : File String) : List (List Char) :=
  f.headRows ++ (Declaration.inOrder f.children).flatMap (Declaration.rows n)

theorem imports_shows (files : List String) :
    Shows (files.flatMap fun file => ("\nimport " ++ quote file ++ ";").toList)
      (files.flatMap fun file => [importRow file]) := by
  refine .flatMap fun file _ => ?_
  have hrow : IsRow (importRow file) := by
    have hstart : IsRow "import ".toList := ⟨by decide, _, _, rfl, by decide⟩
    simp only [importRow, String.toList_append]
    exact (hstart.append (not_newline_quote file)).append (by decide)
  exact .line (by simp only [← String.append_assoc, String.reduceAppend]) hrow

theorem options_shows {options : List (String × String)} (h : ∀ option ∈ options, IsName option.1) :
    Shows (options.flatMap fun (name, value) =>
        ("\noption " ++ name ++ " = " ++ quote value ++ ";").toList)
      (options.flatMap fun (name, value) => [optionRow name value]) := by
  refine .flatMap fun (name, value) hmem => ?_
  have hname : IsName name := h _ hmem
  have hrow : IsRow (optionRow name value) := by
    have hstart : IsRow "option ".toList := ⟨by decide, _, _, rfl, by decide⟩
    simp only [optionRow, String.toList_append]
    exact (((hstart.append hname.not_newline).append (by decide)).append
      (not_newline_quote value)).append (by decide)
  exact .line (by simp only [← String.append_assoc, String.reduceAppend]) hrow

theorem printHead_shows {f : File String} (h : f.Printable) :
    Shows ('\n' :: f.printHead) f.headRows := by
  have hedition : Shows "\nsyntax = \"proto3\";\n".toList ["syntax = \"proto3\";".toList] :=
    ⟨.inr ⟨_, rfl⟩, rfl, by simp⟩
  have hpackage : Shows ("\npackage " ++ f.name ++ ";").toList
      [("package " ++ f.name ++ ";").toList] := by
    have hrow : IsRow ("package " ++ f.name ++ ";").toList := by
      have hstart : IsRow "package ".toList := ⟨by decide, _, _, rfl, by decide⟩
      simp only [String.toList_append]
      exact (hstart.append h.name.not_newline).append (by decide)
    exact .line (by simp only [← String.append_assoc, String.reduceAppend]) hrow
  have himports := Shows.part (sortBy_perm _ f.imports).symm.isEmpty_eq
    (fun file => List.cons_ne_nil _ _) (imports_shows (sortBy (fun a b => decide (a ≤ b)) f.imports))
  have hoptions := Shows.part (sortBy_perm _ f.options).symm.isEmpty_eq
    (fun option => List.cons_ne_nil _ _) (options_shows
      fun (option : String × String) (hoption : option ∈ sortEntries f.options) =>
        h.options option (mem_sortEntries.1 hoption))
  have hshows := ((hedition.append hpackage).append himports).append hoptions
  have hstart : '\n' :: ("syntax = \"proto3\";\n\npackage " ++ f.name ++ ";").toList =
      "\nsyntax = \"proto3\";\n".toList ++ ("\npackage " ++ f.name ++ ";").toList := by
    simp only [String.toList_append, ← List.append_assoc]
    rfl
  rw [File.printHead, ← List.cons_append, ← List.cons_append, hstart]
  rw [List.append_assoc ([_] ++ [_])] at hshows
  exact hshows

/-- A file that is printable is printed to its rows. -/
theorem File.print_ok {f : File String} (h : f.Printable) (n : Nat) :
    ∃ text, f.print (String.ofList (List.replicate n ' ')) = .ok text ∧
      rowsOf text.toList = f.rows n := by
  obtain ⟨body, hbody, hshows⟩ := Declaration.joinDeclarations_shows fun d hd =>
    (h.children d hd).shown n
  refine ⟨String.ofList (f.printHead ++ '\n' :: body ++ ['\n']), ?_, ?_⟩
  · rw [print, String.toList_ofList, hbody]
    rfl
  · have hhead := (printHead_shows h).rowsOf_eq
    rw [rowsOf_newline] at hhead
    rw [String.toList_ofList, List.append_assoc, List.cons_append, rowsOf_append, hhead,
      rowsOf_append, hshows.rowsOf_eq]
    simp [File.rows]

end ApiProto.Proto
