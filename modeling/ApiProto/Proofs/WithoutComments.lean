import ApiProto.Proofs.CodeLines
import ApiProto.Proofs.PrintedOptions
import ApiProto.Proofs.PrintedRows
import ApiProto.Proofs.SpecReading

/-!
# Files without their comments

Comments come from descriptions, which may be any texts. They are printed as lines of their own that
start with the comment mark, so nothing that is written in them becomes code: without these lines
and without blank lines a file is what it is when all comments are empty.

* `Graph.withoutComments`, `Declaration.withoutComments` — everything with empty comments.
* `Graph.written?_withoutComments` — the tree of a package without comments.
* `Declaration.Named`, `File.Named` — names that can stand at the start of a line.
* `Declaration.Named.sameCode` — comments do not change the code of a declaration.
* `Graph.codeLines_print` — comments do not change the code of a package.
-/

namespace ApiProto.Proto

open Text

/-! ## Empty comments -/

section

variable {τ κ : Type}

/-- The field with `empty` for its comment. -/
def Field.withComment (empty : κ) (f : Field τ κ) : Field τ κ := { f with comment := empty }

/-- The procedure without its comment. -/
def Rpc.withoutComment (r : Rpc τ) : Rpc τ := { r with comment := "" }

/-- The enum without its comment. -/
def Enumeration.withoutComment (e : Enumeration) : Enumeration := { e with comment := "" }

namespace Declaration

mutual

/-- The declaration with `empty` for all comments that have the form `κ`, and without the others. -/
def withoutComments (empty : κ) : Declaration κ → Declaration κ
  | .message name _ fields children =>
    .message name empty (fields.map (·.withComment empty)) (allWithoutComments empty children)
  | .enumeration e => .enumeration e.withoutComment
  | .extension e => .extension e
  | .service name rpcs => .service name (rpcs.map (·.withoutComment))
  | .other kind name => .other kind name

/-- The declarations with `empty` for all comments. -/
def allWithoutComments (empty : κ) : List (Declaration κ) → List (Declaration κ)
  | [] => []
  | d :: rest => d.withoutComments empty :: allWithoutComments empty rest

end

theorem allWithoutComments_eq (empty : κ) (ds : List (Declaration κ)) :
    allWithoutComments empty ds = ds.map (withoutComments empty) := by
  induction ds with
  | nil => rfl
  | cons d rest ih => rw [allWithoutComments, ih, List.map_cons]

@[simp] theorem key_withoutComments (empty : κ) (d : Declaration κ) :
    (d.withoutComments empty).key = d.key := by
  cases d <;> rfl

end Declaration

/-- The file with `empty` for all comments. -/
def File.withoutComments (empty : κ) (f : File κ) : File κ :=
  { f with children := f.children.map (·.withoutComments empty) }

end

/-- The node without comments. -/
def Node.withoutComments : Node → Node
  | .message m => .message
      { m with comment := .text "", fields := m.fields.map (·.withComment (.text "")) }
  | .enumeration e => .enumeration e.withoutComment
  | .service s => .service { s with rpcs := s.rpcs.map (·.withoutComment) }
  | n => n

namespace Graph

/-- The graph with every comment emptied. -/
def withoutComments (g : Graph) : Graph := ⟨g.nodes.map Node.withoutComments⟩

variable {g : Graph}

theorem node?_withoutComments (g : Graph) (id : Nat) :
    g.withoutComments.node? id = (g.node? id).map Node.withoutComments := by
  simp [withoutComments, node?]

theorem nameWithin_withoutComments (depth : Nat) (t : TypeRef) :
    g.withoutComments.nameWithin depth t = g.nameWithin depth t := by
  induction depth generalizing t with
  | zero =>
    cases t with
    | builtin b => rfl
    | node id =>
      rw [nameWithin, nameWithin, node?_withoutComments]
      rcases g.node? id with _ | node
      · rfl
      · cases node <;> rfl
  | succ depth ih =>
    cases t with
    | builtin b => rfl
    | node id =>
      rw [nameWithin, nameWithin, node?_withoutComments]
      rcases g.node? id with _ | node
      · rfl
      · cases node with
        | map key value => simp only [Option.map_some, Node.withoutComments, ih]
        | _ => rfl

theorem typeName_withoutComments (t : TypeRef) :
    g.withoutComments.typeName t = g.typeName t := by
  have hsize : g.withoutComments.size = g.size := by simp [withoutComments, size]
  rw [typeName, typeName, hsize, nameWithin_withoutComments]

theorem kindName_withoutComments (t : TypeRef) :
    g.withoutComments.kindName t = g.kindName t := by
  cases t with
  | builtin b => rfl
  | node id =>
    rw [kindName, kindName, node?_withoutComments]
    rcases g.node? id with _ | node
    · rfl
    · cases node <;> rfl

theorem declarationWithin?_withoutComments (depth : Nat) (t : TypeRef) :
    g.withoutComments.declarationWithin? depth t =
      (g.declarationWithin? depth t).map (·.withoutComments (.text "")) := by
  induction depth generalizing t with
  | zero => rfl
  | succ depth ih =>
    have hother : (Declaration.other (g.withoutComments.kindName t) (g.withoutComments.typeName t) :
        Declaration Value) = .other (g.kindName t) (g.typeName t) := by
      rw [kindName_withoutComments, typeName_withoutComments]
    cases t with
    | builtin b => exact congrArg some hother
    | node id =>
      simp only [declarationWithin?, node?_withoutComments, hother]
      rcases g.node? id with _ | node
      · rfl
      · cases node with
        | message m =>
          have hfields : (m.fields.map (·.withComment (.text ""))).map
              g.withoutComments.namedField =
              (m.fields.map g.namedField).map (·.withComment (.text "")) := by
            simp [namedField, Field.withComment, typeName_withoutComments]
          simp only [Option.map_some, Node.withoutComments, ih, mapM_option_map, hfields]
          rcases m.children.mapM fun c => g.declarationWithin? depth c with _ | ds
          · rfl
          · simp [Declaration.withoutComments, Declaration.allWithoutComments_eq]
        | service s =>
          simp [Node.withoutComments, namedRpc, Rpc.withoutComment, typeName_withoutComments,
            Declaration.withoutComments]
        | _ => rfl

theorem file?_withoutComments (g : Graph) (package : Nat) :
    g.withoutComments.file? package = (g.file? package).map (·.withoutComments (.text "")) := by
  have hpackage : g.withoutComments.package? package = g.package? package := by
    rw [package?, package?, node?_withoutComments]
    rcases g.node? package with _ | node
    · rfl
    · cases node <;> rfl
  have hsize : g.withoutComments.size = g.size := by simp [withoutComments, size]
  have htree : g.withoutComments.declaration? =
      fun t => (g.declaration? t).map (·.withoutComments (.text "")) := by
    funext t
    rw [declaration?, declaration?, hsize, declarationWithin?_withoutComments]
  rw [file?, file?, hpackage, htree]
  rcases g.package? package with _ | p
  · rfl
  · simp only [Option.bind_eq_bind, Option.bind_some, mapM_option_map]
    rcases p.children.mapM g.declaration? with _ | ds <;> rfl

end Graph

/-! ## Texts of comments -/

/-- Steps that succeed on the items of a list succeed on their images as well. -/
theorem mapM_map_ok {α α' β β' : Type} {f : α → Except Error β} {f' : α' → Except Error β'}
    {h : α → α'} {k : β → β'} {l : List α} {l' : List β} (hok : l.mapM f = .ok l')
    (hf : ∀ a ∈ l, ∀ b, f a = .ok b → f' (h a) = .ok (k b)) :
    (l.map h).mapM f' = .ok (l'.map k) := by
  induction l generalizing l' with
  | nil =>
    rw [List.mapM_nil] at hok
    obtain rfl := Except.ok.inj hok
    rfl
  | cons a rest ih =>
    rw [List.mapM_cons] at hok
    obtain ⟨b, hb, hok⟩ := Document.bind_eq_ok_iff.1 hok
    obtain ⟨bs, hbs, hok⟩ := Document.bind_eq_ok_iff.1 hok
    obtain rfl := Except.ok.inj hok
    rw [List.map_cons, List.mapM_cons, hf a (List.mem_cons_self ..) b hb,
      ih hbs fun a ha => hf a (List.mem_cons_of_mem _ ha)]
    rfl

namespace Declaration

theorem allWithTexts_eq (ds : List (Declaration Value)) : allWithTexts ds = ds.mapM withTexts := by
  induction ds with
  | nil => rfl
  | cons d rest ih => rw [allWithTexts, ih, List.mapM_cons]

/-- Empty comments have empty texts. -/
theorem withTexts_withoutComments (d : Declaration Value) : ∀ d', d.withTexts = .ok d' →
    (d.withoutComments (.text "")).withTexts = .ok (d'.withoutComments "") := by
  induction d using Declaration.induct with
  | message name comment fields children ih =>
    intro d' h
    rw [withTexts, allWithTexts_eq] at h
    obtain ⟨children', hchildren, h⟩ := Document.bind_eq_ok_iff.1 h
    obtain ⟨fields', hfields, h⟩ := Document.bind_eq_ok_iff.1 h
    obtain ⟨comment', -, h⟩ := Document.bind_eq_ok_iff.1 h
    obtain rfl := Except.ok.inj h
    have hemptied : (fields.map (·.withComment (.text ""))).mapM (fun f : NamedField Value =>
        (commentText f.comment).map fun c => { f with comment := c }) =
          .ok (fields'.map (·.withComment "")) := by
      refine mapM_map_ok hfields fun f _ f' hf => ?_
      obtain ⟨text, -, rfl⟩ := Document.map_eq_ok_iff.1 hf
      rfl
    rw [withoutComments, withTexts, allWithoutComments_eq, allWithTexts_eq,
      mapM_map_ok hchildren ih, hemptied, withoutComments, allWithoutComments_eq]
    rfl
  | enumeration | extension | service | other =>
    intro d' h
    obtain rfl := Except.ok.inj h
    rfl

end Declaration

theorem File.withTexts_withoutComments {f : File Value} {texts : File String}
    (h : f.withTexts = .ok texts) :
    (f.withoutComments (.text "")).withTexts = .ok (texts.withoutComments "") := by
  obtain ⟨children, hchildren, rfl⟩ := Document.map_eq_ok_iff.1 h
  rw [Declaration.allWithTexts_eq] at hchildren
  rw [withTexts, withoutComments, Declaration.allWithTexts_eq,
    mapM_map_ok hchildren fun d _ => d.withTexts_withoutComments]
  rfl

/-- The tree of a package of which all comments are emptied. -/
theorem Graph.written?_withoutComments {g : Graph} {package : Nat} {f : File String}
    (h : g.written? package = some f) :
    g.withoutComments.written? package = some (f.withoutComments "") := by
  obtain ⟨tree, htree, htexts⟩ := Option.bind_eq_some_iff.1 h
  have hok : tree.withTexts = .ok f := by
    rcases hresult : tree.withTexts with e | texts <;> rw [hresult] at htexts
    · cases htexts
    · rw [Option.some.inj htexts]
  rw [written?, file?_withoutComments, htree, Option.map_some, Option.bind_some,
    File.withTexts_withoutComments hok]
  rfl

/-! ## Names at the start of a line -/

/-- A name that can stand at the start of a line: it has no line ends, and starts with something
else than a blank or a slash, as identifiers do. -/
def IsWord (s : String) : Prop := IsCodeRow s.toList

instance (s : String) : Decidable (IsWord s) := inferInstanceAs (Decidable (IsCodeRow _))

/-- A procedure of which all names are words. -/
structure Rpc.Named (r : NamedRpc) : Prop where
  name : IsWord r.name
  parameter : IsWord r.parameter
  response : IsWord r.response
  http : ∀ option ∈ httpOptions r.options, IsWord option.1
  custom : ∀ option ∈ customOptions r.options, IsWord option.1

/-- A declaration of which all names are words. Comments may be any texts. -/
inductive Declaration.Named : Declaration String → Prop
  | message {name comment : String} {fields : List (NamedField String)}
      {children : List (Declaration String)} : IsWord name →
      (∀ f ∈ fields, IsWord f.type ∧ IsWord f.name) → (∀ d ∈ children, Declaration.Named d) →
      Declaration.Named (.message name comment fields children)
  | enumeration {e : Enumeration} : IsWord e.name → (∀ element ∈ e.elements, IsWord element) →
      Declaration.Named (.enumeration e)
  | extension {e : Extension} : IsWord e.base →
      (∀ f ∈ e.fields, IsWord f.type ∧ IsWord f.name) → Declaration.Named (.extension e)
  | service {name : String} {rpcs : List NamedRpc} : IsWord name → (∀ r ∈ rpcs, r.Named) →
      Declaration.Named (.service name rpcs)

/-- A file of which all names are words. Imports and the values of options may be any texts. -/
structure File.Named (f : File String) : Prop where
  name : IsWord f.name
  options : ∀ option ∈ f.options, IsWord option.1
  children : ∀ d ∈ f.children, d.Named

theorem IsWord.not_newline {s : String} (h : IsWord s) : '\n' ∉ s.toList := h.1

/-! ## Fields and elements -/

theorem isCodeRow_typedRow {type name : String} (htype : IsWord type) (hname : IsWord name)
    (number : Int) : IsCodeRow (typedRow type name number) := by
  simp only [typedRow, String.toList_append]
  exact ((((htype.append (by decide)).append hname.not_newline).append (by decide)).append
    (not_newline_integer number)).append (by decide)

theorem isCodeRow_fieldRow {f : NamedField String} (htype : IsWord f.type) (hname : IsWord f.name) :
    IsCodeRow (fieldRow f) := by
  have htyped := isCodeRow_typedRow htype hname f.number
  unfold fieldRow
  split
  · exact IsCodeRow.append (by decide) htyped.1
  · exact htyped

theorem printField_eq (f : NamedField String) :
    printField f = printComment f.comment ++ '\n' :: fieldRow f := by
  rw [printField, fieldRow, List.append_assoc, List.cons_append, typedRow]

theorem printField_sameCode {f : NamedField String} (htype : IsWord f.type)
    (hname : IsWord f.name) : SameCode (printField f) (printField (f.withComment "")) := by
  rw [printField_eq, printField_eq]
  exact (SameCode.row (isCodeRow_fieldRow htype hname)).commented (List.cons_ne_nil _ _) f.comment

/-- Fields after the declarations in a message. -/
theorem printFields_sameCode {body body' : List Char} (h : SameCode body body')
    {fields : List (NamedField String)} (hfields : ∀ f ∈ fields, IsWord f.type ∧ IsWord f.name) :
    SameCode (printFields body fields)
      (printFields body' (fields.map (·.withComment ""))) := by
  have hspaced : ∀ (b b' : Bool) (f : NamedField String), f ∈ fields →
      SameCode ((if b then [] else ['\n']) ++ printField f)
        ((if b' then [] else ['\n']) ++ printField (f.withComment "")) := by
    intro b b' f hf
    refine (printField_sameCode (hfields f hf).1 (hfields f hf).2).spaced ?_ b b'
    simp [printField_eq]
  cases fields with
  | nil => exact h
  | cons first rest =>
    have hfirst := hspaced body.isEmpty body'.isEmpty first (List.mem_cons_self ..)
    have hrest : SameCode
        (rest.flatMap fun f => (if f.comment.isEmpty then [] else ['\n']) ++ printField f)
        ((rest.map (·.withComment "")).flatMap fun f =>
          (if f.comment.isEmpty then [] else ['\n']) ++ printField f) :=
      .flatMap fun f hf => hspaced _ _ f (List.mem_cons_of_mem _ hf)
    have hsame := (h.append hfirst).append hrest
    rw [printFields, List.map_cons, printFields]
    simpa only [List.append_assoc] using hsame

/-- A text of code only, which is the same with and without comments. -/
abbrev AllCode (cs : List Char) : Prop := SameCode cs cs

theorem AllCode.flatMap {α : Type} {f : α → List Char} {l : List α} (h : ∀ a ∈ l, AllCode (f a)) :
    AllCode (l.flatMap f) := by
  have hsame := SameCode.flatMap (g := id) h
  rwa [List.map_id] at hsame

theorem elements_allCode {elements : List String} (h : ∀ element ∈ elements, IsWord element) :
    AllCode (elements.zipIdx.flatMap fun (element, i) =>
      ("\n" ++ element ++ " = " ++ toString i ++ ";").toList) := by
  refine .flatMap fun (element, i) hmem => ?_
  have hword := h element (List.fst_mem_of_mem_zipIdx hmem)
  have hrow : IsCodeRow (elementRow element i) := by
    simp only [elementRow, String.toList_append]
    exact ((hword.append (by decide)).append (not_mem_natural (by decide) i)).append (by decide)
  exact .line (by simp only [String.append_assoc]) hrow

theorem extensionFields_allCode {fields : List ExtensionField}
    (h : ∀ f ∈ fields, IsWord f.type ∧ IsWord f.name) :
    AllCode (fields.flatMap fun f =>
      ("\n" ++ f.type ++ " " ++ f.name ++ " = " ++ toString f.number ++ ";").toList) := by
  refine .flatMap fun f hf => ?_
  exact .line (by simp only [String.append_assoc])
    (isCodeRow_typedRow (h f hf).1 (h f hf).2 f.number)

/-! ## Procedures -/

theorem printHttp_allCode {method : String} (hmethod : IsWord method) (path body : String)
    (n : Nat) : AllCode (printHttp (List.replicate n ' ') method path body) := by
  have hmethodRow : AllCode ("\n" ++ method ++ ": " ++ quote path).toList := by
    have hrow : IsCodeRow (method ++ ": " ++ quote path).toList := by
      simp only [String.toList_append]
      exact (hmethod.append (by decide)).append (not_newline_quote path)
    exact .line (by simp only [String.append_assoc]) hrow
  have hbodyRow : AllCode (if body.isEmpty then [] else ("\nbody: " ++ quote body).toList) := by
    split
    · exact .nil
    · have hrow : IsCodeRow ("body: " ++ quote body).toList := by
        rw [String.toList_append]
        exact IsCodeRow.append (by decide) (not_newline_quote body)
      exact .line (by simp only [← String.append_assoc, String.reduceAppend]) hrow
  have hhead : IsCodeRow "option (google.api.http) =".toList := by decide
  exact .endedBlock hhead (by decide) (hmethodRow.append hbodyRow) n

theorem rpcBody_allCode {r : NamedRpc} (h : r.Named) (n : Nat) :
    AllCode (printHttpOptions (List.replicate n ' ') r.options ++
      (if r.deprecated then "\noption deprecated = true;".toList else []) ++
      printCustomOptions (customOptions r.options)) := by
  rw [printHttpOptions_eq, printCustomOptions]
  have hhttp : AllCode ((httpOptions r.options).flatMap fun option =>
      printHttp (List.replicate n ' ') option.1 option.2.1 option.2.2) :=
    .flatMap fun option hoption => printHttp_allCode (h.http option hoption) _ _ n
  have hdeprecated :
      AllCode (if r.deprecated then "\noption deprecated = true;".toList else []) := by
    split
    · exact SameCode.row (show IsCodeRow deprecatedRow by decide)
    · exact .nil
  have hcustom : AllCode ((sortEntries (customOptions r.options)).flatMap fun option =>
      ("\noption (" ++ option.1 ++ ") = " ++ optionLiteral option.2 ++ ";").toList) := by
    refine .flatMap fun option hmem => ?_
    have hword := h.custom _ (mem_sortEntries.1 hmem)
    have hrow : IsCodeRow (customRow option.1 (optionLiteral option.2)) := by
      have hoption : IsCodeRow "option (".toList := by decide
      simp only [customRow, String.toList_append]
      exact (((hoption.append hword.not_newline).append (by decide)).append
        (not_newline_literal option.2)).append (by decide)
    exact .line (by simp only [← String.append_assoc, String.reduceAppend]) hrow
  exact (hhttp.append hdeprecated).append hcustom

theorem isCodeRow_rpcHead {r : NamedRpc} (h : r.Named) : IsCodeRow (rpcHead r) := by
  have hrpc : IsCodeRow "rpc ".toList := by decide
  simp only [rpcHead, String.toList_append]
  exact (((((hrpc.append h.name.not_newline).append (by decide)).append
    h.parameter.not_newline).append (by decide)).append h.response.not_newline).append (by decide)

theorem printRpc_ne_nil (indent : List Char) (r : NamedRpc) : printRpc indent r ≠ [] := fun hnil =>
  SameCode.block_ne_nil _ _ _ (List.append_eq_nil_iff.1 hnil).2

theorem printRpc_sameCode {r : NamedRpc} (h : r.Named) (n : Nat) :
    SameCode (printRpc (List.replicate n ' ') r)
      (printRpc (List.replicate n ' ') r.withoutComment) :=
  (SameCode.block (isCodeRow_rpcHead h) (rpcBody_allCode h n) n).commented
    (SameCode.block_ne_nil _ _ _) r.comment

theorem printService_sameCode {name : String} {rpcs : List NamedRpc} (hname : IsWord name)
    (hrpcs : ∀ r ∈ rpcs, r.Named) (n : Nat) :
    SameCode (printService (List.replicate n ' ') name rpcs)
      (printService (List.replicate n ' ') name (rpcs.map (·.withoutComment))) := by
  have hsorted : sortBy (fun a b => decide (a.name ≤ b.name)) (rpcs.map (·.withoutComment)) =
      (sortBy (fun a b => decide (a.name ≤ b.name)) rpcs).map (·.withoutComment) :=
    sortBy_map (fun _ _ => rfl) rpcs
  unfold printService
  rw [List.isEmpty_map, hsorted]
  split
  · exact .nil
  · have hhead : IsCodeRow ("service " ++ name).toList := by
      rw [String.toList_append]
      exact IsCodeRow.append (by decide) hname.not_newline
    refine .block hhead (.joinLines (fun r hr => ?_) fun r _ => printRpc_ne_nil _ r) n
    exact printRpc_sameCode (hrpcs r (mem_sortBy.1 hr)) n

/-! ## Declarations -/

namespace Declaration

/-- A declaration that is printed with and without comments, to the same code. -/
structure Silenced (n : Nat) (d : Declaration String) : Prop where
  print_ok : d.print (List.replicate n ' ') = .ok (d.text n)
  print_ok' : (d.withoutComments "").print (List.replicate n ' ') =
    .ok ((d.withoutComments "").text n)
  sameCode : SameCode (d.text n) ((d.withoutComments "").text n)

variable {n : Nat} {d : Declaration String} {ds : List (Declaration String)}

theorem Silenced.of_print {text text' : List Char} (h : d.print (List.replicate n ' ') = .ok text)
    (h' : (d.withoutComments "").print (List.replicate n ' ') = .ok text')
    (hsame : SameCode text text') : d.Silenced n := by
  have htext : d.text n = text := by
    rw [Declaration.text, h]
    rfl
  have htext' : (d.withoutComments "").text n = text' := by
    rw [Declaration.text, h']
    rfl
  exact ⟨htext ▸ h, htext' ▸ h', htext.symm ▸ htext'.symm ▸ hsame⟩

/-- The text of declarations that can all be printed. -/
theorem joinDeclarations_eq_ok (h : ∀ d ∈ ds, d.print (List.replicate n ' ') = .ok (d.text n)) :
    joinDeclarations (printAll (List.replicate n ' ') ds) =
      .ok (joinLines (((inOrder ds).filter fun d => !(d.text n).isEmpty).map (text n))) := by
  have hsorted : sortBy (fun a b => a.1.before b.1) (printAll (List.replicate n ' ') ds) =
      (inOrder ds).map fun d => (d.key, d.print (List.replicate n ' ')) := by
    rw [printAll_eq_map]
    exact sortBy_map (fun _ _ => rfl) ds
  have htexts : ((inOrder ds).map fun d => (d.key, d.print (List.replicate n ' '))).mapM (·.2) =
      Except.ok ((inOrder ds).map (text n)) := by
    rw [List.mapM_map]
    exact mapM_eq_ok fun d hd => h d (mem_sortBy.1 hd)
  rw [joinDeclarations, hsorted, htexts]
  refine congrArg (fun texts => Except.ok (joinLines texts)) ?_
  rw [List.filter_map]
  rfl

theorem inOrder_withoutComments (ds : List (Declaration String)) :
    inOrder (ds.map (·.withoutComments "")) = (inOrder ds).map (·.withoutComments "") :=
  sortBy_map (fun d d' => by rw [key_withoutComments, key_withoutComments]) ds

/-- Declarations are joined to texts with the same code. -/
theorem joinDeclarations_sameCode (h : ∀ d ∈ ds, d.Silenced n) :
    ∃ text text', joinDeclarations (printAll (List.replicate n ' ') ds) = .ok text ∧
      joinDeclarations (printAll (List.replicate n ' ') (ds.map (·.withoutComments ""))) =
        .ok text' ∧ SameCode text text' := by
  have hprinted : ∀ d ∈ ds.map (·.withoutComments ""),
      d.print (List.replicate n ' ') = .ok (d.text n) := by
    intro _ hmem
    obtain ⟨d, hd, rfl⟩ := List.mem_map.1 hmem
    exact (h d hd).print_ok'
  refine ⟨_, _, joinDeclarations_eq_ok fun d hd => (h d hd).print_ok,
    joinDeclarations_eq_ok hprinted, ?_⟩
  -- a declaration has no text exactly if it has none without comments
  have hkept : ((inOrder ds).map (·.withoutComments "")).filter (fun d => !(d.text n).isEmpty) =
      ((inOrder ds).filter fun d => !(d.text n).isEmpty).map (·.withoutComments "") := by
    rw [List.filter_map]
    refine congrArg (List.map _) (List.filter_congr fun d hd => ?_)
    have hiff := (h d (mem_sortBy.1 hd)).sameCode.nil_iff
    rw [Function.comp_apply, Bool.eq_iff_iff]
    simpa using not_congr hiff.symm
  rw [inOrder_withoutComments, hkept]
  refine .joinLines (fun d hd => ?_) fun d hd => ?_
  · exact (h d (mem_sortBy.1 (List.mem_filter.1 hd).1)).sameCode
  · simpa using (List.mem_filter.1 hd).2

/-- Comments do not change the code of a declaration. -/
theorem Named.silenced (n : Nat) : ∀ {d : Declaration String}, d.Named → d.Silenced n := by
  intro d
  induction d using Declaration.induct with
  | message name comment fields children ih =>
    rintro ⟨hname, hfields, hchildren⟩
    obtain ⟨body, body', hbody, hbody', hsame⟩ := joinDeclarations_sameCode fun d hd =>
      ih d hd (hchildren d hd)
    have hsorted : sortBy (fun a b : NamedField String => decide (a.number ≤ b.number))
        (fields.map (·.withComment "")) =
        (sortBy (fun a b => decide (a.number ≤ b.number)) fields).map (·.withComment "") :=
      sortBy_map (fun _ _ => rfl) fields
    have hhead : IsCodeRow ("message " ++ name).toList := by
      rw [String.toList_append]
      exact IsCodeRow.append (by decide) hname.not_newline
    have hsortedFields : ∀ f ∈ sortBy (fun a b => decide (a.number ≤ b.number)) fields,
        IsWord f.type ∧ IsWord f.name := fun f hf => hfields f (mem_sortBy.1 hf)
    have hprinted := printFields_sameCode hsame hsortedFields
    refine .of_print ?_ ?_ ((SameCode.block hhead hprinted n).commented
      (SameCode.block_ne_nil _ _ _) comment)
    · rw [print, hbody]
      rfl
    · rw [withoutComments, allWithoutComments_eq, print, hbody', hsorted]
      rfl
  | enumeration e =>
    rintro (_ | ⟨hname, helements⟩)
    have hhead : IsCodeRow ("enum " ++ e.name).toList := by
      rw [String.toList_append]
      exact IsCodeRow.append (by decide) hname.not_newline
    exact .of_print rfl rfl ((SameCode.block hhead (elements_allCode helements) n).commented
      (SameCode.block_ne_nil _ _ _) e.comment)
  | extension e =>
    rintro (_ | _ | ⟨hname, hfields⟩)
    have hhead : IsCodeRow ("extend " ++ e.base).toList := by
      rw [String.toList_append]
      exact IsCodeRow.append (by decide) hname.not_newline
    exact .of_print rfl rfl (.block hhead (extensionFields_allCode hfields) n)
  | service name rpcs =>
    rintro (_ | _ | _ | ⟨hname, hrpcs⟩)
    exact .of_print rfl rfl (printService_sameCode hname hrpcs n)
  | other kind name =>
    intro h
    cases h

end Declaration

/-! ## Files -/

theorem imports_allCode (files : List String) :
    AllCode (files.flatMap fun file => ("\nimport " ++ quote file ++ ";").toList) := by
  refine .flatMap fun file _ => ?_
  have hrow : IsCodeRow (importRow file) := by
    have hstart : IsCodeRow "import ".toList := by decide
    simp only [importRow, String.toList_append]
    exact (hstart.append (not_newline_quote file)).append (by decide)
  exact .line (by simp only [← String.append_assoc, String.reduceAppend]) hrow

theorem options_allCode {options : List (String × String)}
    (h : ∀ option ∈ options, IsWord option.1) :
    AllCode (options.flatMap fun (name, value) =>
      ("\noption " ++ name ++ " = " ++ quote value ++ ";").toList) := by
  refine .flatMap fun (name, value) hmem => ?_
  have hword : IsWord name := h _ hmem
  have hrow : IsCodeRow (optionRow name value) := by
    have hstart : IsCodeRow "option ".toList := by decide
    simp only [optionRow, String.toList_append]
    exact (((hstart.append hword.not_newline).append (by decide)).append
      (not_newline_quote value)).append (by decide)
  exact .line (by simp only [← String.append_assoc, String.reduceAppend]) hrow

/-- A part of a text with an empty line before it, if there is anything in it. -/
theorem AllCode.part {α β : Type} {items : List α} {sorted : List β} {f : β → List Char}
    (hperm : items.isEmpty = sorted.isEmpty) (hne : ∀ b, f b ≠ [])
    (h : AllCode (sorted.flatMap f)) :
    AllCode (if items.isEmpty then [] else '\n' :: sorted.flatMap f) := by
  rw [hperm]
  cases sorted with
  | nil => exact .nil
  | cons b rest =>
    refine h.spaced (fun hnil => hne b ?_) false false
    rw [List.flatMap_cons] at hnil
    exact (List.append_eq_nil_iff.1 hnil).1

theorem printHead_allCode {f : File String} (h : f.Named) : AllCode ('\n' :: f.printHead) := by
  have hedition : AllCode "\nsyntax = \"proto3\";\n".toList :=
    ⟨.inr ⟨_, rfl⟩, .inr ⟨_, rfl⟩, by decide, by decide⟩
  have hpackage : AllCode ("\npackage " ++ f.name ++ ";").toList := by
    have hrow : IsCodeRow ("package " ++ f.name ++ ";").toList := by
      have hstart : IsCodeRow "package ".toList := by decide
      simp only [String.toList_append]
      exact (hstart.append h.name.not_newline).append (by decide)
    exact .line (by simp only [← String.append_assoc, String.reduceAppend]) hrow
  have himports := AllCode.part (sortBy_perm _ f.imports).symm.isEmpty_eq
    (fun file => by simp) (imports_allCode (sortBy (fun a b => decide (a ≤ b)) f.imports))
  have hoptions := AllCode.part (sortBy_perm _ f.options).symm.isEmpty_eq
    (fun option => by simp) (options_allCode
      fun (option : String × String) (hoption : option ∈ sortEntries f.options) =>
        h.options option (mem_sortEntries.1 hoption))
  have hcode := ((hedition.append hpackage).append himports).append hoptions
  have hstart : '\n' :: ("syntax = \"proto3\";\n\npackage " ++ f.name ++ ";").toList =
      "\nsyntax = \"proto3\";\n".toList ++ ("\npackage " ++ f.name ++ ";").toList := by
    simp only [String.toList_append, ← List.append_assoc]
    rfl
  rw [File.printHead, ← List.cons_append, ← List.cons_append, hstart]
  exact hcode

/-- Comments do not change the code of a file. -/
theorem File.codeLines_print_of_named {f : File String} (h : f.Named) (n : Nat) :
    ∃ text text', f.print (String.ofList (List.replicate n ' ')) = .ok text ∧
      (f.withoutComments "").print (String.ofList (List.replicate n ' ')) = .ok text' ∧
      codeLines text.toList = filledLines text'.toList := by
  obtain ⟨body, body', hbody, hbody', hsame⟩ := Declaration.joinDeclarations_sameCode fun d hd =>
    (h.children d hd).silenced n
  have hhead := (printHead_allCode h).lines_eq
  rw [codeLines, filledLines, isCode_isSort.keptLines_newline,
    isFilled_isSort.keptLines_newline] at hhead
  have hlines : ∀ {p : List Char → Bool}, IsSort p → ∀ body : List Char,
      keptLines p (f.printHead ++ '\n' :: body ++ ['\n']) =
        keptLines p f.printHead ++ keptLines p body := by
    intro p hp body
    rw [keptLines_append, keptLines_append, hp.keptLines_nil, List.append_nil]
  refine ⟨String.ofList (f.printHead ++ '\n' :: body ++ ['\n']),
    String.ofList (f.printHead ++ '\n' :: body' ++ ['\n']), ?_, ?_, ?_⟩
  · rw [print, String.toList_ofList, hbody]
    rfl
  · rw [print, String.toList_ofList, withoutComments, hbody']
    rfl
  · rw [String.toList_ofList, String.toList_ofList, codeLines, filledLines, hlines isCode_isSort,
      hlines isFilled_isSort, hhead]
    exact congrArg _ hsame.lines_eq

/-! ## Packages -/

/-- Comments do not become code. A package with a tree of declarations, of which all names are
words, can be printed with its comments and with every comment emptied; without blank lines and
comment lines the first text has the lines of the second one, whatever the comments are. -/
theorem Graph.codeLines_print {g : Graph} {package : Nat} {f : File String}
    (hf : g.written? package = some f) (hnamed : f.Named) (n : Nat) :
    ∃ text text', g.print (String.ofList (List.replicate n ' ')) package = .ok text ∧
      g.withoutComments.print (String.ofList (List.replicate n ' ')) package = .ok text' ∧
      codeLines text.toList = filledLines text'.toList := by
  rw [print_of_written hf, print_of_written (written?_withoutComments hf)]
  exact File.codeLines_print_of_named hnamed n

/-- A package of which the comments look like code, like comments and like the ends of blocks. -/
def talkingGraph : Graph := ⟨#[
  .package ⟨"pets", ["google/api/annotations.proto"], [("go_package", "pets")],
    [.node 1, .node 3, .node 4, .node 5]⟩,
  .message ⟨"Pet", [⟨.builtin .string, "name", 1, false, .text "\x7d\nmessage Fake \x7b\n"⟩,
    ⟨.node 3, "colours", 2, true, .text "\n\n"⟩], [.node 2], .text "A pet.\n\n  // or\r\nso"⟩,
  .message ⟨"Toy", [⟨.node 1, "owner", 1, false, .text ""⟩], [], .text "\n"⟩,
  .enumeration ⟨"Colour", ["RED", "BLUE"], "  "⟩,
  .service ⟨"Pets", [⟨"Find", .node 1, .builtin .empty, "option deprecated = true;\n\x7d",
    [.http "get" "/pets\n" "name", .custom "limit" (.int 5)], true⟩]⟩,
  .extension ⟨"google.protobuf.MethodOptions", [⟨"limit", "int32", 50000⟩]⟩]⟩

/-- The tree of the package. -/
def talkingFile : File String where
  name := "pets"
  imports := ["google/api/annotations.proto"]
  options := [("go_package", "pets")]
  children := [
    .message "Pet" "A pet.\n\n  // or\r\nso"
      [⟨"string", "name", 1, false, "\x7d\nmessage Fake \x7b\n"⟩,
        ⟨"Colour", "colours", 2, true, "\n\n"⟩]
      [.message "Toy" "\n" [⟨"Pet", "owner", 1, false, ""⟩] []],
    .enumeration ⟨"Colour", ["RED", "BLUE"], "  "⟩,
    .service "Pets" [⟨"Find", "Pet", "google.protobuf.Empty", "option deprecated = true;\n\x7d",
      [.http "get" "/pets\n" "name", .custom "limit" (.int 5)], true⟩],
    .extension ⟨"google.protobuf.MethodOptions", [⟨"limit", "int32", 50000⟩]⟩]

theorem talkingFile_named : talkingFile.Named where
  name := by decide
  options := by decide
  children := by
    have htoy : (Declaration.message "Toy" "\n" [⟨"Pet", "owner", 1, false, ""⟩] []).Named :=
      .message (by decide) (by decide) nofun
    have hrpc : Rpc.Named ⟨"Find", "Pet", "google.protobuf.Empty",
        "option deprecated = true;\n\x7d",
        [.http "get" "/pets\n" "name", .custom "limit" (.int 5)], true⟩ :=
      ⟨by decide, by decide, by decide, by decide, by decide⟩
    refine List.forall_mem_cons.2 ⟨?_, List.forall_mem_cons.2 ⟨?_, List.forall_mem_cons.2 ⟨?_,
      List.forall_mem_cons.2 ⟨?_, nofun⟩⟩⟩⟩
    · exact .message (by decide) (by decide) (List.forall_mem_singleton.2 htoy)
    · exact .enumeration (by decide) (by decide)
    · exact .service (by decide) (List.forall_mem_singleton.2 hrpc)
    · exact .extension (by decide) (by decide)

theorem Graph.codeLines_print_talking :
    talkingGraph.written? 0 = some talkingFile ∧ talkingFile.Named ∧
      ∃ text text', talkingGraph.print "  " 0 = .ok text ∧
        talkingGraph.withoutComments.print "  " 0 = .ok text' ∧
        codeLines text.toList = filledLines text'.toList :=
  ⟨rfl, talkingFile_named, Graph.codeLines_print rfl talkingFile_named 2⟩

end ApiProto.Proto
