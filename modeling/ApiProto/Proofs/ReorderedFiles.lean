import ApiProto.Proto.Printer
import Mathlib.Data.List.Forall2

/-!
# Reordered files

Two files that differ only in the order of declarations, fields, procedures, imports and options, at
any depth. They are printed in the same way, if nothing has the same key as something beside it.

* `Rpc.Reordered`, `Declaration.Reordered`, `File.Reordered` — the same contents in another order.
* `Declaration.KeysDiffer`, `File.KeysDiffer` — no two things side by side have the same key.
* `Declaration.print_eq`, `File.print_eq` — reordered trees are printed in the same way.
* `Graph.written?` — the tree of a package with the texts of its comments.
* `Graph.print_eq_of_reordered` — packages with reordered trees have the same text.
-/

namespace ApiProto.Proto

/-! ## The same contents in another order -/

/-- Two lists of related items, in any order. -/
def ReorderedBy {α β : Type} (R : α → β → Prop) (l : List α) (l' : List β) : Prop :=
  ∃ mid, l.Perm mid ∧ List.Forall₂ R mid l'

/-- The HTTP options of a procedure: method, path and body. -/
def httpOptions (options : List RpcOption) : List (String × String × String) :=
  options.filterMap fun
    | .http method path body => some (method, path, body)
    | .custom .. => none

/-- The custom options of a procedure with their values as they are printed. -/
def literalOptions (options : List RpcOption) : List (String × String) :=
  (customOptions options).map fun (name, value) => (name, optionLiteral value)

/-- Two procedures that differ only in the order of options. HTTP options stand in the same order
among themselves. -/
structure Rpc.Reordered (r r' : NamedRpc) : Prop where
  name_eq : r'.name = r.name
  parameter_eq : r'.parameter = r.parameter
  response_eq : r'.response = r.response
  comment_eq : r'.comment = r.comment
  deprecated_eq : r'.deprecated = r.deprecated
  httpOptions_eq : httpOptions r'.options = httpOptions r.options
  customOptions : (literalOptions r.options).Perm (literalOptions r'.options)

/-- Two declarations that differ only in the order of what is inside them, at any depth. -/
inductive Declaration.Reordered : Declaration String → Declaration String → Prop
  | message {name comment : String} {fields fields' : List (NamedField String)}
      {children mid children' : List (Declaration String)} :
      fields.Perm fields' → children.Perm mid →
      List.Forall₂ Declaration.Reordered mid children' →
      Declaration.Reordered (.message name comment fields children)
        (.message name comment fields' children')
  | enumeration (e : Enumeration) : Declaration.Reordered (.enumeration e) (.enumeration e)
  | extension (e : Extension) : Declaration.Reordered (.extension e) (.extension e)
  | service {name : String} {rpcs rpcs' : List NamedRpc} :
      ReorderedBy Rpc.Reordered rpcs rpcs' →
      Declaration.Reordered (.service name rpcs) (.service name rpcs')
  | other (kind name : String) : Declaration.Reordered (.other kind name) (.other kind name)

/-- Two files that differ only in the order of what is inside them. -/
structure File.Reordered (f f' : File String) : Prop where
  name_eq : f'.name = f.name
  imports : f.imports.Perm f'.imports
  options : f.options.Perm f'.options
  children : ReorderedBy Declaration.Reordered f.children f'.children

/-! ## Keys -/

/-- The key by which a declaration is sorted. -/
def Declaration.key {κ : Type} (d : Declaration κ) : SortKey := (d.priority, d.name)

/-- No two things side by side in a declaration have the same key: declarations, fields, procedures,
and custom options of a procedure. -/
inductive Declaration.KeysDiffer : Declaration String → Prop
  | message {name comment : String} {fields : List (NamedField String)}
      {children : List (Declaration String)} :
      (fields.map (·.number)).Nodup → (children.map Declaration.key).Nodup →
      (∀ d ∈ children, Declaration.KeysDiffer d) →
      Declaration.KeysDiffer (.message name comment fields children)
  | enumeration (e : Enumeration) : Declaration.KeysDiffer (.enumeration e)
  | extension (e : Extension) : Declaration.KeysDiffer (.extension e)
  | service {name : String} {rpcs : List NamedRpc} : (rpcs.map (·.name)).Nodup →
      (∀ r ∈ rpcs, ((customOptions r.options).map (·.1)).Nodup) →
      Declaration.KeysDiffer (.service name rpcs)
  | other (kind name : String) : Declaration.KeysDiffer (.other kind name)

/-- No two things side by side in a file have the same key. -/
structure File.KeysDiffer (f : File String) : Prop where
  imports : f.imports.Nodup
  options : (f.options.map (·.1)).Nodup
  keys : (f.children.map Declaration.key).Nodup
  children : ∀ d ∈ f.children, d.KeysDiffer

/-- What holds of a declaration as soon as it holds of those inside it holds of all. -/
theorem Declaration.induct {κ : Type} {P : Declaration κ → Prop}
    (message : ∀ name comment fields children, (∀ d ∈ children, P d) →
      P (.message name comment fields children))
    (enumeration : ∀ e, P (.enumeration e)) (extension : ∀ e, P (.extension e))
    (service : ∀ name rpcs, P (.service name rpcs)) (other : ∀ kind name, P (.other kind name)) :
    ∀ d, P d :=
  @Declaration.rec κ P (fun ds => ∀ d ∈ ds, P d) message enumeration extension service other
    (fun _ hd => nomatch hd) fun _ _ hhead htail => List.forall_mem_cons.2 ⟨hhead, htail⟩

theorem Declaration.Reordered.key_eq {d d' : Declaration String} (h : d.Reordered d') :
    d'.key = d.key := by
  cases h <;> rfl

theorem SortKey.before_trans {a b c : SortKey} (hab : a.before b = true) (hbc : b.before c = true) :
    a.before c = true := by
  simp only [before, Bool.or_eq_true, Bool.and_eq_true, decide_eq_true_eq, beq_iff_eq] at *
  rcases hab with hab | ⟨hab, hname⟩ <;> rcases hbc with hbc | ⟨hbc, hname'⟩
  · exact .inl (Int.lt_trans hab hbc)
  · exact .inl (hbc ▸ hab)
  · exact .inl (hab ▸ hbc)
  · exact .inr ⟨hab.trans hbc, String.le_trans hname hname'⟩

theorem SortKey.before_total (a b : SortKey) : a.before b = true ∨ b.before a = true := by
  simp only [before, Bool.or_eq_true, Bool.and_eq_true, decide_eq_true_eq, beq_iff_eq]
  rcases Int.lt_trichotomy a.1 b.1 with hlt | heq | hgt
  · exact .inl (.inl hlt)
  · exact (String.le_total a.2 b.2).imp (fun h => .inr ⟨heq, h⟩) fun h => .inr ⟨heq.symm, h⟩
  · exact .inr (.inl hgt)

theorem SortKey.before_antisymm {a b : SortKey} (hab : a.before b = true)
    (hba : b.before a = true) : a = b := by
  simp only [before, Bool.or_eq_true, Bool.and_eq_true, decide_eq_true_eq, beq_iff_eq] at *
  rcases hab with hab | ⟨heq, hab⟩ <;> rcases hba with hba | ⟨heq', hba⟩
  · exact absurd hba (Int.lt_asymm hab)
  · exact absurd heq'.symm (Int.ne_of_lt hab)
  · exact absurd heq.symm (Int.ne_of_lt hba)
  · exact Prod.ext heq (String.le_antisymm hab hba)

/-! ## Printing -/

/-- What is the same for related items stands in two lists in some order. -/
theorem ReorderedBy.map_perm {α β γ : Type} {R : α → β → Prop} {l : List α} {l' : List β}
    {f : α → γ} {f' : β → γ} (h : ReorderedBy R l l') (hf : ∀ a ∈ l, ∀ b, R a b → f a = f' b) :
    (l.map f).Perm (l'.map f') := by
  obtain ⟨mid, hperm, hrelated⟩ := h
  have hmid : mid.map f = l'.map f' := by
    have hmem : ∀ a ∈ mid, a ∈ l := fun a => hperm.mem_iff.2
    clear hperm
    induction hrelated with
    | nil => rfl
    | cons hab _ ih =>
      rw [List.map_cons, List.map_cons, hf _ (hmem _ (List.mem_cons_self ..)) _ hab,
        ih fun a ha => hmem a (List.mem_cons_of_mem _ ha)]
  exact hmid ▸ hperm.map f

theorem printHttpOptions_eq (indent : List Char) (options : List RpcOption) :
    printHttpOptions indent options = (httpOptions options).flatMap fun (method, path, body) =>
      printHttp indent method path body := by
  induction options with
  | nil => rfl
  | cons option rest ih =>
    cases option with
    | http method path body => exact congrArg (printHttp indent method path body ++ ·) ih
    | custom => exact ih

/-- Custom options are printed in the order of their names, whatever the values that give the
literals. -/
theorem printCustomOptions_eq (options : List RpcOption) :
    printCustomOptions (customOptions options) =
      (sortEntries (literalOptions options)).flatMap fun (name, literal) =>
        ("\noption (" ++ name ++ ") = " ++ literal ++ ";").toList := by
  have hsorted : sortEntries (literalOptions options) =
      (sortEntries (customOptions options)).map fun (name, value) => (name, optionLiteral value) :=
    sortBy_map (fun _ _ => rfl) (customOptions options)
  rw [printCustomOptions, hsorted, List.flatMap_map]

theorem printRpc_eq (indent : List Char) {r r' : NamedRpc} (h : r.Reordered r')
    (hdiffer : ((customOptions r.options).map (·.1)).Nodup) :
    printRpc indent r = printRpc indent r' := by
  have hnames : ((literalOptions r.options).map (·.1)).Nodup := by
    rw [literalOptions, List.map_map]
    exact hdiffer
  rw [printRpc, printRpc, h.name_eq, h.parameter_eq, h.response_eq, h.comment_eq, h.deprecated_eq,
    printHttpOptions_eq, printHttpOptions_eq, h.httpOptions_eq, printCustomOptions_eq,
    printCustomOptions_eq, sortEntries_eq_of_perm h.customOptions hnames]

theorem printService_eq (indent : List Char) (name : String) {rpcs rpcs' : List NamedRpc}
    (h : ReorderedBy Rpc.Reordered rpcs rpcs') (hnames : (rpcs.map (·.name)).Nodup)
    (hdiffer : ∀ r ∈ rpcs, ((customOptions r.options).map (·.1)).Nodup) :
    printService indent name rpcs = printService indent name rpcs' := by
  -- procedures are sorted together with their texts
  have htexts : ∀ l : List NamedRpc,
      (sortBy (fun a b => decide (a.name ≤ b.name)) l).map (printRpc indent) =
        (sortEntries (l.map fun r => (r.name, printRpc indent r))).map (·.2) := by
    intro l
    have hsorted : sortEntries (l.map fun r => (r.name, printRpc indent r)) =
        (sortBy (fun a b => decide (a.name ≤ b.name)) l).map fun r => (r.name, printRpc indent r) :=
      sortBy_map (fun _ _ => rfl) l
    rw [hsorted, List.map_map]
    rfl
  have hperm : (rpcs.map fun r => (r.name, printRpc indent r)).Perm
      (rpcs'.map fun r => (r.name, printRpc indent r)) :=
    h.map_perm fun r hr r' hreordered =>
      Prod.ext hreordered.name_eq.symm (printRpc_eq indent hreordered (hdiffer r hr))
  have hempty : rpcs.isEmpty = rpcs'.isEmpty := by
    simpa only [List.isEmpty_map] using hperm.isEmpty_eq
  have hdistinct : ((rpcs.map fun r => (r.name, printRpc indent r)).map (·.1)).Nodup := by
    rw [List.map_map]
    exact hnames
  rw [printService, printService, hempty, htexts, htexts, sortEntries_eq_of_perm hperm hdistinct]

theorem printAll_eq_map (indent : List Char) (ds : List (Declaration String)) :
    printAll indent ds = ds.map fun d => (d.key, d.print indent) := by
  induction ds with
  | nil => rfl
  | cons d rest ih => rw [printAll, ih, List.map_cons, Declaration.key]

/-- Declarations that are the same in another order are joined to the same text. -/
theorem joinDeclarations_eq (indent : List Char) {ds ds' : List (Declaration String)}
    (h : ReorderedBy Declaration.Reordered ds ds') (hkeys : (ds.map Declaration.key).Nodup)
    (hprint : ∀ d ∈ ds, ∀ d', d.Reordered d' → d.print indent = d'.print indent) :
    joinDeclarations (printAll indent ds) = joinDeclarations (printAll indent ds') := by
  have hperm : (printAll indent ds).Perm (printAll indent ds') := by
    rw [printAll_eq_map, printAll_eq_map]
    exact h.map_perm fun d hd d' hreordered =>
      Prod.ext hreordered.key_eq.symm (hprint d hd d' hreordered)
  have hdistinct : ((printAll indent ds).map (·.1)).Nodup := by
    rw [printAll_eq_map, List.map_map]
    exact hkeys
  have hsorted : sortBy (fun a b => a.1.before b.1) (printAll indent ds) =
      sortBy (fun a b => a.1.before b.1) (printAll indent ds') := by
    refine sortBy_eq_of_perm (fun _ _ _ hab hbc => ?_) (fun a b => ?_) (fun _ _ hab hba => ?_) hperm
      hdistinct
    · exact SortKey.before_trans hab hbc
    · exact SortKey.before_total a.1 b.1
    · exact SortKey.before_antisymm hab hba
  rw [joinDeclarations, joinDeclarations, hsorted]

/-- Reordered declarations are printed in the same way. -/
theorem Declaration.print_eq (indent : List Char) (d : Declaration String) :
    ∀ d', d.KeysDiffer → d.Reordered d' → d.print indent = d'.print indent := by
  induction d using Declaration.induct with
  | message name comment fields children ih =>
    rintro _ hdiffer (⟨hfields, hperm, hrelated⟩)
    obtain ⟨hnumbers, hkeys, hdiffer⟩ := hdiffer
    have hchildren := joinDeclarations_eq indent ⟨_, hperm, hrelated⟩ hkeys fun d hd d' =>
      ih d hd d' (hdiffer d hd)
    have hsorted : sortBy (fun a b : NamedField String => decide (a.number ≤ b.number)) fields =
        sortBy (fun a b => decide (a.number ≤ b.number)) _ :=
      sortByKey_eq_of_perm hfields hnumbers
    rw [print, print, hchildren, hsorted]
  | service name rpcs =>
    rintro _ hkeys (_ | _ | _ | hrpcs)
    cases hkeys with
    | service hnames hdiffer =>
      rw [print, print, printService_eq indent name hrpcs hnames hdiffer]
  | enumeration | extension | other =>
    rintro _ - ⟨⟩
    rfl

/-- Reordered files are printed in the same way. -/
theorem File.print_eq (indent : String) {f f' : File String} (hdiffer : f.KeysDiffer)
    (h : f.Reordered f') : f.print indent = f'.print indent := by
  have himports : sortBy (fun a b => decide (a ≤ b)) f.imports =
      sortBy (fun a b => decide (a ≤ b)) f'.imports :=
    sortByKey_eq_of_perm h.imports (by simpa using hdiffer.imports)
  have hhead : f.printHead = f'.printHead := by
    rw [printHead, printHead, h.name_eq, himports, h.imports.isEmpty_eq, h.options.isEmpty_eq,
      sortEntries_eq_of_perm h.options hdiffer.options]
  rw [print, print, hhead, joinDeclarations_eq indent.toList h.children hdiffer.keys fun d hd d' =>
    d.print_eq indent.toList d' (hdiffer.children d hd)]

/-! ## Packages -/

/-- The tree of a package with the texts of its comments. There is none if a declaration contains
itself, or if a comment is no text. -/
def Graph.written? (g : Graph) (package : Nat) : Option (File String) :=
  (g.file? package).bind fun f => f.withTexts.toOption

theorem Graph.print_of_written {g : Graph} {package : Nat} {f : File String}
    (h : g.written? package = some f) (indent : String) :
    g.print indent package = f.print indent := by
  obtain ⟨tree, htree, htexts⟩ := Option.bind_eq_some_iff.1 h
  rw [print, htree]
  rcases hresult : tree.withTexts with e | texts <;> rw [hresult] at htexts
  · cases htexts
  · obtain rfl := Option.some.inj htexts
    exact congrArg (Except.bind · (File.print indent)) hresult

/-- Packages that differ only in the order of what is inside them have the same text, if no two
things side by side have the same key. -/
theorem Graph.print_eq_of_reordered {g g' : Graph} {package package' : Nat} {f f' : File String}
    (hf : g.written? package = some f) (hf' : g'.written? package' = some f')
    (hdiffer : f.KeysDiffer) (h : f.Reordered f') (indent : String) :
    g.print indent package = g'.print indent package' := by
  rw [print_of_written hf, print_of_written hf', File.print_eq indent hdiffer h]

/-- A list, or the list from its end. -/
def turn {α : Type} (turned : Bool) (l : List α) : List α := if turned then l.reverse else l

/-- A package of a message and a service, with all that may be reordered from its end or not. -/
def petGraph (turned : Bool) : Graph := ⟨#[
  .package ⟨"pets", turn turned ["a.proto", "b.proto"],
    turn turned [("go_package", "pets"), ("java_package", "pets")],
    turn turned [.node 1, .node 2]⟩,
  .message ⟨"Pet", turn turned [⟨.builtin .string, "name", 1, false, .text "A name."⟩,
    ⟨.builtin .int64, "ages", 2, true, .text ""⟩], [], .text ""⟩,
  .service ⟨"Pets", turn turned [
    ⟨"Find", .node 1, .node 1, "Finds a pet.",
      turn turned [.http "get" "/pets" "", .custom "limit" (.int 5), .custom "open" (.bool true)],
      false⟩,
    ⟨"Store", .node 1, .builtin .empty, "", [], true⟩]⟩]⟩

/-- The procedures of the service. -/
def petRpcs (turned : Bool) : List NamedRpc := [
  ⟨"Find", "Pet", "Pet", "Finds a pet.",
    turn turned [.http "get" "/pets" "", .custom "limit" (.int 5), .custom "open" (.bool true)],
    false⟩,
  ⟨"Store", "Pet", "google.protobuf.Empty", "", [], true⟩]

/-- The tree of the package. -/
def petFile (turned : Bool) : File String where
  name := "pets"
  imports := turn turned ["a.proto", "b.proto"]
  options := turn turned [("go_package", "pets"), ("java_package", "pets")]
  children := turn turned [
    .message "Pet" "" (turn turned [⟨"string", "name", 1, false, "A name."⟩,
      ⟨"int64", "ages", 2, true, ""⟩]) [],
    .service "Pets" (turn turned (petRpcs turned))]

theorem petFile_keysDiffer : (petFile false).KeysDiffer where
  imports := by decide
  options := by decide
  keys := by decide
  children := by
    intro d hd
    rcases List.mem_cons.1 hd with rfl | hd
    · exact .message (by decide) .nil nofun
    · obtain rfl := List.mem_singleton.1 hd
      exact .service (by decide) (by decide)

theorem petFile_reordered : (petFile false).Reordered (petFile true) where
  name_eq := rfl
  imports := .swap _ _ _
  options := .swap _ _ _
  children := by
    have hrpcs : ReorderedBy Rpc.Reordered (petRpcs false) (turn true (petRpcs true)) :=
      ⟨_, .swap _ _ _, .cons ⟨rfl, rfl, rfl, rfl, rfl, rfl, .refl _⟩
        (.cons ⟨rfl, rfl, rfl, rfl, rfl, rfl, .swap _ _ _⟩ .nil)⟩
    exact ⟨_, .swap _ _ _, .cons (.service hrpcs) (.cons (.message (.swap _ _ _) .nil .nil) .nil)⟩

theorem Graph.print_eq_of_reordered_pets :
    (petGraph false).written? 0 = some (petFile false) ∧
      (petGraph true).written? 0 = some (petFile true) ∧ (petFile false).KeysDiffer ∧
      (petFile false).Reordered (petFile true) ∧
      (petGraph false).print "  " 0 = (petGraph true).print "  " 0 :=
  ⟨rfl, rfl, petFile_keysDiffer, petFile_reordered,
    Graph.print_eq_of_reordered rfl rfl petFile_keysDiffer petFile_reordered "  "⟩

end ApiProto.Proto
