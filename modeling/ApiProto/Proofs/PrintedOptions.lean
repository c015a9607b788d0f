import ApiProto.Proofs.OperationAgreement

/-!
# Printing options

The text of a package does not depend on the order of the custom options of its procedures.

* `Declaration.mapOptions`, `File.mapOptions` — changes the options of all procedures of a tree.
* `Graph.file?_mapOptions`, `File.withTexts_mapOptions` — the way from a graph to a tree with texts
  leaves options alone.
* `Graph.print_canonicalOptions` — options in canonical form are printed in the same way.
-/

namespace ApiProto.Proto

open Text

section Trees

variable (change : List RpcOption → List RpcOption) {κ : Type}

mutual

/-- Changes the options of all procedures of a declaration. -/
def Declaration.mapOptions : Declaration κ → Declaration κ
  | .message name comment fields children => .message name comment fields (mapOptionsAll children)
  | .enumeration e => .enumeration e
  | .extension e => .extension e
  | .service name rpcs => .service name (rpcs.map (Rpc.mapOptions change))
  | .other kind name => .other kind name

/-- Changes the options of all procedures of declarations. -/
def mapOptionsAll : List (Declaration κ) → List (Declaration κ)
  | [] => []
  | d :: rest => d.mapOptions :: mapOptionsAll rest

end

theorem mapOptionsAll_eq_map (ds : List (Declaration κ)) :
    mapOptionsAll change ds = ds.map (Declaration.mapOptions change) := by
  induction ds with
  | nil => rfl
  | cons d rest ih => simp [mapOptionsAll, ih]

/-- Changes the options of all procedures of a file. -/
def File.mapOptions (f : File κ) : File κ :=
  { f with children := f.children.map (Declaration.mapOptions change) }

/-! ## From a graph to a tree -/

theorem mapM_option_map {α β : Type} {f : α → Option β} {k : β → β} (l : List α) :
    l.mapM (fun a => (f a).map k) = (l.mapM f).map (List.map k) := by
  induction l with
  | nil => rfl
  | cons a rest ih =>
    simp only [List.mapM_cons, ih]
    rcases f a with _ | b
    · rfl
    · rcases rest.mapM f with _ | bs <;> rfl

theorem Graph.declarationWithin?_mapOptions (g : Graph) (depth : Nat) (t : TypeRef) :
    (g.mapOptions change).declarationWithin? depth t =
      (g.declarationWithin? depth t).map (Declaration.mapOptions change) := by
  induction depth generalizing t with
  | zero => rfl
  | succ depth ih =>
    rcases t with b | id
    · simp [declarationWithin?, Declaration.mapOptions]
    · simp only [declarationWithin?, node?_mapOptions, kindName_mapOptions, typeName_mapOptions]
      rcases g.node? id with _ | n
      · rfl
      · cases n with
        | message m =>
          have hfield : (g.mapOptions change).namedField (κ := Value) = g.namedField := by
            funext f
            simp [namedField]
          simp only [Option.map_some, Node.mapOptions, ih, mapM_option_map, hfield]
          rcases m.children.mapM fun c => g.declarationWithin? depth c with _ | children
          · rfl
          · simp [Declaration.mapOptions, mapOptionsAll_eq_map]
        | service s =>
          simp [Node.mapOptions, Declaration.mapOptions, namedRpc, Rpc.mapOptions]
        | _ => rfl

theorem Graph.file?_mapOptions (g : Graph) (package : Nat) :
    (g.mapOptions change).file? package = (g.file? package).map (File.mapOptions change) := by
  have hdeclaration : (g.mapOptions change).declaration? =
      fun t => (g.declaration? t).map (Declaration.mapOptions change) := by
    funext t
    simp only [declaration?, size_mapOptions, declarationWithin?_mapOptions]
  simp only [file?, package?_mapOptions, hdeclaration, mapM_option_map]
  rcases g.package? package with _ | p
  · rfl
  · rcases h : p.children.mapM g.declaration? with _ | children <;> simp [File.mapOptions, h]

/-! ## Texts for comments -/

mutual

theorem Declaration.withTexts_mapOptions : ∀ d : Declaration Value,
    (d.mapOptions change).withTexts = d.withTexts.map (Declaration.mapOptions change)
  | .message name comment fields children => by
    have hchildren := allWithTexts_mapOptions children
    simp only [Declaration.mapOptions, withTexts, hchildren]
    rcases allWithTexts children with e | texts
    · rfl
    · dsimp only [Except.map]
      show (List.mapM (m := Except Error) _ fields >>= _) =
        Except.map _ (List.mapM (m := Except Error) _ fields >>= _)
      generalize List.mapM (m := Except Error) _ fields = named
      rcases named with e | named
      · rfl
      · rcases commentText comment with e | comment <;> rfl
  | .enumeration _ | .extension _ | .service .. | .other .. => rfl

theorem Declaration.allWithTexts_mapOptions : ∀ ds : List (Declaration Value),
    allWithTexts (mapOptionsAll change ds) = (allWithTexts ds).map (mapOptionsAll change)
  | [] => rfl
  | d :: rest => by
    have hd := withTexts_mapOptions d
    have hrest := allWithTexts_mapOptions rest
    simp only [mapOptionsAll, allWithTexts, hd, hrest]
    rcases d.withTexts with e | d' <;> rcases allWithTexts rest with e | rest' <;> rfl

end

theorem File.withTexts_mapOptions (f : File Value) :
    (f.mapOptions change).withTexts = f.withTexts.map (File.mapOptions change) := by
  have hchildren := Declaration.allWithTexts_mapOptions change f.children
  rw [mapOptionsAll_eq_map] at hchildren
  simp only [File.withTexts, File.mapOptions, hchildren]
  rcases Declaration.allWithTexts f.children with e | texts
  · rfl
  · simp [Except.map, File.mapOptions, mapOptionsAll_eq_map]

theorem Declaration.priority_mapOptions (d : Declaration κ) :
    (d.mapOptions change).priority = d.priority := by
  cases d <;> rfl

theorem Declaration.name_mapOptions (d : Declaration κ) : (d.mapOptions change).name = d.name := by
  cases d <;> rfl

end Trees

/-! ## Texts -/

theorem printHttpOptions_canonicalOptions (indent : List Char) (options : List RpcOption) :
    printHttpOptions indent (Compile.canonicalOptions options) = printHttpOptions indent options := by
  have hcustom : ∀ l : List (String × Value),
      printHttpOptions indent (l.map fun entry => .custom entry.1 entry.2) = [] := by
    intro l
    simp [printHttpOptions, List.flatMap_map]
  have hhttp : printHttpOptions indent (options.filter Compile.isHttp) =
      printHttpOptions indent options := by
    induction options with
    | nil => rfl
    | cons option rest ih =>
      cases option with
      | http method path body => exact congrArg (printHttp indent method path body ++ ·) ih
      | custom name value => exact ih
  have hsplit : ∀ l l' : List RpcOption,
      printHttpOptions indent (l ++ l') = printHttpOptions indent l ++ printHttpOptions indent l' := by
    intro l l'
    simp [printHttpOptions]
  rw [Compile.canonicalOptions, hsplit, hcustom, hhttp, List.append_nil]

theorem printCustomOptions_canonicalOptions (options : List RpcOption) :
    printCustomOptions (customOptions (Compile.canonicalOptions options)) =
      printCustomOptions (customOptions options) := by
  have hhttp : customOptions (options.filter Compile.isHttp) = [] := by
    induction options with
    | nil => rfl
    | cons option rest ih =>
      cases option <;> simpa [customOptions, Compile.isHttp] using ih
  simp only [printCustomOptions, Compile.canonicalOptions, Compile.customOptions_append, hhttp,
    Compile.customOptions_custom, List.nil_append, sortEntries_sortEntries]

/-- Options in canonical form are printed in the same way. -/
theorem printRpc_canonicalOptions (indent : List Char) (r : NamedRpc) :
    printRpc indent (r.mapOptions Compile.canonicalOptions) = printRpc indent r := by
  simp only [printRpc, Rpc.mapOptions, printHttpOptions_canonicalOptions,
    printCustomOptions_canonicalOptions]
  rfl

theorem printService_canonicalOptions (indent : List Char) (name : String) (rpcs : List NamedRpc) :
    printService indent name (rpcs.map (Rpc.mapOptions Compile.canonicalOptions)) =
      printService indent name rpcs := by
  have hsorted : sortBy (fun a b => decide (a.name ≤ b.name))
        (rpcs.map (Rpc.mapOptions Compile.canonicalOptions)) =
      (sortBy (fun a b => decide (a.name ≤ b.name)) rpcs).map
        (Rpc.mapOptions Compile.canonicalOptions) :=
    sortBy_map (fun _ _ => rfl) rpcs
  simp only [printService, hsorted, List.map_map, List.isEmpty_map]
  congr 4
  funext r
  exact printRpc_canonicalOptions indent r

mutual

theorem Declaration.print_canonicalOptions (indent : List Char) : ∀ d : Declaration String,
    (d.mapOptions Compile.canonicalOptions).print indent = d.print indent
  | .message name comment fields children => by
    simp only [Declaration.mapOptions, Declaration.print, printAll_canonicalOptions indent children]
  | .service name rpcs => by
    simp only [Declaration.mapOptions, Declaration.print, printService_canonicalOptions]
  | .enumeration _ | .extension _ | .other .. => rfl

theorem printAll_canonicalOptions (indent : List Char) : ∀ ds : List (Declaration String),
    printAll indent (mapOptionsAll Compile.canonicalOptions ds) = printAll indent ds
  | [] => rfl
  | d :: rest => by
    simp only [mapOptionsAll, printAll, Declaration.priority_mapOptions,
      Declaration.name_mapOptions, Declaration.print_canonicalOptions indent d,
      printAll_canonicalOptions indent rest]

end

theorem File.print_canonicalOptions (indent : String) (f : File String) :
    (f.mapOptions Compile.canonicalOptions).print indent = f.print indent := by
  have hchildren := printAll_canonicalOptions indent.toList f.children
  rw [mapOptionsAll_eq_map] at hchildren
  simp only [File.print, File.mapOptions, File.printHead, hchildren]
  rfl

/-- The text of a package does not depend on the order of custom options. -/
theorem Graph.print_canonicalOptions (indent : String) (g : Graph) (package : Nat) :
    (g.mapOptions Compile.canonicalOptions).print indent package = g.print indent package := by
  simp only [Graph.print, Graph.file?_mapOptions]
  rcases g.file? package with _ | f
  · rfl
  · simp only [Option.map_some, File.withTexts_mapOptions]
    rcases f.withTexts with e | texts
    · rfl
    · exact File.print_canonicalOptions indent texts

end ApiProto.Proto
