import ApiProto.Document.Build
import ApiProto.Proofs.DrawnPackages
import ApiProto.Proofs.SkippedProcedures
import ApiProto.Proofs.WellNamed

/-!
# Packages with good names

All names in a package are made of letters, digits and underscores, except those of the fields of
extensions, which are written as they are given. What can be wrong with one is that a digit comes
first, or that it is empty. Neither happens if the description has good names.

* `Spec.WellNamed` — descriptions with good names.
* `compilePhases_suits` — all names that are made are suitable.
* `names_of_compile` — the names in a package.
-/

namespace ApiProto.Document

open Name

/-- A description has good names: in what it names something, a letter is the first of the letters
and digits. -/
structure Spec.WellNamed (spec : Spec) : Prop where
  title : Unnumbered spec.title.toList
  schemas : ∀ s ∈ spec.schemas, s.NamesWell
  definitions : ∀ entry ∈ spec.definitions, Compile.NamesTypes entry.1 entry.2
  parameters : ∀ entry ∈ spec.parameters, Compile.NamesTypes entry.1 entry.2.described
  /-- Shared parameters have names. -/
  shared : ∀ entry ∈ spec.parameters, entry.2.name.isEmpty = false ∧ entry.2.name.NamesWell
  operations : ∀ entry ∈ spec.paths, ∀ e ∈ entry.2.endpoints, e.operationId.NamesWell
  requests : ∀ entry ∈ spec.paths, ∀ e ∈ entry.2.endpoints,
    ∀ q ∈ entry.2.parameters ++ e.parameters, ∀ key ∈ q.key?, HasInitial key.toList
  extensions : ∀ e ∈ spec.extensions, ∀ f ∈ e.fields, IsIdentifier f.name.display

theorem Spec.WellNamed.root {spec : Spec} (h : spec.WellNamed) {s : Schema} (hs : s ∈ spec.roots) :
    s.WellNamed := fun t ht =>
  h.schemas t (List.mem_flatMap.2 ⟨s, hs, ht⟩)

/-! ## Parameters -/

theorem Parameter.property_parts (q : Parameter) (key : String) :
    (q.property key).protoName = .text key ∧ (q.property key).choices = q.described.choices ∧
      (q.property key).properties = q.described.properties ∧
      (q.property key).items = q.described.items ∧
      (q.property key).additional = q.described.additional := by
  unfold property described
  rcases q.schema with _ | s <;> exact ⟨rfl, rfl, rfl, rfl, rfl⟩

end ApiProto.Document

namespace ApiProto.Compile

open Proto Document CompileM Name

variable {env : Environment} {good : Prop} {package : Nat} {c c' : Compilation} {name : String}
  {t : TypeRef}

/-- A parameter is a property with a name of its own, and with what it says of its value inside
it. -/
theorem parameterSchema_named {q : Parameter} {key : String} {s : Schema}
    (h : parameterSchema q c = .ok ((key, s), c')) :
    q.key? = some key ∧ s.protoName = .text key ∧ (q.described.WellNamed → s.WellNamed) ∧
      (s.listsValues = true → q.described.listsValues = true) := by
  obtain ⟨hkey, ⟨-, ref, -, -, rfl⟩ | ⟨-, word, -, -, rfl⟩⟩ := parameterSchema_cases h
  · refine ⟨hkey, rfl, fun _ => ?_, nofun⟩
    have hempty : Schema.WellNamed { Schema.blank with properties := [] } :=
      .of_properties nofun nofun nofun
    exact hempty.of_same rfl rfl rfl
  · obtain ⟨hname, hchoices, hproperties, hitems, hadditional⟩ := q.property_parts key
    refine ⟨hkey, hname, fun hwell => hwell.of_same hproperties hitems hadditional, ?_⟩
    rw [Schema.listsValues_congr hchoices hitems hadditional]
    exact id

theorem namesWell_text {word : String} (h : HasInitial word.toList) :
    (Value.text word).NamesWell := fun _ hmem => by
  obtain rfl := Option.some.inj hmem
  exact .inr h

/-- The request of well-named parameters is a well-named schema. -/
theorem requestSchema_wellNamed {parameters : List Parameter} {s : Schema}
    (hkeys : ∀ q ∈ parameters, ∀ key ∈ q.key?, HasInitial key.toList)
    (hwell : ∀ q ∈ parameters, q.described.WellNamed)
    (h : requestSchema parameters c = .ok (s, c')) : s.WellNamed := by
  obtain ⟨properties, hproperties, rfl⟩ := requestSchema_properties h
  have hentries : ∀ entry ∈ collectEntries properties, HasInitial entry.1.toList ∧
      entry.2.protoName = .text entry.1 ∧ entry.2.WellNamed := by
    intro entry hentry
    have hmem := (lastsBy_sublist _ _).subset ((collectEntries_perm properties).subset hentry)
    obtain ⟨q, hq, hschema⟩ := exists_of_mem_forall₂ hproperties.flip hmem
    obtain ⟨hkey, hname, hinner, -⟩ := parameterSchema_named hschema
    exact ⟨hkeys q hq _ hkey, hname, hinner (hwell q hq)⟩
  refine .of_properties (fun entry hentry => (hentries entry hentry).1) (fun entry hentry => ?_)
    fun entry hentry => (hentries entry hentry).2.2
  obtain ⟨hinitial, hname, -⟩ := hentries entry hentry
  exact hname ▸ namesWell_text hinitial

/-! ## Phases -/

section Phases

variable (hspec : good → env.spec.WellNamed) (hat : c.At [package]) (hc : c.Suited good)
include hspec hat hc

theorem compileDefinition_suits {entry : String × Schema} (hentry : entry ∈ env.spec.definitions)
    (h : compileDefinition env [package] entry c = .ok ((), c')) : c'.Suited good := by
  obtain ⟨name, s⟩ := entry
  obtain ⟨d, c₁, hd, rfl⟩ := compileDefinition_ok h
  have hroot : s ∈ env.spec.roots := Spec.definition_mem_roots hentry
  obtain ⟨hc₁, hsuited⟩ := compileSchema_suits (fun hgood => (hspec hgood).root hroot) _ _ _ _ _ _
    hat hc (fun hgood => ((hspec hgood).definitions _ hentry).pascal) hd
  exact hc₁.defining _ hsuited

theorem compileParameter_suits {entry : String × Parameter} (hentry : entry ∈ env.spec.parameters)
    (h : compileParameter env [package] entry c = .ok ((), c')) : c'.Suited good := by
  obtain ⟨name, q⟩ := entry
  obtain ⟨key, s, d, c₁, given, hs, hd, hgiven, rfl⟩ := compileParameter_given h
  obtain ⟨-, -, hwell, hlists⟩ := parameterSchema_named hs
  have hroot : q.described ∈ env.spec.roots := Spec.parameter_mem_roots hentry
  have hc₁ := (compileSchema_suits (fun hgood => hwell ((hspec hgood).root hroot)) _ _ _ _ _ _
    hat hc (fun hgood => (((hspec hgood).parameters _ hentry).mono hlists).pascal) hd).1
  refine hc₁.defining _ fun hgood => ?_
  obtain ⟨hsome, hname⟩ := (hspec hgood).shared _ hentry
  exact hname.word (hgiven hsome) hsome

section Operations

variable {path : String} {item : PathItem} {e : Endpoint} (hitem : (path, item) ∈ env.spec.paths)
  (he : e ∈ item.endpoints)
include hitem he

theorem compileRequest_suits (hname : good → HasInitial name.toList)
    (h : compileRequest env [package] name (item.parameters ++ e.parameters) c = .ok (t, c')) :
    c'.Suited good := by
  rcases hsome : (item.parameters ++ e.parameters).isEmpty with _ | _
  · obtain ⟨s, d, c₁, hs, hd, -, rfl⟩ := compileRequest_ok hsome h
    have hwell : good → s.WellNamed := fun hgood =>
      requestSchema_wellNamed ((hspec hgood).requests _ hitem e he)
        (fun q hq => (hspec hgood).root (described_mem_roots hitem he hq)) hs
    exact (compileSchema_suits hwell _ _ _ _ _ _ hat hc
      (fun hgood => .of_word (hname hgood) (by decide)) hd).1.declareHere _
  · obtain ⟨rfl, rfl⟩ := compileRequest_none hsome h
    exact hc

theorem compileResponse_suits (plain : IsPlain name) (hname : good → HasInitial name.toList)
    (h : compileResponse env [package] name e c = .ok (t, c')) : c'.Suited good := by
  rcases hs : responseSchema? e with _ | s
  · obtain ⟨rfl, rfl⟩ := compileResponse_none hs h
    exact hc
  · have hwell : good → s.WellNamed := fun hgood =>
      (hspec hgood).root (response_mem_roots hitem he hs)
    have hresponse : good → HasInitial (name ++ "Response").toList := fun hgood => by
      rw [String.toList_append]
      exact (hname hgood).append _
    rcases compileResponse_ok hs h with ⟨i, c₁, hi, ht, rfl⟩ | ⟨d, c₁, -, hd, rfl, rfl⟩
    · have hinner : good → i.WellNamed := fun hgood => by
        rcases arrayItems_cases hi with hitems | ⟨target, hroot, hitems⟩
        · exact (hwell hgood).items hitems
        · exact ((hspec hgood).root hroot).items hitems
      obtain ⟨d, c₂, hd, rfl, rfl⟩ := compileArrayResponse_ok ht
      have hc₂ := (compileSchema_suits hinner _ _ _ _ _ _ hat hc (fun hgood => ?_) hd).1
      · have hmessage : (Node.message (arrayMessage (name ++ "Response") d.unwrap)).Suited good :=
          .message ((plain.append (by decide)).suits hresponse) fun _ hf =>
            List.mem_singleton.1 hf ▸ items_suits
        exact ((hc₂.withNode hmessage).importing _).declareHere _
      · rw [String.append_assoc]
        exact .of_word (hname hgood) (by decide)
    · exact (compileSchema_suits hwell _ _ _ _ _ _ hat hc
        (fun hgood => .of_word (hname hgood) (by decide)) hd).1.declareHere _

theorem compileOperation_suits
    (h : compileOperation env [package] path item.parameters e c = .ok ((), c')) :
    c'.Suited good := by
  obtain ⟨identifier, summary, description, http, request, c₁, response, c₂, hidentifier, -, -,
    hrequest, hresponse, -, rfl⟩ := compileOperation_rpc h
  have hplain := endpointName_plain e.verb.word path identifier
  have hidentifies : good → IsIdentifier (endpointName e.verb.word path identifier) := by
    refine fun hgood => (isIdentifier_endpointName_iff _ _ _).2 ?_
    rcases hempty : identifier.isEmpty with _ | _
    · refine .inr (((hspec hgood).operations _ hitem e he).word hidentifier ?_)
      rwa [eq_text_of_wordText hidentifier]
    · exact .inl rfl
  have hname : good → HasInitial (endpointName e.verb.word path identifier).toList := fun hgood =>
    hplain.isIdentifier_iff.1 (hidentifies hgood)
  have hc₁ := compileRequest_suits hspec hat hc hitem he hname hrequest
  have hat₁ := (compileRequest_runs hrequest).at hat
  have hc₂ := compileResponse_suits hspec hat₁ hc₁ hitem he hplain hname hresponse
  exact hc₂.serving ⟨hplain.isWord, hidentifies⟩

end Operations

end Phases

theorem compileExtension_suits {e : Document.Extension} (hc : c.Suited good)
    (he : good → ∀ f ∈ e.fields, IsIdentifier f.name.display)
    (h : compileExtension e c = .ok ((), c')) : c'.Suited good := by
  obtain ⟨e', hnames, rfl⟩ := compileExtension_fields h
  refine (hc.importingAll _).extending fun hgood f hf => ?_
  have hmem : f.name ∈ e.fields.map (·.name.display) := hnames ▸ List.mem_map.2 ⟨f, hf, rfl⟩
  obtain ⟨given, hgiven, heq⟩ := List.mem_map.1 hmem
  exact heq ▸ he hgood given hgiven

/-- What single steps keep is kept by a row of them. -/
theorem suited_of_forM {α : Type} {f : α → CompileM Unit} {l : List α}
    (hbuilds : ∀ a c c', f a c = .ok ((), c') → Builds env package c c')
    (step : ∀ a ∈ l, ∀ c c', c.At [package] → c.Suited good → f a c = .ok ((), c') →
      c'.Suited good)
    (h : l.forM f c = .ok ((), c')) (hat : c.At [package]) (hc : c.Suited good) :
    c'.Suited good := by
  refine (forM_ok_induct (P := fun c' => c'.At [package] ∧ c'.Suited good)
    (fun a ha c₁ c₂ hstep hc₁ => ?_) h ⟨hat, hc⟩).2
  exact ⟨(hbuilds a c₁ c₂ hstep).at hc₁.1, step a ha c₁ c₂ hc₁.1 hc₁.2 hstep⟩

/-- A title with text gives the package and the service their names. -/
theorem startOf_suited (titled : (Text.strip env.spec.title).isEmpty = false)
    (htitle : good → Unnumbered env.spec.title.toList) : (startOf env).Suited good := by
  have hstart : startOf env = start (packageName env.spec.title) (serviceName env.spec.title)
      (sortEntries env.spec.globalOptions) := if_neg (by simp [titled])
  rw [hstart]
  refine ⟨fun id n hn => ?_, nofun⟩
  have hpackage : Suits good (packageName env.spec.title) :=
    ⟨packageName_isWord _, fun hgood => isIdentifier_packageName titled (htitle hgood)⟩
  have hservice : Suits good (serviceName env.spec.title) :=
    ⟨(serviceName_plain _).isWord, fun hgood => isIdentifier_serviceName (htitle hgood)⟩
  rcases start_node? hn with ⟨-, rfl⟩ | ⟨-, rfl⟩
  · exact ⟨fun _ hmem => List.mem_singleton.1 hmem ▸ hpackage, fun _ => nofun⟩
  · exact ⟨fun _ hmem => List.mem_singleton.1 hmem ▸ hservice, fun _ => nofun⟩

section All

variable (hspec : good → env.spec.WellNamed)
include hspec

theorem compilePaths_suits (hat : c.At [package]) (hc : c.Suited good)
    (h : compilePaths env [package] c = .ok ((), c')) : c'.Suited good := by
  rw [compilePaths_eq] at h
  refine suited_of_forM (fun _ _ _ => compilePathEntry_builds)
    (fun entry hentry c c' hat hc hstep => ?_) h hat hc
  obtain ⟨path, item⟩ := entry
  exact suited_of_forM (fun _ _ _ => compileOperation_builds)
    (fun e he _ _ hat hc =>
      compileOperation_suits hspec hat hc (mem_sortEntries.1 hentry) he)
    (compilePathEntry_ok hstep) hat hc

theorem compileNamed_suits (hc : (startOf env).Suited good)
    (h : compileNamed env (startOf env) = .ok ((), c)) : c.Suited good := by
  obtain ⟨c₀, hdefinitions, hparameters⟩ := compileNamed_states h
  rw [compileDefinitions_eq] at hdefinitions
  rw [compileParameters_eq] at hparameters
  have hat : (announced env).At [env.package] := (announced_builds env).at startOf_atRest
  have hannounced : (announced env).Suited good := by
    unfold announced
    split
    · exact hc.importFile _
    · exact hc
  have hat₀ : c₀.At [env.package] := (compileDefinitions_builds hdefinitions).at hat
  have hc₀ : c₀.Suited good := suited_of_forM (fun _ _ _ => compileDefinition_builds)
    (fun _ hentry _ _ hat hc => compileDefinition_suits hspec hat hc (mem_sortEntries.1 hentry))
    hdefinitions hat hannounced
  exact suited_of_forM (fun _ _ _ => compileParameter_builds)
    (fun _ hentry _ _ hat hc => compileParameter_suits hspec hat hc (mem_sortEntries.1 hentry))
    hparameters hat₀ hc₀

/-- All names that a compilation makes are suitable. -/
theorem compilePhases_suits (titled : (Text.strip env.spec.title).isEmpty = false)
    (h : compilePhases env (startOf env) = .ok ((), c)) : c.Suited good := by
  obtain ⟨c₀, c₁, c₂, hnamed, hresolve, hextensions, hpaths⟩ := compilePhases_states h
  have hresolved := resolveAll_ok hresolve
  have hc₀ := compileNamed_suits hspec (startOf_suited titled fun hgood => (hspec hgood).title) hnamed
  have hbuilt := compileNamed_builds hnamed
  have hat₁ : Compilation.At { c₁ with deferring := false } [env.package] := by
    have hrest : Compilation.AtRest { c₁ with deferring := false } :=
      ((hbuilt.atRest rfl startOf_atRest).resolved hresolved).deferring false
    rwa [Compilation.AtRest, show Compilation.package { c₁ with deferring := false } = env.package
      from hresolved.package_eq.trans (hbuilt.grows rfl).package] at hrest
  have hc₁ : Compilation.Suited good { c₁ with deferring := false } :=
    ⟨(hc₀.resolved hresolved).graph, (hc₀.resolved hresolved).definitions⟩
  have hextends : ∀ e c c', compileExtension e c = .ok ((), c') →
      Builds env env.package c c' := fun _ _ _ => compileExtension_builds
  have hc₂ : c₂.Suited good := suited_of_forM hextends
    (fun e he _ _ _ hc => compileExtension_suits hc fun hgood => (hspec hgood).extensions e he)
    hextensions hat₁ hc₁
  split at hpaths
  · exact hpaths ▸ hc₂
  · have hat₂ : c₂.At [env.package] :=
      (Builds.of_forM (fun _ _ _ => hextends _ _ _) hextensions).at hat₁
    exact compilePaths_suits hspec hat₂ hc₂ hpaths

end All

/-! ## Packages -/

variable {options : Options} {spec : Spec} {o : Output}

/-- A package has its name from a title with text. -/
theorem exists_package_of_compile (titled : (Text.strip spec.title).isEmpty = false)
    (h : compile options spec = .ok o) :
    ∃ p, o.graph.package? o.package = some p ∧ p.name = packageName spec.title := by
  obtain ⟨c₀, c₁, c₂, hcompiled, rfl⟩ := compile_ok h
  have hstart : startOf ⟨options, spec⟩ = start (packageName spec.title) (serviceName spec.title)
      (sortEntries spec.globalOptions) := if_neg (by simp [titled])
  have hpackage : (startOf ⟨options, spec⟩).graph.node? (startOf ⟨options, spec⟩).package = some
      (.package ⟨packageName spec.title, [], sortEntries spec.globalOptions, [.node 1]⟩) := by
    rw [hstart]
    rfl
  obtain ⟨n₀, hn₀, hname₀⟩ := (hcompiled.start_builds.grows rfl).nodes.keepsNames _ _ hpackage
  obtain ⟨n₁, hn₁, hname₁⟩ := hcompiled.resolved.graph.keepsNames _ _ hn₀
  obtain ⟨p₁, hp₁⟩ := hcompiled.resolved_closed.package
  obtain ⟨p, hp, hname, -⟩ := hcompiled.grows.nodes.package?_of_some hp₁
  have hsame : c₂.package = c₁.package := hcompiled.grows.package
  have hp : c₂.graph.node? c₁.package = some (.package p) := hp
  have heq : (startOf ⟨options, spec⟩).package = c₁.package :=
    (hcompiled.resolved_package_eq.trans hcompiled.package_eq).symm
  rw [heq] at hn₁
  obtain rfl := Option.some.inj (hn₁.symm.trans hp₁)
  refine ⟨p, ?_, hname.trans (Option.some.inj (hname₁.trans hname₀))⟩
  show c₂.graph.package? c₂.package = some p
  rw [hsame, Graph.package?, hp]

/-- The names in a package are made of letters, digits and underscores, and are identifiers if they
are not empty and start with no digit. With good names in the description, all of them are. -/
theorem names_of_compile (titled : (Text.strip spec.title).isEmpty = false)
    (h : compile options spec = .ok o) :
    (∃ p, o.graph.package? o.package = some p ∧ p.name = packageName spec.title ∧
      (IsIdentifier p.name ↔ ∃ a, firstMark? spec.title = some a ∧ a.isDigit = false)) ∧
    (∀ id n, o.graph.node? id = some n → ∀ name ∈ n.names, IsWord name ∧
      (IsIdentifier name ↔ name.toList.head?.map Char.isDigit = some false)) ∧
    (spec.WellNamed → ∀ id n, o.graph.node? id = some n → ∀ name ∈ n.names ++ n.givenNames,
      IsIdentifier name) := by
  obtain ⟨p, hp, hname⟩ := exists_package_of_compile titled h
  obtain ⟨c, hrun, rfl⟩ := compile_ok_iff.1 h
  obtain ⟨hphases, -⟩ := compileAll_ok_iff.1 hrun
  have hsuited : c.Suited spec.WellNamed := by
    refine compilePhases_suits ?_ ?_ hphases
    · exact id
    · exact titled
  refine ⟨⟨p, hp, hname, hname ▸ isIdentifier_packageName_iff spec.title⟩, ?_, ?_⟩
  · intro id n hn name hmem
    have hword := ((hsuited.graph id n hn).names name hmem).word
    exact ⟨hword, hword.isIdentifier_iff⟩
  · intro hgood id n hn name hmem
    rcases List.mem_append.1 hmem with hmem | hmem
    · exact ((hsuited.graph id n hn).names name hmem).identifier hgood
    · exact (hsuited.graph id n hn).given hgood name hmem

/-- A store for pets. -/
def titledPets : Spec := { petsByColour with title := "Pet Store" }

theorem titledPets_wellNamed : titledPets.WellNamed where
  title := by decide
  schemas := by decide
  definitions := by decide
  parameters := by decide
  shared := by decide
  operations := by decide
  requests := by decide
  extensions := by decide

theorem names_of_compile_titledPets : ∃ o,
    compile ⟨false, false, false, false, "pets"⟩ titledPets = .ok o ∧
    (Text.strip titledPets.title).isEmpty = false ∧ titledPets.WellNamed ∧
    o.graph.nodes.toList.flatMap Node.names =
      ["petstore", "PetStoreService", "Find", "Pet", "name", "FindRequest", "colour"] ∧
    (∃ p, o.graph.package? o.package = some p ∧ IsIdentifier p.name) ∧
    ∀ id n, o.graph.node? id = some n → ∀ name ∈ n.names ++ n.givenNames, IsIdentifier name := by
  obtain ⟨c, hcompile, hnames⟩ := compile_of_compilesTo
    (show compilesTo ⟨false, false, false, false, "pets"⟩ titledPets (fun c =>
      decide (c.graph.nodes.toList.flatMap Node.names =
        ["petstore", "PetStoreService", "Find", "Pet", "name", "FindRequest", "colour"])) = true by
      decide +kernel)
  have titled : (Text.strip titledPets.title).isEmpty = false := by decide
  obtain ⟨⟨p, hp, -, hpackage⟩, -, hall⟩ := names_of_compile titled hcompile
  exact ⟨_, hcompile, titled, titledPets_wellNamed, of_decide_eq_true hnames,
    ⟨p, hp, hpackage.2 ⟨'P', by decide, by decide⟩⟩, hall titledPets_wellNamed⟩

/-- Models in which each name starts with a digit. -/
def numberedModels : Spec := { Spec.ofDefinitions [("2D", .object [("1st", .scalar "string")])] with
  title := "3D Models"
  paths := [("/m", .single [] (.taking .get "3dView" []))] }

/-- A digit that comes first in a name of the description stays there. -/
theorem numbered_names_numberedModels : ∃ o,
    compile ⟨false, false, false, false, "pet"⟩ numberedModels = .ok o ∧
    (∃ a ∈ numberedModels.title.toList, a.isAlpha = true) ∧
    o.graph.children o.package = [.node 1, .node 2] ∧
    (o.graph.package? o.package).map (·.name) = some "3dmodels" ∧
    (o.graph.service? 1).map (fun s => (s.name, s.rpcs.map (·.name))) =
      some ("3DModelsService", ["3dView"]) ∧
    (o.graph.message? 2).map (fun m => (m.name, m.fields.map (·.name))) = some ("2D", ["1st"]) ∧
    ∀ name ∈ ["3dmodels", "3DModelsService", "3dView", "2D", "1st"], ¬ IsIdentifier name := by
  obtain ⟨c, hcompile, htest⟩ := compile_of_compilesTo
    (show compilesTo ⟨false, false, false, false, "pet"⟩ numberedModels (fun c =>
      decide (c.graph.children c.package = [.node 1, .node 2] ∧
        (c.graph.package? c.package).map (·.name) = some "3dmodels" ∧
        (c.graph.service? 1).map (fun s => (s.name, s.rpcs.map (·.name))) =
          some ("3DModelsService", ["3dView"]) ∧
        (c.graph.message? 2).map (fun m => (m.name, m.fields.map (·.name))) =
          some ("2D", ["1st"]))) = true by decide +kernel)
  obtain ⟨hchildren, hpackage, hservice, hmessage⟩ := of_decide_eq_true htest
  exact ⟨_, hcompile, ⟨'D', by decide, by decide⟩, hchildren, hpackage, hservice, hmessage,
    by decide⟩

end ApiProto.Compile
