import ApiProto.Proofs.OperationTranslation
import ApiProto.Proofs.ResolutionTranslation
import ApiProto.Proofs.SharedParameters

/-!
# Packages in the other version

All phases go in lockstep in both versions. What is left at the end of a successful compilation has
no references that can be reached, and nothing that is printed spells out one.

* `Spec.Silent` — a parameter of which the type is named in the same way in both versions.
* `compileAll_mirrors` — descriptions in both versions are compiled in lockstep.
* `Graph.print_translated` — packages without references are printed in the same way.
* `print_compile_eq_of_translates` — descriptions in both versions give the same text.
-/

namespace ApiProto.Document

open Proto

/-- A parameter of which the type spells out no reference: given in place, of a well-known type, or
a reference to a shared parameter of that kind. -/
inductive Spec.Silent (spec : Spec) : Parameter → Prop
  | inline {p : Parameter} : p.ref.isEmpty = true → (∀ key, (p.property key).spells = false) →
      spec.Silent p
  | wellKnown {p : Parameter} {ref : String} : p.ref = .text ref →
      isWellKnown (.text ref) = true → spec.Silent p
  | shared {p : Parameter} {name : String} : p.ref = .text (spec.parametersPrefix ++ name) →
      (∀ q, (name, q) ∈ spec.parameters → spec.Silent q) → spec.Silent p

/-- A shared parameter without a name is named after its type, so this has to be silent. -/
def Spec.NamesSilently (spec : Spec) : Prop :=
  ∀ entry ∈ spec.parameters, entry.2.name.isEmpty = true → spec.Silent entry.2

end ApiProto.Document

namespace ApiProto.Compile

open Proto Document CompileM

variable {env env' : Environment} {scope : Scope} {c c' : Compilation}

/-! ## States -/

theorem Compilation.Ready.defining (hc : c.Ready scope) (ref : String) (d : Definition) :
    (c.defining ref d).Ready scope := by
  have hgrows : c.Grows [] (c.defining ref d) := defining_grows ref d
  refine hc.of_grows hgrows (fun entry hentry => .inl ?_) fun entry hentry => .inl ?_
  all_goals
    unfold Compilation.defining at hentry
    split at hentry <;> exact hentry

theorem Compilation.Ready.importFile (hc : c.Ready scope) (file : String) :
    (c.importFile file).Ready scope :=
  hc.of_changesGraph (.importFile hc.package file) ⟨_, rfl⟩

/-- Resolution leaves a state ready. -/
theorem Compilation.Ready.resolved (hc : c.Ready scope) (h : c.Resolved c') : c'.Ready scope where
  package := by
    rw [show c'.package = c.package from congrArg Registry.package h.registry]
    exact hc.package
  containers x hx := by
    rcases hc.containers x hx with ⟨p, hn⟩ | ⟨m, hn⟩ <;>
      obtain ⟨n', hn', hresolved⟩ := h.graph.nodes x _ hn <;> cases hresolved
    · exact .inl ⟨_, hn'⟩
    · exact .inr ⟨_, hn'⟩
    · exact .inr ⟨_, hn'⟩
  log entry hentry :=
    h.graph.isDeclared_iff.2 (hc.log entry (h.registry ▸ hentry))
  wrappers entry hentry :=
    h.graph.isDeclared_iff.2 (hc.wrappers entry (h.wrappers ▸ hentry))

theorem startOf_ready (env : Environment) : (startOf env).Ready [(startOf env).package] := by
  obtain ⟨packageName, serviceName, options, heq⟩ := startOf_is_start env
  rw [heq]
  refine ⟨List.mem_singleton.2 rfl, fun x hx => ?_, nofun, nofun⟩
  obtain rfl := List.mem_singleton.1 hx
  exact .inl ⟨_, rfl⟩

/-- There are no references at the start. -/
theorem startOf_translated (h : env.Translates env') : startOf env' = (startOf env).translated := by
  have hsame : startOf env' = startOf env := by
    simp only [startOf, h.options, h.spec.title, h.spec.globalOptions]
  rw [hsame]
  obtain ⟨packageName, serviceName, options, heq⟩ := startOf_is_start env
  rw [heq]
  simp [start, Compilation.translated, Graph.translated, Graph.mapNodes, Graph.add, Graph.empty,
    Node.translated]

/-! ## Named schemas -/

theorem sortEntries_map {α β : Type} (f : α → β) (l : List (String × α)) :
    sortEntries (l.map fun entry => (entry.1, f entry.2)) =
      (sortEntries l).map fun entry => (entry.1, f entry.2) :=
  sortBy_map (fun _ _ => rfl) l

theorem compileDefinition_ready {entry : String × Schema} (hc : c.Ready scope)
    (h : compileDefinition env scope entry c = .ok ((), c')) : c'.Ready scope := by
  obtain ⟨d, c₁, hd, rfl⟩ := compileDefinition_ok h
  exact ((compileSchema_runs env _ _ _ _ _ _ _ hd).ready hc).defining _ d

theorem compileDefinitions_mirrors (h : env.Translates env') (hspec : env.spec.Portable)
    (hc : c.Ready scope) :
    Mirrors id c (compileDefinitions env scope) (compileDefinitions env' scope) := by
  rw [compileDefinitions_eq, compileDefinitions_eq, h.spec.definitions,
    show env.spec.definitions.map translateEntry = env.spec.definitions.map fun entry =>
      (entry.1, entry.2.translated) from rfl, sortEntries_map]
  have hpairs : List.Forall₂ (fun entry entry' => entry' = translateEntry entry)
      (sortEntries env.spec.definitions)
      ((sortEntries env.spec.definitions).map translateEntry) := by
    rw [List.forall₂_map_right_iff, List.forall₂_same]
    exact fun _ _ => rfl
  refine .forM hpairs (fun _ _ _ _ hc hstep => compileDefinition_ready hc hstep) ?_ hc
  rintro ⟨name, s⟩ hmem _ rfl c hc
  have hportable := hspec.definitions _ (mem_sortEntries.1 hmem)
  unfold compileDefinition
  dsimp only [translateEntry]
  rw [s.description_translated, ← translateRef_append h.spec.definitionsPrefix]
  refine (Mirrors.within _ _ ((compileSchema_mirrors h.sameNames s hportable).whole _ _ _ c hc)).bind
    fun d _ _ => ?_
  exact .define _ d

/-! ## Shared parameters -/

/-- The definitions of shared parameters that are silent have silent types. -/
def Compilation.SharesSilently (spec : Spec) (c : Compilation) : Prop :=
  ∀ name d, (spec.parametersPrefix ++ name, d) ∈ c.definitions →
    (∀ p, (name, p) ∈ spec.parameters → spec.Silent p) → c.graph.Silent d.unwrap

theorem Compilation.SharesSilently.of_runs {spec : Spec} (h : c.SharesSilently spec)
    {ts : List TypeRef} (hruns : Runs env scope c ts c') (hc : c.Ready scope) :
    c'.SharesSilently spec := fun name d hmem hsilent =>
  (h name d (hruns.definitions_eq ▸ hmem) hsilent).of_grows (hruns.grows hc.package).nodes

/-- The type of a silent parameter is silent. -/
theorem compileSchema_silent_of_parameter {p : Parameter} (hp : env.spec.Silent p)
    (hspec : env.spec.SharesApart) (hshares : c.SharesSilently env.spec) (hc : c.Ready scope)
    {key : String} {s : Schema} (hs : parameterSchema p c = .ok ((key, s), c)) {rawName : String}
    {comment : Value} {d : Definition}
    (h : compileSchema env s scope rawName comment c = .ok (d, c')) : c'.graph.Silent d.unwrap := by
  obtain ⟨-, ⟨href, ref, hkey, hdefined, rfl⟩ | ⟨href, -, -, -, rfl⟩⟩ := parameterSchema_cases hs
  · cases hp with
    | inline hempty => cases href.symm.trans hempty
    | wellKnown htext hknown =>
      rw [htext] at href hkey
      obtain rfl := Except.ok.inj hkey
      exact compileReferenceValue_silent hknown (compileSchema_reference href h)
    | @shared _ name htext hsilent =>
      rw [htext] at href hkey
      obtain rfl := Except.ok.inj hkey
      obtain ⟨d', hd'⟩ := Option.isSome_iff_exists.1 hdefined
      have hcompiled : compileReference (env.spec.parametersPrefix ++ name) c = .ok (d, c') :=
        compileSchema_reference href h
      rcases compileReference_ok hcompiled with ⟨hd, rfl⟩ | ⟨hnone, -⟩
      · refine hshares name d ?_ hsilent
        rw [Compilation.definition?, hspec.known] at hd
        obtain ⟨before, after, heq, -⟩ := List.lookup_eq_some_iff.1 hd
        simp [heq]
      · cases hnone.symm.trans hd'
  · cases hp with
    | inline _ hspells => exact compileSchema_silent env _ (hspells key) _ _ _ _ _ _ hc h
    | wellKnown htext hknown =>
      have hempty : Proto.knownDefinition? "" = none := by decide +kernel
      rw [htext] at href
      obtain rfl : _ = "" := by simpa [Value.isEmpty] using href
      simp [isWellKnown, hempty] at hknown
    | shared htext =>
      rw [htext] at href
      simp [Value.isEmpty, hspec.nonempty] at href

theorem Compilation.SharesSilently.defining {spec : Spec} (h : c.SharesSilently spec) {ref : String}
    {d : Definition} (hnew : ∀ name, ref = spec.parametersPrefix ++ name →
      (∀ p, (name, p) ∈ spec.parameters → spec.Silent p) → c.graph.Silent d.unwrap) :
    (c.defining ref d).SharesSilently spec := by
  have hgraph : (c.defining ref d).graph = c.graph := by
    unfold Compilation.defining
    split <;> rfl
  intro name d' hmem hsilent
  rw [hgraph]
  rcases mem_defining hmem with hold | ⟨heq, -⟩
  · exact h name d' hold hsilent
  · obtain ⟨rfl, rfl⟩ := Prod.mk.inj heq
    exact hnew name rfl hsilent

/-- A state between shared parameters. -/
structure Compilation.Sharing (spec : Spec) (scope : Scope) (c : Compilation) : Prop where
  ready : c.Ready scope
  silent : c.SharesSilently spec

theorem compileDefinition_sharing (hspec : env.spec.SharesApart) {entry : String × Schema}
    (hc : c.Sharing env.spec scope)
    (h : compileDefinition env scope entry c = .ok ((), c')) : c'.Sharing env.spec scope := by
  refine ⟨compileDefinition_ready hc.ready h, ?_⟩
  obtain ⟨d, c₁, hd, rfl⟩ := compileDefinition_ok h
  refine (hc.silent.of_runs (compileSchema_runs env _ _ _ _ _ _ _ hd) hc.ready).defining ?_
  exact fun name heq => absurd heq (hspec.named _ _)

theorem compileParameter_sharing (hspec : env.spec.SharesApart) {entry : String × Parameter}
    (hentry : entry ∈ env.spec.parameters) (hc : c.Sharing env.spec scope)
    (h : compileParameter env scope entry c = .ok ((), c')) : c'.Sharing env.spec scope := by
  obtain ⟨key, s, d, c₁, given, hs, hd, rfl⟩ := compileParameter_ok h
  have hruns := compileSchema_runs env s _ _ _ _ _ _ hd
  refine ⟨(hruns.ready hc.ready).defining _ _, (hc.silent.of_runs hruns hc.ready).defining ?_⟩
  intro name heq hsilent
  obtain rfl := (String.append_right_inj _).1 heq
  have htype := compileSchema_silent_of_parameter (hsilent _ hentry) hspec hc.silent hc.ready hs hd
  exact htype

/-- Shared parameters are compiled in lockstep, if those without names are silent. -/
theorem compileParameter_mirrors (h : env.Translates env') (hspec : env.spec.SharesApart)
    (hnames : env.spec.NamesSilently) (hc : c.Sharing env.spec scope) {entry entry' : String × Parameter}
    (hentry : entry ∈ env.spec.parameters) (hportable : entry.2.Portable)
    (hp : entry.1 = entry'.1 ∧ entry.2.SharedTranslates entry'.2) :
    Mirrors id c (compileParameter env scope entry) (compileParameter env' scope entry') := by
  obtain ⟨name, p⟩ := entry
  obtain ⟨name', p'⟩ := entry'
  obtain ⟨rfl, hp⟩ := hp
  dsimp only at hp hportable
  unfold compileParameter
  dsimp only
  rw [hp.name, hp.tag, hp.isArray, ← translateRef_append h.spec.parametersPrefix]
  have hschema : Mirrors id c
      (do
        let entry ← parameterSchema p
        compileSchema env entry.2 scope (Name.pascal name) entry.2.description)
      (do
        let entry ← parameterSchema p'
        compileSchema env' entry.2 scope (Name.pascal name) entry.2.description) := by
    refine (parameterSchema_mirrors hp.toTranslates).bind fun entry c₁ hs => ?_
    obtain rfl := parameterSchema_ok hs
    obtain ⟨key, s⟩ := entry
    dsimp only [translateEntry]
    rw [s.description_translated]
    exact (compileSchema_mirrors h.sameNames s (parameterSchema_portable hportable hs)).whole
      _ _ _ c hc.ready
  refine (hschema.within _ _).bind fun d c₁ hd => ?_
  obtain ⟨⟨key, s⟩, _, hs, hd⟩ := bind_ok_iff.1 (within_ok_iff.1 hd)
  obtain rfl := parameterSchema_ok hs
  refine .ite .rfl (fun hempty => ?_) fun _ => ?_
  · have hsilent := compileSchema_silent_of_parameter (hnames _ hentry hempty) hspec hc.silent
      hc.ready hs hd
    exact .nameOf_bind hsilent.not_utters (.define _ _)
  · exact (Mirrors.result _).bind fun _ _ _ => .define _ _

theorem compileParameters_mirrors (h : env.Translates env') (hspec : env.spec.SharesApart)
    (hportable : env.spec.Portable) (hnames : env.spec.NamesSilently)
    (hc : c.Sharing env.spec scope) :
    Mirrors id c (compileParameters env scope) (compileParameters env' scope) := by
  rw [compileParameters_eq, compileParameters_eq]
  refine .forM (P := Compilation.Sharing env.spec scope) h.spec.parameters.sortEntries.forall₂
    (fun entry hmem c c' hc hstep => ?_) (fun entry hmem entry' hp c hc => ?_) hc
  · exact compileParameter_sharing hspec (mem_sortEntries.1 hmem) hc hstep
  · have hentry := mem_sortEntries.1 hmem
    exact compileParameter_mirrors h hspec hnames hc hentry (hportable.parameters _ hentry) hp

/-! ## Extensions and operations -/

theorem compileExtension_ready {e : Document.Extension} (hc : c.Ready scope)
    (h : compileExtension e c = .ok ((), c')) : c'.Ready scope := by
  obtain ⟨e', rfl⟩ := compileExtension_ok h
  have himports := importingAll_grows hc.package (e'.fields.map (·.type) ++ [e'.base])
  have hready := hc.of_changesGraph himports (.importingAll c _)
  exact hready.of_changesGraph (extending_grows hready.package e') (.extending _ e')

theorem compileExtension_mirrors (e : Document.Extension) :
    Mirrors id c (compileExtension e) (compileExtension e) := by
  have hfields : List.Forall₂ Eq e.fields e.fields := List.forall₂_same.2 fun _ _ => rfl
  refine .bind (k := List.map id) (.mapM (P := fun _ => True) hfields
    (fun _ _ _ _ _ _ _ => trivial) (fun f _ f' hf c _ => ?_) trivial) fun fields c₁ _ => ?_
  · obtain rfl := hf
    refine (Mirrors.result _).bind fun type _ _ => ?_
    exact .addImportFor_bind _ (.pure rfl)
  · rw [List.map_id]
    refine (Mirrors.result _).bind fun base _ _ => .addImportFor_bind _ ?_
    refine .newNode_bind (.extension _) (.of_ok rfl ?_)
    refine congrArg (fun g => Except.ok ((), { Compilation.translated _ with graph := g })) ?_
    exact Graph.addChild_mapNodes _ Node.relabelled_translated _ _

theorem compilePathEntry_ready {entry : String × PathItem} (hc : c.Ready scope)
    (h : compilePathEntry env scope entry c = .ok ((), c')) : c'.Ready scope :=
  forM_ok_induct (fun _ _ _ _ hstep hc => compileOperation_ready hc hstep)
    (compilePathEntry_ok h) hc

theorem compilePaths_mirrors (h : env.Translates env') (hportable : env.spec.Portable)
    (hc : c.Ready scope) :
    Mirrors id c (compilePaths env scope) (compilePaths env' scope) := by
  rw [compilePaths_eq, compilePaths_eq]
  refine .forM h.spec.paths.sortEntries.forall₂
    (fun _ _ _ _ hc hstep => compilePathEntry_ready hc hstep) ?_ hc
  rintro ⟨path, item⟩ hmem ⟨path', item'⟩ ⟨rfl, hitem⟩ c hc
  have hentry := mem_sortEntries.1 hmem
  exact .within _ _ (compilePath_mirrors h hportable hc path hitem (hportable.shared _ hentry)
    (hportable.endpoints _ hentry))

theorem checkResolved_mirrors : Mirrors id c checkResolved checkResolved := by
  have hpending : ∀ n : Node, n.translated.pending = n.pending.map translateRef := by
    intro n
    cases n <;> rfl
  have hdangling : dangling c.translated.graph c.translated.package =
      (dangling c.graph c.package).map translateRef :=
    Graph.dangling_mapNodes c.graph Node.relabelled_translated hpending c.package
  constructor
  · intro a c₁ h
    unfold checkResolved at h ⊢
    rw [hdangling]
    split at h
    · next hnone =>
      obtain ⟨rfl, rfl⟩ := Prod.mk.inj (Except.ok.inj h)
      rw [hnone]
      rfl
    · cases h
  · intro e h
    unfold checkResolved at h ⊢
    rw [hdangling]
    split at h
    · cases h
    · next hsome =>
      rw [hsome]
      exact ⟨_, rfl⟩

/-! ## All phases -/

/-- Imports of the package are the same in both versions. -/
theorem addImport_mirrors (file : String) : Mirrors id c (addImport file) (addImport file) :=
  have hadd := Graph.addImport_mapNodes c.graph Node.relabelled_translated c.package file
  .of_ok rfl (congrArg (fun g => Except.ok ((), ({ c.translated with graph := g } : Compilation)))
    hadd)

theorem compileNamed_mirrors (h : env.Translates env') (hspec : env.spec.SharesApart)
    (hportable : env.spec.Portable) (hnames : env.spec.NamesSilently)
    (hc : c.Sharing env.spec [c.package]) :
    Mirrors id c (compileNamed env) (compileNamed env') := by
  have hdeclared : ∀ c₁, c₁.Sharing env.spec [c.package] →
      Mirrors id c₁ (compileDeclared env [c.package]) (compileDeclared env' [c.package]) := by
    intro c₁ hc₁
    refine (Mirrors.within _ _ (compileDefinitions_mirrors h hportable hc₁.ready)).bind
      fun _ c₂ hdefinitions => .within _ _ ?_
    refine compileParameters_mirrors h hspec hportable hnames ?_
    refine forM_ok_induct (P := Compilation.Sharing env.spec [c.package]) (fun _ _ _ _ hstep hc => ?_)
      (within_ok_iff.1 hdefinitions) hc₁
    exact compileDefinition_sharing hspec hc hstep
  unfold compileNamed
  refine .read ?_
  rw [h.options]
  refine .ite .rfl (fun _ => ?_) fun _ => hdeclared c hc
  refine (addImport_mirrors _).bind fun _ c₁ himport => ?_
  obtain rfl := (Prod.mk.inj (Except.ok.inj himport)).2
  have hgrows : c.Grows [c.package] (c.importFile "google/api/annotations.proto") :=
    .importFile hc.ready.package _
  exact hdeclared _ ⟨hc.ready.importFile _, fun name d hmem hsilent =>
    (hc.silent name d hmem hsilent).of_grows hgrows.nodes⟩

theorem compileNamed_ready (hc : c.Ready [c.package]) (h : compileNamed env c = .ok ((), c')) :
    c'.Ready [c.package] :=
  compileNamed_induct (P := Compilation.Ready [c.package]) (fun file hc => hc.importFile file)
    (fun ref d hc hruns => (hruns.ready hc).defining ref d) h rfl hc

theorem compilePhases_mirrors (h : env.Translates env') (hspec : env.spec.SharesApart)
    (hportable : env.spec.Portable) (hnames : env.spec.NamesSilently)
    (hc : c.Sharing env.spec [c.package]) :
    Mirrors id c (compilePhases env) (compilePhases env') := by
  unfold compilePhases
  refine .read ((compileNamed_mirrors h hspec hportable hnames hc).bind fun _ c₁ hnamed => ?_)
  refine (resolveAll_mirrors.within _ _).bind fun _ c₂ hresolve => ?_
  have hc₂ := (compileNamed_ready hc.ready hnamed).resolved (resolveAll_ok (within_ok_iff.1 hresolve))
  refine .modify_bind ?_ ?_
  · rfl
  have hready : Compilation.Ready [c.package] { c₂ with deferring := false } := { hc₂ with }
  have hextensions : List.Forall₂ Eq env.spec.extensions env.spec.extensions :=
    List.forall₂_same.2 fun _ _ => rfl
  rw [h.spec.extensions, h.options]
  refine .bind (k := id) (.forM (P := Compilation.Ready [c.package]) hextensions
    (fun _ _ _ _ hc hstep => compileExtension_ready hc hstep) ?_ hready) fun _ c₃ hrun => ?_
  · rintro e - _ rfl c -
    exact compileExtension_mirrors e
  · have hc₃ := forM_ok_induct (P := Compilation.Ready [c.package])
      (fun _ _ _ _ hstep hc => compileExtension_ready hc hstep) hrun hready
    exact .ite .rfl (fun _ => .within _ _ (compilePaths_mirrors h hportable hc₃)) fun _ => .pure rfl

/-- Descriptions in both versions are compiled in lockstep. -/
theorem compileAll_mirrors (h : env.Translates env') (hspec : env.spec.SharesApart)
    (hportable : env.spec.Portable) (hnames : env.spec.NamesSilently) :
    Mirrors id (startOf env) (compileAll env) (compileAll env') := by
  have hstart : (startOf env).Sharing env.spec [(startOf env).package] := by
    refine ⟨startOf_ready env, ?_⟩
    obtain ⟨packageName, serviceName, options, heq⟩ := startOf_is_start env
    rw [heq]
    exact nofun
  rw [compileAll_eq, compileAll_eq]
  exact (compilePhases_mirrors h hspec hportable hnames hstart).bind fun _ _ _ => checkResolved_mirrors

end ApiProto.Compile

namespace ApiProto.Proto

open Document

/-! ## Texts -/

variable {g : Graph} {package : Nat} {t : TypeRef}

/-- From a type that spells out a reference, the reference can be reached. -/
theorem Graph.Utters.reachable (h : g.Utters t) (ht : g.Reachable package t) :
    ∃ t', g.Reachable package t' ∧ g.IsReference t' := by
  induction h with
  | reference hn => exact ⟨_, ht, _, _, rfl, hn⟩
  | key hn _ ih => exact ih (ht.mention hn (by simp [Node.mentions]))
  | value hn _ ih => exact ih (ht.mention hn (by simp [Node.mentions]))

theorem mapM_option_congr {α β : Type} {f f' : α → Option β} {l : List α}
    (h : ∀ a ∈ l, f a = f' a) : l.mapM f = l.mapM f' := by
  induction l with
  | nil => rfl
  | cons a rest ih =>
    rw [List.mapM_cons, List.mapM_cons, h a (List.mem_cons_self ..),
      ih fun b hb => h b (List.mem_cons_of_mem _ hb)]

section Complete

variable (hcomplete : ∀ t, g.Reachable package t → ¬ g.IsReference t)
include hcomplete

namespace Graph

theorem typeName_translated_of_reachable (ht : g.Reachable package t) :
    g.translated.typeName t = g.typeName t :=
  typeName_translated fun hutters =>
    have ⟨t', ht', href⟩ := hutters.reachable ht
    hcomplete t' ht' href

theorem declarationWithin?_translated (depth : Nat) (ht : g.Reachable package t) :
    g.translated.declarationWithin? depth t = g.declarationWithin? depth t := by
  induction depth generalizing t with
  | zero => rfl
  | succ depth ih =>
    have hname : ∀ {t}, g.Reachable package t → g.translated.typeName t = g.typeName t :=
      typeName_translated_of_reachable hcomplete
    have hkind : g.translated.kindName t = g.kindName t :=
      kindName_mapNodes g Node.relabelled_translated t
    cases t with
    | builtin b => rw [declarationWithin?, declarationWithin?, hname ht, hkind]
    | node id =>
      simp only [declarationWithin?, node?_translated, hname ht, hkind]
      rcases hn : g.node? id with _ | n
      · rfl
      · cases n with
        | message m =>
          have hchildren : m.children.mapM (fun c => g.translated.declarationWithin? depth c) =
              m.children.mapM fun c => g.declarationWithin? depth c :=
            mapM_option_congr fun c hc => ih (ht.mention hn (List.mem_append_left _ hc))
          have hfields : m.fields.map g.translated.namedField = m.fields.map g.namedField := by
            refine List.map_congr_left fun f hf => ?_
            rw [namedField, namedField, hname (Graph.Uses.field ht hn hf).reachable]
          simp only [Option.map_some, Node.translated, hchildren, hfields]
        | service s =>
          have hrpcs : s.rpcs.map g.translated.namedRpc = s.rpcs.map g.namedRpc := by
            refine List.map_congr_left fun rpc hrpc => ?_
            rw [namedRpc, namedRpc, hname (Graph.Uses.request ht hn hrpc).reachable,
              hname (Graph.Uses.response ht hn hrpc).reachable]
          simp only [Option.map_some, Node.translated, hrpcs]
        | _ => rfl

/-- A package from which no reference can be reached is the same file in both versions. -/
theorem file?_translated : g.translated.file? package = g.file? package := by
  have hpackage : g.translated.package? package = g.package? package :=
    package?_mapNodes g Node.relabelled_translated package
  rw [file?, file?, hpackage]
  unfold package?
  rcases hn : g.node? package with _ | n
  · rfl
  · cases n with
    | package p =>
      have hchildren : p.children.mapM g.translated.declaration? = p.children.mapM g.declaration? := by
        refine mapM_option_congr fun t ht => ?_
        rw [declaration?, declaration?, translated, size_mapNodes]
        refine declarationWithin?_translated hcomplete _ (.child ?_)
        rwa [children, hn]
      simp only [Option.bind_eq_bind, Option.bind_some, hchildren]
    | _ => rfl

end Graph

end Complete

end ApiProto.Proto

namespace ApiProto.Compile

open Proto Document

/-- The contents of a compiled package. -/
def Output.file? (o : Output) : Option (File Value) := o.graph.file? o.package

theorem Output.print_eq_file? (indent : String) (o : Output) :
    o.print indent = match o.file? with
      | some f => f.withTexts.bind (File.print indent)
      | none => fail .endless := rfl

theorem compile_error {options : Options} {spec : Spec} {e : Error}
    (h : compileAll ⟨options, spec⟩ (startOf ⟨options, spec⟩) = .error e) :
    compile options spec = .error e := by
  show ((compileAll ⟨options, spec⟩).run (startOf ⟨options, spec⟩) >>= _) = _
  rw [StateT.run, h]
  rfl

/-- Descriptions in both versions of the format give the same package, or both fail. -/
theorem file?_compile_of_translates (options : Options) {spec spec' : Spec}
    (h : spec.Translates spec') (hspec : spec.SharesApart) (hportable : spec.Portable)
    (hnames : spec.NamesSilently) :
    (compile options spec').toOption.map Output.file? =
      (compile options spec).toOption.map Output.file? := by
  have henv : Environment.Translates ⟨options, spec⟩ ⟨options, spec'⟩ := ⟨rfl, h⟩
  have hmirrors := compileAll_mirrors henv hspec hportable hnames
  rcases hrun : compileAll ⟨options, spec⟩ (startOf ⟨options, spec⟩) with e | ⟨_, c⟩
  · obtain ⟨e', hrun'⟩ := hmirrors.error e hrun
    rw [← startOf_translated henv] at hrun'
    rw [compile_error hrun, compile_error hrun']
    rfl
  · have hrun' := hmirrors.ok _ _ hrun
    rw [← startOf_translated henv] at hrun'
    rw [compile_ok_iff.2 ⟨c, hrun, rfl⟩, compile_ok_iff.2 ⟨c.translated, hrun', rfl⟩]
    have hcomplete := dangling_eq_nil_iff.1 (compileAll_ok_iff.1 hrun).2
    exact congrArg some (Graph.file?_translated hcomplete)

/-- Packages with the same contents are printed in the same way. -/
theorem print_eq_of_file?_eq {r r' : Except Error Output}
    (h : r'.toOption.map Output.file? = r.toOption.map Output.file?) (indent : String) :
    (r'.bind (Output.print indent)).toOption = (r.bind (Output.print indent)).toOption := by
  rcases r with e | o <;> rcases r' with e' | o'
  · rfl
  · cases h
  · cases h
  · have hfile : o'.file? = o.file? := Option.some.inj h
    show (o'.print indent).toOption = (o.print indent).toOption
    rw [o.print_eq_file?, o'.print_eq_file?, hfile]

end ApiProto.Compile
