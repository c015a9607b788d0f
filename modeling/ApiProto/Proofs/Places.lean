import ApiProto.Document.Build
import ApiProto.Proofs.Reachable
import ApiProto.Proofs.SchemaFits

/-!
# Schemas in their places

The schemas that are compiled in the package itself: those of named schemas and shared parameters,
of requests and of responses. All other schemas are inside of these.

* `Place` — the places of schemas in a description.
* `Compiles` — the schema of a place, the state in which it is compiled, and what comes out.
* `exists_compiles` — a successful compilation compiles the schema of every place.
* `Compiles.fits` — what comes out fits the schema in the package that results.
-/

namespace ApiProto.Compile

open Proto Document CompileM

/-! ## One item after the other -/

section Items

variable {α : Type} {f : α → CompileM Unit} {l : List α} {c c' : Compilation}

/-- Doing a step for each item of a list, from a state on, comes to an item in another state. -/
def ComesTo (f : α → CompileM Unit) (l : List α) (c : Compilation) (a : α) (c₁ : Compilation) :
    Prop :=
  ∃ before after : List α, l = before ++ a :: after ∧ before.forM f c = .ok ((), c₁)

theorem forM_ok_append {l' : List α} :
    (l ++ l').forM f c = .ok ((), c') ↔
      ∃ c₁, l.forM f c = .ok ((), c₁) ∧ l'.forM f c₁ = .ok ((), c') := by
  induction l generalizing c with
  | nil => simp
  | cons a l ih =>
    simp only [List.cons_append, forM_ok_cons, ih]
    constructor
    · rintro ⟨c₁, hfirst, c₂, hl, hl'⟩
      exact ⟨c₂, ⟨c₁, hfirst, hl⟩, hl'⟩
    · rintro ⟨c₂, ⟨c₁, hfirst, hl⟩, hl'⟩
      exact ⟨c₁, hfirst, c₂, hl, hl'⟩

/-- Every item has its turn. -/
theorem exists_comesTo (h : l.forM f c = .ok ((), c')) {a : α} (ha : a ∈ l) :
    ∃ c₁ c₂, ComesTo f l c a c₁ ∧ f a c₁ = .ok ((), c₂) := by
  obtain ⟨before, after, rfl⟩ := List.append_of_mem ha
  obtain ⟨c₁, hbefore, hrest⟩ := forM_ok_append.1 h
  obtain ⟨c₂, hstep, -⟩ := forM_ok_cons.1 hrest
  exact ⟨c₁, c₂, ⟨before, after, rfl, hbefore⟩, hstep⟩

/-- An item has its turn, and then the others follow. -/
theorem ComesTo.rest {a : α} {c₁ : Compilation} (ha : ComesTo f l c a c₁)
    (h : l.forM f c = .ok ((), c')) :
    ∃ c₂, ∃ after : List α, f a c₁ = .ok ((), c₂) ∧ after.forM f c₂ = .ok ((), c') := by
  obtain ⟨before, after, rfl, hbefore⟩ := ha
  obtain ⟨c₃, hbefore', hrest⟩ := forM_ok_append.1 h
  obtain ⟨-, rfl⟩ := Prod.mk.inj (Except.ok.inj (hbefore.symm.trans hbefore'))
  obtain ⟨c₂, hstep, hafter⟩ := forM_ok_cons.1 hrest
  exact ⟨c₂, after, hstep, hafter⟩

/-- What holds of the items that have had their turn and of the state after them holds in the end of
all items. -/
theorem forM_ok_prefix {P : List α → Compilation → Prop} (h : l.forM f c = .ok ((), c'))
    (start : P [] c)
    (step : ∀ before a c₁ c₂, ComesTo f l c a c₁ → f a c₁ = .ok ((), c₂) → P before c₁ →
      P (before ++ [a]) c₂) : P l c' := by
  have hrest : ∀ rest before c₁, l = before ++ rest → before.forM f c = .ok ((), c₁) →
      P before c₁ → rest.forM f c₁ = .ok ((), c') → P l c' := by
    intro rest
    induction rest with
    | nil =>
      rintro before c₁ rfl - hbefore hnil
      obtain rfl := forM_ok_nil.1 hnil
      rwa [List.append_nil]
    | cons a rest ih =>
      intro before c₁ heq hrun hbefore hcons
      obtain ⟨c₂, hstep, hrest⟩ := forM_ok_cons.1 hcons
      refine ih (before ++ [a]) c₂ (by simp [heq]) ?_
        (step before a c₁ c₂ ⟨before, rest, heq, hrun⟩ hstep hbefore) hrest
      exact forM_ok_append.2 ⟨c₁, hrun, forM_ok_cons.2 ⟨c₂, hstep, forM_ok_nil.2 rfl⟩⟩
  exact hrest l [] c rfl (forM_ok_nil.2 rfl) start h

variable {env : Environment} {package : Nat}

theorem ComesTo.builds {a : α} {c₁ : Compilation}
    (step : ∀ a c c', f a c = .ok ((), c') → Builds env package c c') (ha : ComesTo f l c a c₁) :
    Builds env package c c₁ := by
  obtain ⟨before, after, -, hbefore⟩ := ha
  exact Builds.of_forM step hbefore

theorem ComesTo.rest_builds {a : α} {c₁ : Compilation}
    (step : ∀ a c c', f a c = .ok ((), c') → Builds env package c c') (ha : ComesTo f l c a c₁)
    (h : l.forM f c = .ok ((), c')) :
    ∃ c₂, f a c₁ = .ok ((), c₂) ∧ Builds env package c₂ c' := by
  obtain ⟨c₂, after, hstep, hafter⟩ := ha.rest h
  exact ⟨c₂, hstep, Builds.of_forM step hafter⟩

end Items

/-! ## Places -/

/-- The package of a compilation. -/
def Environment.package (env : Environment) : Nat := (startOf env).package

/-- The state in which nothing has been compiled yet. -/
def announced (env : Environment) : Compilation :=
  if env.options.annotate then (startOf env).importFile "google/api/annotations.proto"
  else startOf env

/-- The state in which a compilation comes to its paths. -/
def ReachesPaths (env : Environment) (c : Compilation) : Prop :=
  ∃ c₀ c₁, compileNamed env (startOf env) = .ok ((), c₀) ∧ resolveAll c₀ = .ok ((), c₁) ∧
    env.spec.extensions.forM compileExtension { c₁ with deferring := false } = .ok ((), c)

/-- The state in which a compilation comes to an operation. -/
def ReachesOperation (env : Environment) (path : String) (item : PathItem) (e : Endpoint)
    (c : Compilation) : Prop :=
  env.options.skipRpcs = false ∧ ∃ c₀ c₁, ReachesPaths env c₀ ∧
    ComesTo (compilePathEntry env [env.package]) (sortEntries env.spec.paths) c₀ (path, item) c₁ ∧
    ComesTo (compileOperation env [env.package] path item.parameters) item.endpoints c₁ e c

/-- A place of a schema that is compiled in the package itself. -/
inductive Place where
  | definition (name : String) (s : Schema)
  | parameter (name : String) (p : Parameter)
  | request (path : String) (item : PathItem) (e : Endpoint)
  | response (path : String) (item : PathItem) (e : Endpoint)

/-- The places in a description. -/
def Place.In (env : Environment) : Place → Prop
  | .definition name s => (name, s) ∈ env.spec.definitions
  | .parameter name p => (name, p) ∈ env.spec.parameters
  | .request path item e => env.options.skipRpcs = false ∧ (path, item) ∈ env.spec.paths ∧
      e ∈ item.endpoints ∧ (item.parameters ++ e.parameters).isEmpty = false
  | .response path item e => env.options.skipRpcs = false ∧ (path, item) ∈ env.spec.paths ∧
      e ∈ item.endpoints ∧ (responseSchema? e).isSome = true

/-- The schema that is compiled in the package for a place, the name under which it is compiled, the
state before, what comes out, and the state after. -/
inductive Compiles (env : Environment) :
    Place → String → Schema → Compilation → Definition → Compilation → Prop
  | definition {name : String} {s : Schema} {c c' : Compilation} {d : Definition} :
      ComesTo (compileDefinition env [env.package]) (sortEntries env.spec.definitions)
        (announced env) (name, s) c →
      compileSchema env s [env.package] (Name.pascal name) s.description c = .ok (d, c') →
      Compiles env (.definition name s) (Name.pascal name) s c d c'
  | parameter {name key : String} {p : Parameter} {s : Schema} {c₀ c c' : Compilation}
      {d : Definition} :
      compileDefinitions env [env.package] (announced env) = .ok ((), c₀) →
      ComesTo (compileParameter env [env.package]) (sortEntries env.spec.parameters) c₀ (name, p) c →
      parameterSchema p c = .ok ((key, s), c) →
      compileSchema env s [env.package] (Name.pascal name) s.description c = .ok (d, c') →
      Compiles env (.parameter name p) (Name.pascal name) s c d c'
  | request {path identifier : String} {item : PathItem} {e : Endpoint} {s : Schema}
      {c c' : Compilation} {d : Definition} :
      ReachesOperation env path item e c → e.operationId.wordText = .ok identifier →
      (item.parameters ++ e.parameters).isEmpty = false →
      requestSchema (item.parameters ++ e.parameters) c = .ok (s, c) →
      compileSchema env s [env.package]
        (Name.endpointName e.verb.word path identifier ++ "Request") (.text "") c = .ok (d, c') →
      Compiles env (.request path item e)
        (Name.endpointName e.verb.word path identifier ++ "Request") s c d c'
  | response {path identifier : String} {item : PathItem} {e : Endpoint} {s : Schema}
      {request : TypeRef} {c₀ c c' : Compilation} {d : Definition} :
      ReachesOperation env path item e c₀ → e.operationId.wordText = .ok identifier →
      compileRequest env [env.package] (Name.endpointName e.verb.word path identifier)
        (item.parameters ++ e.parameters) c₀ = .ok (request, c) →
      responseSchema? e = some s → arrayItems env.spec s = .ok none →
      compileSchema env s [env.package]
        (Name.endpointName e.verb.word path identifier ++ "Response") s.description c =
          .ok (d, c') →
      Compiles env (.response path item e)
        (Name.endpointName e.verb.word path identifier ++ "Response") s c d c'
  /-- A response that is an array: the schema of its items. -/
  | responseItems {path identifier : String} {item : PathItem} {e : Endpoint} {s items : Schema}
      {request : TypeRef} {c₀ c c' : Compilation} {d : Definition} :
      ReachesOperation env path item e c₀ → e.operationId.wordText = .ok identifier →
      compileRequest env [env.package] (Name.endpointName e.verb.word path identifier)
        (item.parameters ++ e.parameters) c₀ = .ok (request, c) →
      responseSchema? e = some s → arrayItems env.spec s = .ok (some items) →
      compileSchema env items [env.package]
        (Name.endpointName e.verb.word path identifier ++ "Response" ++ "Item") (.text "") c =
          .ok (d, c') →
      Compiles env (.response path item e)
        (Name.endpointName e.verb.word path identifier ++ "Response" ++ "Item") items c d c'

/-! ## Ways through a compilation -/

section Ways

variable {env : Environment} {c c' c₂ : Compilation}

theorem announced_builds (env : Environment) :
    Builds env env.package (startOf env) (announced env) := by
  unfold announced
  split
  · exact .importFile _ .refl
  · exact .refl

theorem compileNamed_states (h : compileNamed env (startOf env) = .ok ((), c')) :
    ∃ c, compileDefinitions env [env.package] (announced env) = .ok ((), c) ∧
      compileParameters env [env.package] c = .ok ((), c') := by
  have hdeclared : compileDeclared env [env.package] (announced env) = .ok ((), c') := by
    unfold compileNamed at h
    rw [get_bind] at h
    unfold announced
    split at h
    · next hannotate =>
      rw [if_pos hannotate]
      exact h
    · next hannotate =>
      rw [if_neg hannotate]
      exact h
  obtain ⟨_, c, hdefinitions, hparameters⟩ := bind_ok_iff.1 hdeclared
  exact ⟨c, within_ok_iff.1 hdefinitions, within_ok_iff.1 hparameters⟩

/-- From the state in which references are resolved, all that follows is built. -/
theorem ReachesPaths.builds (h : ReachesPaths env c) : ∃ c₀ c₁,
    compileNamed env (startOf env) = .ok ((), c₀) ∧ resolveAll c₀ = .ok ((), c₁) ∧
      Builds env env.package { c₁ with deferring := false } c := by
  obtain ⟨c₀, c₁, hnamed, hresolve, hextensions⟩ := h
  exact ⟨c₀, c₁, hnamed, hresolve, Builds.of_forM (fun _ _ _ => compileExtension_builds) hextensions⟩

/-- A successful compilation, seen from a state in which it comes to its paths. -/
theorem ReachesPaths.rest (h : ReachesPaths env c)
    (hrun : compilePhases env (startOf env) = .ok ((), c')) :
    if env.options.skipRpcs then c' = c
    else compilePaths env [env.package] c = .ok ((), c') := by
  obtain ⟨c₀, c₁, hnamed, hresolve, hextensions⟩ := h
  obtain ⟨c₀', c₁', c₂', hnamed', hresolve', hextensions', hpaths⟩ := compilePhases_states hrun
  obtain ⟨-, rfl⟩ := Prod.mk.inj (Except.ok.inj (hnamed.symm.trans hnamed'))
  obtain ⟨-, rfl⟩ := Prod.mk.inj (Except.ok.inj (hresolve.symm.trans hresolve'))
  obtain ⟨-, rfl⟩ := Prod.mk.inj (Except.ok.inj (hextensions.symm.trans hextensions'))
  exact hpaths

theorem ReachesOperation.builds {path : String} {item : PathItem} {e : Endpoint}
    (h : ReachesOperation env path item e c) : ∃ c₀ c₁,
    compileNamed env (startOf env) = .ok ((), c₀) ∧ resolveAll c₀ = .ok ((), c₁) ∧
      Builds env env.package { c₁ with deferring := false } c := by
  obtain ⟨-, c₂, c₃, hpaths, hentry, hoperation⟩ := h
  obtain ⟨c₀, c₁, hnamed, hresolve, hbuilds⟩ := hpaths.builds
  refine ⟨c₀, c₁, hnamed, hresolve, hbuilds.trans ?_⟩
  exact (hentry.builds fun _ _ _ => compilePathEntry_builds).trans
    (hoperation.builds fun _ _ _ => compileOperation_builds)

theorem ReachesOperation.rest {path : String} {item : PathItem} {e : Endpoint}
    (h : ReachesOperation env path item e c)
    (hrun : compilePhases env (startOf env) = .ok ((), c')) :
    ∃ c₁, compileOperation env [env.package] path item.parameters e c = .ok ((), c₁) ∧
      Builds env env.package c₁ c' := by
  obtain ⟨hskip, c₂, c₃, hpaths, hentry, hoperation⟩ := h
  have hrest := hpaths.rest hrun
  rw [if_neg (by simp [hskip]), compilePaths_eq] at hrest
  obtain ⟨c₄, hitem, hothers⟩ := hentry.rest_builds (fun _ _ _ => compilePathEntry_builds) hrest
  obtain ⟨c₁, hstep, hafter⟩ := hoperation.rest_builds (fun _ _ _ => compileOperation_builds)
    (compilePathEntry_ok hitem)
  exact ⟨c₁, hstep, hafter.trans hothers⟩

theorem ReachesPaths.exists_operation (hpaths : ReachesPaths env c)
    (hrun : compilePhases env (startOf env) = .ok ((), c')) (hskip : env.options.skipRpcs = false)
    {path : String} {item : PathItem} (hentry : (path, item) ∈ env.spec.paths) {e : Endpoint}
    (he : e ∈ item.endpoints) : ∃ c₁, ReachesOperation env path item e c₁ := by
  have hrest := hpaths.rest hrun
  rw [if_neg (by simp [hskip]), compilePaths_eq] at hrest
  obtain ⟨c₁, c₂, hcomes, hstep⟩ := exists_comesTo hrest (mem_sortEntries.2 hentry)
  obtain ⟨c₃, c₄, hcomes', -⟩ := exists_comesTo (compilePathEntry_ok hstep) he
  exact ⟨c₃, hskip, c, c₁, hpaths, hcomes, hcomes'⟩

/-- A successful compilation compiles the schema of every place. -/
theorem exists_compiles (hrun : compilePhases env (startOf env) = .ok ((), c')) {place : Place}
    (hplace : place.In env) : ∃ name s c d c₁, Compiles env place name s c d c₁ := by
  obtain ⟨c₀, c₁, c₂, hnamed, hresolve, hextensions, -⟩ := compilePhases_states hrun
  obtain ⟨c₃, hdefinitions, hparameters⟩ := compileNamed_states hnamed
  have hpaths : ReachesPaths env c₂ := ⟨c₀, c₁, hnamed, hresolve, hextensions⟩
  cases place with
  | definition name s =>
    rw [compileDefinitions_eq] at hdefinitions
    obtain ⟨c, c', hcomes, hstep⟩ := exists_comesTo hdefinitions (mem_sortEntries.2 hplace)
    obtain ⟨d, c₁, hd, -⟩ := compileDefinition_ok hstep
    exact ⟨_, _, _, _, _, .definition hcomes hd⟩
  | parameter name p =>
    rw [compileParameters_eq] at hparameters
    obtain ⟨c, c', hcomes, hstep⟩ := exists_comesTo hparameters (mem_sortEntries.2 hplace)
    obtain ⟨key, s, d, c₁, _, hs, hd, -⟩ := compileParameter_ok hstep
    exact ⟨_, _, _, _, _, .parameter hdefinitions hcomes hs hd⟩
  | request path item e =>
    obtain ⟨hskip, hentry, he, hsome⟩ := hplace
    obtain ⟨c, hreaches⟩ := hpaths.exists_operation hrun hskip hentry he
    obtain ⟨c₄, hoperation, -⟩ := hreaches.rest hrun
    obtain ⟨identifier, request, c₅, _, _, _, hid, hrequest, -⟩ := compileOperation_ok hoperation
    obtain ⟨s, d, c₆, hs, hd, -⟩ := compileRequest_ok hsome hrequest
    exact ⟨_, _, _, _, _, .request hreaches hid hsome hs hd⟩
  | response path item e =>
    obtain ⟨hskip, hentry, he, hsome⟩ := hplace
    obtain ⟨s, hs⟩ := Option.isSome_iff_exists.1 hsome
    obtain ⟨c, hreaches⟩ := hpaths.exists_operation hrun hskip hentry he
    obtain ⟨c₄, hoperation, -⟩ := hreaches.rest hrun
    obtain ⟨identifier, request, c₅, response, c₆, _, hid, hrequest, hresponse, -⟩ :=
      compileOperation_ok hoperation
    rcases compileResponse_ok hs hresponse with ⟨items, c₇, hitems, ht, -⟩ | ⟨d, c₇, hitems, hd, -⟩
    · obtain ⟨d, c₈, hd, -⟩ := compileArrayResponse_ok ht
      exact ⟨_, _, _, _, _, .responseItems hreaches hid hrequest hs hitems hd⟩
    · exact ⟨_, _, _, _, _, .response hreaches hid hrequest hs hitems hd⟩

end Ways

/-! ## States on the way -/

/-- The nodes that stay open from the start of a compilation to its end. -/
def Environment.opened (env : Environment) : List Nat := [env.package, (startOf env).service]

/-- A state on the way of a compilation, in which nothing is being compiled. -/
structure Underway (env : Environment) (c : Compilation) : Prop where
  closed : c.Closed
  package : c.package = env.package
  service : c.service = (startOf env).service
  old : (startOf env).service < c.graph.size

namespace Underway

variable {env : Environment} {c c' : Compilation}

theorem start (env : Environment) : Underway env (startOf env) := by
  obtain ⟨packageName, serviceName, options, heq⟩ := startOf_is_start env
  have hclosed : (startOf env).Closed := by
    rw [heq]
    exact start_closed packageName serviceName options
  refine ⟨hclosed, rfl, rfl, ?_⟩
  rw [heq]
  exact Nat.lt_succ_self 1

variable (h : Underway env c)
include h

theorem of_grows {opened : List Nat} (hgrows : c.Grows opened c') (hclosed : c'.Closed) :
    Underway env c' :=
  ⟨hclosed, hgrows.package.trans h.package, hgrows.service.trans h.service,
    Nat.lt_of_lt_of_le h.old hgrows.size_le⟩

theorem opened_eq : [env.package, c.service] = env.opened := by
  rw [h.service, Environment.opened]

theorem builds_grows (hbuilds : Builds env env.package c c') : c.Grows env.opened c' :=
  h.opened_eq ▸ hbuilds.grows h.package

theorem builds (hbuilds : Builds env env.package c c') : Underway env c' :=
  h.of_grows (h.builds_grows hbuilds) (hbuilds.closed h.package h.closed)

theorem runs_grows {ts : List TypeRef} (hruns : Runs env [env.package] c ts c') :
    c.Grows env.opened c' :=
  (hruns.grows (by simp [h.package])).mono (by simp [Environment.opened])

theorem runs {ts : List TypeRef} (hruns : Runs env [env.package] c ts c') : Underway env c' :=
  h.of_grows (h.runs_grows hruns) (hruns.closed (by simp [h.package]) h.closed).1

theorem resolved (hres : c.Resolved c') : Underway env { c' with deferring := false } := by
  have hclosed := h.closed.resolved hres
  exact ⟨⟨hclosed.mentions, hclosed.definitions, hclosed.wrappers, hclosed.log, hclosed.package⟩,
    (congrArg Registry.package hres.registry).trans h.package, hres.service.trans h.service,
    hres.graph.size ▸ h.old⟩

theorem opening : Opening env.opened [env.package] c where
  closed := h.closed
  package := by simp [h.package]
  scope := by simp [Environment.opened]
  old x hx := by
    obtain ⟨p, hp⟩ := h.closed.package
    rw [h.package] at hp
    rcases List.mem_cons.1 hx with rfl | hx
    · exact Graph.lt_size_of_node? hp
    · rw [List.mem_singleton.1 hx]
      exact h.old

end Underway

section Settled

variable {env : Environment} {opened : List Nat} {c c₀ c₁ c₂ : Compilation}

theorem settles_of_grown (hgrows : c.Grows opened c₂) : c.graph.Settles opened c₂.graph :=
  settles_of_grows hgrows ⟨fun _ n hn _ => ⟨n, hn, .same n⟩, fun _ n hn => ⟨n, hn, rfl⟩⟩

/-- What is complete when references are resolved stands in the end. -/
theorem settles_of_resolved (hres : c₀.Resolved c₁)
    (hgrows : Compilation.Grows opened { c₁ with deferring := false } c₂) :
    c₀.graph.Settles opened c₂.graph where
  complete id n hn hid := by
    obtain ⟨n', hn', hresolved⟩ := hres.graph.nodes id n hn
    have hreference : ∀ {t}, c₀.graph.IsReference t → c₂.graph.IsReference t := by
      intro t ht
      obtain ⟨k, ref, rfl, hk⟩ := hres.graph.isReference_iff.2 ht
      obtain ⟨n₂, hn₂, hgrow⟩ := hgrows.nodes k _ hk
      cases hgrow
      exact ⟨k, ref, rfl, hn₂⟩
    refine ⟨n', hgrows.closed id n' hn' hid, ?_⟩
    cases hresolved with
    | same => exact .same _
    | message hname hchildren hcomment hlength hfields =>
      refine .message hname hchildren hcomment hlength fun i f hf => ?_
      obtain ⟨f', hf', t, heq, ht⟩ := hfields i f hf
      exact ⟨f', hf', t, heq, ht.imp_right fun href => ⟨hreference href.1, trivial⟩⟩
    | map hvalue => exact .map (hvalue.imp_right fun href => ⟨hreference href.1, trivial⟩)
  maps id n hn := by
    obtain ⟨n', hn', hresolved⟩ := hres.graph.nodes id n hn
    obtain ⟨n'', hn'', hgrow⟩ := hgrows.nodes id n' hn'
    refine ⟨n'', hn'', hgrow.isMap_eq.trans ?_⟩
    cases hresolved <;> rfl

/-- A compilation goes on from a state to another one: by what is added, and perhaps by resolving
references in between. -/
inductive Compilation.Continues (opened : List Nat) (c c₂ : Compilation) : Prop
  | grown : c.Grows opened c₂ → Compilation.Continues opened c c₂
  | resolved {c₀ c₁ : Compilation} : c.Grows opened c₀ → c₀.Resolved c₁ →
      Compilation.Grows opened { c₁ with deferring := false } c₂ →
      Compilation.Continues opened c c₂

namespace Compilation.Continues

variable {c' : Compilation}

theorem of_grows (hgrows : c.Grows opened c') (h : c'.Continues opened c₂) :
    c.Continues opened c₂ := by
  cases h with
  | grown hgrows' => exact .grown (hgrows.trans hgrows')
  | resolved hgrows' hres hlast => exact .resolved (hgrows.trans hgrows') hres hlast

theorem settles (h : c.Continues opened c₂) : c.graph.Settles opened c₂.graph := by
  cases h with
  | grown hgrows => exact settles_of_grown hgrows
  | resolved hgrows hres hlast => exact settles_of_grows hgrows (settles_of_resolved hres hlast)

theorem wrappers (h : c.Continues opened c₂) : c.wrappers <+: c₂.wrappers := by
  cases h with
  | grown hgrows => exact hgrows.wrappers
  | resolved hgrows hres hlast =>
    exact (hgrows.wrappers.trans (hres.wrappers ▸ List.prefix_rfl)).trans hlast.wrappers

end Compilation.Continues

end Settled

/-! ## What comes out -/

section Outcome

variable {env : Environment} {c c' c₁ c₂ : Compilation}

/-- After what has been compiled before references are resolved, a compilation goes on to its end. -/
theorem continues_of_named {c₀ : Compilation} (h : Underway env c)
    (hbuilds : Builds env env.package c c₀) (hnamed : compileNamed env (startOf env) = .ok ((), c₀))
    (hrun : compilePhases env (startOf env) = .ok ((), c₂)) : c.Continues env.opened c₂ := by
  obtain ⟨c₀', c₁, hnamed', hresolve, hrest⟩ := compilePhases_ok hrun
  obtain ⟨-, rfl⟩ := Prod.mk.inj (Except.ok.inj (hnamed.symm.trans hnamed'))
  have hresolved := resolveAll_ok hresolve
  have hgrows := (((Underway.start env).builds (compileNamed_builds hnamed)).resolved
    hresolved).builds_grows hrest
  exact .resolved (h.builds_grows hbuilds) hresolved hgrows

theorem ReachesOperation.underway {path : String} {item : PathItem} {e : Endpoint}
    (h : ReachesOperation env path item e c) : Underway env c := by
  obtain ⟨c₀, c₁, hnamed, hresolve, hbuilds⟩ := h.builds
  have hstart := (Underway.start env).builds (compileNamed_builds hnamed)
  exact (hstart.resolved (resolveAll_ok hresolve)).builds hbuilds

/-- The state in which a compilation comes to an operation grows into the end. -/
theorem ReachesOperation.grows_end {path : String} {item : PathItem} {e : Endpoint}
    (h : ReachesOperation env path item e c)
    (hrun : compilePhases env (startOf env) = .ok ((), c₂)) : c.Grows env.opened c₂ := by
  obtain ⟨c₁, hoperation, hbuilds⟩ := h.rest hrun
  exact h.underway.builds_grows ((compileOperation_builds hoperation).trans hbuilds)

/-- The state after a request grows into the state after the response, and that into the end. -/
theorem ReachesOperation.grows {path identifier : String} {item : PathItem} {e : Endpoint}
    (h : ReachesOperation env path item e c) (hrun : compilePhases env (startOf env) = .ok ((), c₂))
    (hid : e.operationId.wordText = .ok identifier) {request : TypeRef}
    (hrequest : compileRequest env [env.package] (Name.endpointName e.verb.word path identifier)
      (item.parameters ++ e.parameters) c = .ok (request, c₁)) :
    Underway env c₁ ∧ ∃ response c₃,
      compileResponse env [env.package] (Name.endpointName e.verb.word path identifier) e c₁ =
        .ok (response, c₃) ∧ c₁.Grows env.opened c₃ ∧ c₃.Grows env.opened c₂ := by
  obtain ⟨c₄, hoperation, hbuilds⟩ := h.rest hrun
  obtain ⟨identifier', request', c₁', response, c₃, rpc, hid', hrequest', hresponse, -, -, rfl⟩ :=
    compileOperation_ok hoperation
  obtain rfl := Except.ok.inj (hid.symm.trans hid')
  obtain ⟨-, rfl⟩ := Prod.mk.inj (Except.ok.inj (hrequest.symm.trans hrequest'))
  have h₁ := h.underway.runs (compileRequest_runs hrequest)
  have hruns := compileResponse_runs (Name.endpointName_plain _ _ _) hresponse
  have h₃ := h₁.runs hruns
  have hserving : c₃.Grows env.opened (c₃.serving rpc) :=
    serving_grows (by simp [h₃.package, Environment.opened])
      (by simp [h₃.service, Environment.opened]) rpc
  have hclosed := (compileOperation_builds hoperation).closed h.underway.package h.underway.closed
  exact ⟨h₁, response, c₃, hresponse, h₁.runs_grows hruns,
    hserving.trans ((h₃.of_grows hserving hclosed).builds_grows hbuilds)⟩

theorem declareHere_grows_opened (c : Compilation) (t : TypeRef) :
    c.Grows env.opened (c.declareHere [env.package] t) :=
  .declareHere (by simp [Environment.opened]) t

/-- The message of a response that is an array grows around the type of its items. -/
theorem arrayMessage_grows (h : Underway env c) (typeName : String) (t : TypeRef) :
    c.Grows env.opened ((c.withNode (.message (arrayMessage typeName t))).importing
      ((c.withNode (.message (arrayMessage typeName t))).graph.typeName t)) := by
  refine (Compilation.Grows.withNode c _).trans (.importing ?_ _)
  show c.package ∈ env.opened
  simp [h.package, Environment.opened]

/-- The state in which the schema of a place is compiled is on the way, and after it the compilation
goes on to its end. -/
theorem Compiles.continues {place : Place} {name : String} {s : Schema} {d : Definition}
    (h : Compiles env place name s c d c') (hrun : compilePhases env (startOf env) = .ok ((), c₂)) :
    Underway env c ∧ c'.Continues env.opened c₂ := by
  have hstart := (Underway.start env).builds (announced_builds env)
  obtain ⟨c₀, _, hnamed, -⟩ := compilePhases_ok hrun
  obtain ⟨c₃, hdefinitions, hparameters⟩ := compileNamed_states hnamed
  have hafter : ∀ {c' : Compilation}, Underway env c' → Builds env env.package c' c₀ →
      c'.Continues env.opened c₂ := fun h hbuilds => continues_of_named h hbuilds hnamed hrun
  cases h with
  | definition hcomes hd =>
    have hbefore := hstart.builds (hcomes.builds fun _ _ _ => compileDefinition_builds)
    obtain ⟨c₄, hstep, hrest⟩ := hcomes.rest_builds (fun _ _ _ => compileDefinition_builds)
      (compileDefinitions_eq env _ ▸ hdefinitions)
    obtain ⟨d', c₅, hd', rfl⟩ := compileDefinition_ok hstep
    obtain ⟨rfl, rfl⟩ := Prod.mk.inj (Except.ok.inj (hd.symm.trans hd'))
    have hdefined := hafter (hbefore.builds (compileDefinition_builds hstep))
      (hrest.trans (compileParameters_builds hparameters))
    exact ⟨hbefore, .of_grows (defining_grows _ d) hdefined⟩
  | @parameter _ _ _ _ c₃' _ _ _ hdefinitions' hcomes hs hd =>
    obtain ⟨-, rfl⟩ := Prod.mk.inj (Except.ok.inj (hdefinitions.symm.trans hdefinitions'))
    have hbefore := (hstart.builds (compileDefinitions_builds hdefinitions)).builds
      (hcomes.builds fun _ _ _ => compileParameter_builds)
    obtain ⟨c₄, hstep, hrest⟩ := hcomes.rest_builds (fun _ _ _ => compileParameter_builds)
      (compileParameters_eq env _ ▸ hparameters)
    obtain ⟨key', s', d', c₅, fieldName, hs', hd', rfl⟩ := compileParameter_ok hstep
    obtain ⟨heq, -⟩ := Prod.mk.inj (Except.ok.inj (hs.symm.trans hs'))
    obtain ⟨-, rfl⟩ := Prod.mk.inj heq
    obtain ⟨rfl, rfl⟩ := Prod.mk.inj (Except.ok.inj (hd.symm.trans hd'))
    have hdefined := hafter (hbefore.builds (compileParameter_builds hstep)) hrest
    exact ⟨hbefore, .of_grows (defining_grows _ _) hdefined⟩
  | request hreaches hid hsome hs hd =>
    refine ⟨hreaches.underway, ?_⟩
    obtain ⟨c₄, hoperation, -⟩ := hreaches.rest hrun
    obtain ⟨_, request, c₅, _, _, _, hid', hrequest, -⟩ := compileOperation_ok hoperation
    obtain rfl := Except.ok.inj (hid.symm.trans hid')
    obtain ⟨s', d', c₆, hs', hd', -, rfl⟩ := compileRequest_ok hsome hrequest
    obtain ⟨rfl, -⟩ := Prod.mk.inj (Except.ok.inj (hs.symm.trans hs'))
    obtain ⟨rfl, rfl⟩ := Prod.mk.inj (Except.ok.inj (hd.symm.trans hd'))
    obtain ⟨-, _, _, -, hfirst, hlast⟩ := hreaches.grows hrun hid hrequest
    exact .grown ((declareHere_grows_opened _ _).trans (hfirst.trans hlast))
  | response hreaches hid hrequest hresponse hitems hd =>
    obtain ⟨hunderway, t, c₃, ht, -, hlast⟩ := hreaches.grows hrun hid hrequest
    refine ⟨hunderway, ?_⟩
    rcases compileResponse_ok hresponse ht with ⟨_, _, hitems', -⟩ | ⟨d', c₅, -, hd', -, rfl⟩
    · cases hitems.symm.trans hitems'
    · obtain ⟨rfl, rfl⟩ := Prod.mk.inj (Except.ok.inj (hd.symm.trans hd'))
      exact .grown ((declareHere_grows_opened _ _).trans hlast)
  | responseItems hreaches hid hrequest hresponse hitems hd =>
    obtain ⟨hunderway, t, c₃, ht, -, hlast⟩ := hreaches.grows hrun hid hrequest
    refine ⟨hunderway, ?_⟩
    rcases compileResponse_ok hresponse ht with ⟨items', c₅, hitems', ht', rfl⟩ | ⟨_, _, hitems', -⟩
    · obtain rfl := Option.some.inj (Except.ok.inj (hitems.symm.trans hitems'))
      obtain ⟨d', c₆, hd', rfl, rfl⟩ := compileArrayResponse_ok ht'
      obtain ⟨rfl, rfl⟩ := Prod.mk.inj (Except.ok.inj (hd.symm.trans hd'))
      have hschema := hunderway.runs (compileSchema_runs env s _ _ _ _ _ _ hd)
      exact .grown ((arrayMessage_grows hschema _ _).trans
        ((declareHere_grows_opened _ _).trans hlast))
    · cases hitems.symm.trans hitems'

/-- What stands after the schema of a place has been compiled stands in the end. -/
theorem Compiles.settles {place : Place} {name : String} {s : Schema} {d : Definition}
    (h : Compiles env place name s c d c') (hrun : compilePhases env (startOf env) = .ok ((), c₂)) :
    Underway env c ∧ c'.graph.Settles env.opened c₂.graph :=
  (h.continues hrun).imp_right (·.settles)

/-- What comes out for a place fits its schema in the package that results. -/
theorem Compiles.fits {place : Place} {name : String} {s : Schema} {d : Definition}
    (h : Compiles env place name s c d c') (hrun : compilePhases env (startOf env) = .ok ((), c₂)) :
    Fits env c₂.graph [env.package] name s c d.unwrap := by
  obtain ⟨hunderway, hsettles⟩ := h.settles hrun
  have hfits := (compileSchema_fits env s).whole
  cases h with
  | definition _ hd => exact hfits _ _ _ _ _ _ _ _ hd hunderway.opening hsettles
  | parameter _ _ _ hd => exact hfits _ _ _ _ _ _ _ _ hd hunderway.opening hsettles
  | request _ _ _ _ hd => exact hfits _ _ _ _ _ _ _ _ hd hunderway.opening hsettles
  | response _ _ _ _ _ hd => exact hfits _ _ _ _ _ _ _ _ hd hunderway.opening hsettles
  | responseItems _ _ _ _ _ hd => exact hfits _ _ _ _ _ _ _ _ hd hunderway.opening hsettles

end Outcome

/-! ## Whole compilations -/

/-- The package stays the one of the start. -/
theorem package_of_compileAll {env : Environment} {c : Compilation}
    (h : compileAll env (startOf env) = .ok ((), c)) : c.package = env.package := by
  obtain ⟨c₀, c₁, hcompiled⟩ := compiled_of_compileAll h
  exact hcompiled.grows.package.trans (hcompiled.resolved_package_eq.trans hcompiled.package_eq)

/-- A successful compilation compiles the schema of every place, and what comes out for a place fits
its schema in the package that results. -/
theorem compiles_and_fits {options : Options} {spec : Spec} {o : Output}
    (h : compile options spec = .ok o) :
    (∀ place : Place, place.In ⟨options, spec⟩ →
      ∃ name s c d c', Compiles ⟨options, spec⟩ place name s c d c') ∧
    ∀ place name s c d c', Compiles ⟨options, spec⟩ place name s c d c' →
      Fits ⟨options, spec⟩ o.graph [o.package] name s c d.unwrap := by
  obtain ⟨c₂, hrun, rfl⟩ := compile_ok_iff.1 h
  have hphases := (compileAll_ok_iff.1 hrun).1
  have hpackage := package_of_compileAll hrun
  refine ⟨fun place hplace => exists_compiles hphases hplace, fun _ _ _ _ _ _ hplace => ?_⟩
  have hfits := hplace.fits hphases
  rw [← hpackage] at hfits
  exact hfits

/-- A property whose type is named like a named schema. -/
def tagSchemas : Spec := .ofDefinitions [("TagMessage", .object [("weight", .scalar "integer")]),
  ("Zoo", .object [("tag", .object [("color", .scalar "string")])])]

theorem compiles_and_fits_tagSchemas : ∃ o,
    compile ⟨false, false, false, false, "pet"⟩ tagSchemas = .ok o ∧
    (∀ place : Place, place.In ⟨⟨false, false, false, false, "pet"⟩, tagSchemas⟩ →
      ∃ name s c d c',
        Compiles ⟨⟨false, false, false, false, "pet"⟩, tagSchemas⟩ place name s c d c') ∧
    ∀ place name s c d c',
      Compiles ⟨⟨false, false, false, false, "pet"⟩, tagSchemas⟩ place name s c d c' →
      Fits ⟨⟨false, false, false, false, "pet"⟩, tagSchemas⟩ o.graph [o.package] name s c
        d.unwrap := by
  obtain ⟨c, hcompile, -⟩ := compile_of_compilesTo
    (show compilesTo ⟨false, false, false, false, "pet"⟩ tagSchemas (fun _ => true) = true by
      decide +kernel)
  exact ⟨_, hcompile, compiles_and_fits hcompile⟩

/-- A message with exactly the given fields. -/
def Graph.IsMessageOf (g : Graph) (names : List String) (t : TypeRef) : Prop :=
  ∃ id m, t = .node id ∧ g.message? id = some m ∧ m.fields.map (·.name) = names

/-- Whether the package has a message of a name with one field, of which the type is a message with
fields of other names. -/
def hasFieldOfOther (name field : String) (names : List String) (c : Compilation) : Bool :=
  (c.graph.children c.package).any fun t => match t with
    | .node id => match c.graph.message? id with
      | some ⟨name', [f], _, _⟩ => name' == name && f.name == field && match f.type with
        | .node k => ((c.graph.message? k).map (·.fields.map (·.name))).any (· != names)
        | .builtin _ => false
      | _ => false
    | .builtin _ => false

/-- The property of the second schema is an object with one property of its own, but its type is
made from the first schema. -/
theorem not_ownType_tagSchemas : ∃ o, compile ⟨false, false, false, false, "pet"⟩ tagSchemas = .ok o ∧
    ∃ id m f, .node id ∈ o.graph.children o.package ∧ o.graph.message? id = some m ∧
      m.name = "Zoo" ∧ m.fields = [f] ∧ f.name = "tag" ∧
      ¬ Graph.IsMessageOf o.graph ["color"] f.type := by
  obtain ⟨c, hcompile, htest⟩ := compile_of_compilesTo
    (show compilesTo ⟨false, false, false, false, "pet"⟩ tagSchemas
      (hasFieldOfOther "Zoo" "tag" ["color"]) = true by decide +kernel)
  refine ⟨_, hcompile, ?_⟩
  obtain ⟨t, hchild, ht⟩ := List.any_eq_true.1 htest
  cases t with
  | builtin => cases ht
  | node id =>
    simp only at ht
    split at ht
    · next name f children comment hm =>
      simp only [Bool.and_eq_true, beq_iff_eq] at ht
      obtain ⟨⟨hname, hfield⟩, hother⟩ := ht
      refine ⟨id, _, f, hchild, hm, hname, rfl, hfield, ?_⟩
      rintro ⟨k, m, htype, hk, hnames⟩
      simp [htype, hk, hnames] at hother
    · cases ht

end ApiProto.Compile
