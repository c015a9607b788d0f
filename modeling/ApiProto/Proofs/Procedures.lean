import ApiProto.Proofs.Leftovers
import ApiProto.Proofs.Places
import ApiProto.Proofs.SpecReading
import Mathlib.Data.List.Nodup

/-!
# The procedures of a service

A service has one procedure for each name of an operation, for the first operation of that name.
What comes later under the same name is compiled, and its procedure is left out.

* `Spec.operations`, `firstsBy` — the operations of a description in order, and the first of each
  name.
* `Gives` — what a procedure has from its operation.
* `Serves` — the procedures for the operations that have been compiled; `Serves.compile` is the step
  for one more, `Serves.compile_paths` the run.
* `exists_service`, `rpcs_of_operations` — the procedures of a package.
-/

namespace ApiProto

/-- The items of a list without those whose key is that of an earlier one. -/
def firstsBy {α κ : Type} [DecidableEq κ] (key : α → κ) : List α → List α
  | [] => []
  | a :: rest => a :: (firstsBy key rest).filter fun b => key b ≠ key a

section Firsts

variable {α κ : Type} [DecidableEq κ] (key : α → κ)

theorem nodup_firstsBy (l : List α) : ((firstsBy key l).map key).Nodup := by
  induction l with
  | nil => exact List.nodup_nil
  | cons a rest ih =>
    rw [firstsBy, List.map_cons, List.nodup_cons]
    refine ⟨fun hmem => ?_, ih.sublist (List.filter_sublist.map key)⟩
    obtain ⟨b, hb, heq⟩ := List.mem_map.1 hmem
    exact of_decide_eq_true (List.mem_filter.1 hb).2 heq

/-- The item at the end stays if its key is new. -/
theorem firstsBy_concat (l : List α) (a : α) :
    firstsBy key (l ++ [a]) = firstsBy key l ++ if key a ∈ l.map key then [] else [a] := by
  induction l with
  | nil => rfl
  | cons b rest ih =>
    rw [List.cons_append, firstsBy, firstsBy, ih, List.filter_append, List.cons_append]
    by_cases hb : key a = key b
    · split
      · simp [hb]
      · simp [hb]
    · by_cases hold : key a ∈ rest.map key
      · simp only [hold, if_true, List.map_cons, List.mem_cons, or_true, List.filter_nil]
      · simp only [hold, hb, if_false, List.map_cons, List.mem_cons, or_false]
        simp [hb]

theorem mem_map_firstsBy {k : κ} {l : List α} : k ∈ (firstsBy key l).map key ↔ k ∈ l.map key := by
  induction l with
  | nil => rfl
  | cons b rest ih =>
    by_cases hk : k = key b
    · simp [firstsBy, hk]
    · rw [firstsBy, List.map_cons, List.map_cons, List.mem_cons, List.mem_cons, ← ih]
      refine or_congr_right ⟨fun h => ?_, fun h => ?_⟩
      · exact (List.filter_sublist.map key).subset h
      · obtain ⟨a, ha, rfl⟩ := List.mem_map.1 h
        exact List.mem_map_of_mem (List.mem_filter.2 ⟨ha, decide_eq_true hk⟩)

end Firsts

end ApiProto

namespace ApiProto.Document

/-! ## Operations -/

/-- An operation with its path and the parameters that it shares with the others of the path. -/
structure Operation where
  path : String
  shared : List Parameter
  endpoint : Endpoint

namespace Operation

variable (op : Operation)

/-- The parameters of an operation, those of the path first. -/
def parameters : List Parameter := op.shared ++ op.endpoint.parameters

/-- The name of the procedure for an operation. There is none if the identifier of the operation is
no text. -/
def name? : Option String :=
  op.endpoint.operationId.wordText.toOption.map
    (Name.endpointName op.endpoint.verb.word op.path)

theorem name?_eq {identifier : String} (h : op.endpoint.operationId.wordText = .ok identifier) :
    op.name? = some (Name.endpointName op.endpoint.verb.word op.path identifier) := by
  simp [name?, h, Except.toOption]

end Operation

/-- The operations of a path, in the order of the verbs. -/
def PathItem.operations (path : String) (item : PathItem) : List Operation :=
  Verb.all.filterMap fun verb =>
    (item.endpoints.find? fun e => e.verb == verb).map fun e => ⟨path, item.parameters, e⟩

/-- All operations, in the order of their paths, and those of a path in the order of the verbs. -/
def Spec.operations (spec : Spec) : List Operation :=
  (sortEntries spec.paths).flatMap fun (path, item) => item.operations path

/-- Looking up the keys of a list that are in order gives back the list. -/
theorem filterMap_find?_of_sublist {α κ : Type} [BEq κ] [LawfulBEq κ] {key : α → κ} {l : List α}
    {keys : List κ} (hnodup : keys.Nodup) (h : (l.map key).Sublist keys) :
    (keys.filterMap fun k => l.find? fun a => key a == k) = l := by
  induction keys generalizing l with
  | nil =>
    obtain rfl := List.map_eq_nil_iff.1 (List.sublist_nil.1 h)
    rfl
  | cons k keys ih =>
    obtain ⟨hk, hkeys⟩ := List.nodup_cons.1 hnodup
    rcases List.sublist_cons_iff.1 h with h | ⟨rest, heq, hrest⟩
    · have hnone : l.find? (fun a => key a == k) = none :=
        List.find?_eq_none.2 fun a ha heq =>
          hk (beq_iff_eq.1 heq ▸ h.subset (List.mem_map_of_mem ha))
      rw [List.filterMap_cons, hnone]
      exact ih hkeys h
    · obtain ⟨a, l, rfl, rfl, rfl⟩ := List.map_eq_cons_iff.1 heq
      have hothers : ∀ k' ∈ keys, ((a :: l).find? fun b => key b == k') =
          l.find? fun b => key b == k' := by
        intro k' hk'
        refine List.find?_cons_of_neg fun heq => hk ?_
        exact beq_iff_eq.1 heq ▸ hk'
      rw [List.filterMap_cons, List.find?_cons_of_pos (by simp)]
      exact congrArg (a :: ·) ((List.filterMap_congr hothers).trans (ih hkeys hrest))

theorem PathItem.operations_eq_map {path : String} {item : PathItem} :
    item.operations path = item.endpoints.map fun e => ⟨path, item.parameters, e⟩ := by
  have hfind := filterMap_find?_of_sublist (by decide) item.inVerbOrder
  unfold PathItem.operations
  conv_rhs => rw [← hfind]
  rw [List.map_filterMap]

end ApiProto.Document

namespace ApiProto.Proto

/-- What is a message stays one. -/
theorem Graph.Grows.isMessage {g g' : Graph} (h : g.Grows g') {t : TypeRef}
    (ht : g.isMessage t = true) : g'.isMessage t = true := by
  cases t with
  | builtin b => exact ht
  | node id =>
    unfold Graph.isMessage at ht ⊢
    dsimp only at ht ⊢
    rcases hn : g.node? id with _ | n
    · rw [hn] at ht
      cases ht
    · obtain ⟨n', hn', hgrows⟩ := h id n hn
      rw [hn] at ht
      rw [hn']
      cases hgrows <;> exact ht

end ApiProto.Proto

namespace ApiProto.Compile

open Proto Document CompileM

/-! ## One procedure -/

/-- Neither of the successful responses of an operation has a schema. -/
def NoResponseSchema (e : Endpoint) : Prop :=
  ∀ code ∈ responseCodes, ∀ r, e.responses.lookup code = some r → r.schema = none

theorem responseSchema?_eq_none {e : Endpoint} (h : NoResponseSchema e) :
    responseSchema? e = none := by
  refine List.findSome?_eq_none_iff.2 fun code hcode => ?_
  rcases hr : e.responses.lookup code with _ | r
  · rfl
  · exact h code hcode r hr

variable {env : Environment} {package : Nat} {c c₁ c' : Compilation} {g g' : Graph}
  {op : Operation} {rpc : Rpc TypeRef}

/-- What a procedure has from its operation. -/
structure Gives (env : Environment) (g : Graph) (op : Operation) (rpc : Rpc TypeRef) : Prop where
  name : op.name? = some rpc.name
  comment : ∃ summary description, op.endpoint.summary.textWith "strip" = .ok summary ∧
    op.endpoint.description.textWith "strip" = .ok description ∧
    rpc.comment = Name.joinComment summary description
  deprecated : rpc.deprecated = op.endpoint.deprecated
  options : ∃ http, (if env.options.annotate then
      (httpOption env.spec op.endpoint.verb op.path op.parameters).map (fun option => [option]) =
        .ok http
    else http = []) ∧
    rpc.options = http ++ op.endpoint.customOptions.map fun (name, value) => .custom name value
  request : g.isMessage rpc.parameter = true
  response : g.isMessage rpc.response = true
  noRequest : op.parameters = [] → rpc.parameter = .builtin .empty
  noResponse : NoResponseSchema op.endpoint → rpc.response = .builtin .empty
  compiled : ∃ item c c₁ c₂, op.shared = item.parameters ∧
    ReachesOperation env op.path item op.endpoint c ∧
    compileRequest env [env.package] rpc.name op.parameters c = .ok (rpc.parameter, c₁) ∧
    compileResponse env [env.package] rpc.name op.endpoint c₁ = .ok (rpc.response, c₂)

theorem Gives.of_grows (h : Gives env g op rpc) (hgrows : g.Grows g') : Gives env g' op rpc :=
  { h with
    request := hgrows.isMessage h.request
    response := hgrows.isMessage h.response }

theorem compileRequest_isMessage {scope : Scope} {name : String} {parameters : List Parameter}
    {t : TypeRef}
    (h : compileRequest env scope name parameters c = .ok (t, c')) :
    c'.graph.isMessage t = true ∧ (parameters = [] → t = .builtin .empty) := by
  unfold compileRequest at h
  split at h
  · obtain ⟨rfl, rfl⟩ := Prod.mk.inj (Except.ok.inj h)
    exact ⟨rfl, fun _ => rfl⟩
  · next hsome =>
    obtain ⟨s, c₁, -, h⟩ := bind_ok_iff.1 h
    obtain ⟨d, c₂, -, h⟩ := bind_ok_iff.1 h
    have hmessage := declareMessage_isMessage h
    obtain ⟨rfl, rfl⟩ := declareMessage_ok h
    refine ⟨?_, fun hnone => absurd (by simp [hnone]) hsome⟩
    exact (Compilation.Grows.declareHere (List.Subset.refl scope) d.unwrap).nodes.isMessage hmessage

theorem compileResponse_isMessage {scope : Scope} {name : String} {e : Endpoint} {t : TypeRef}
    (h : compileResponse env scope name e c = .ok (t, c')) :
    c'.graph.isMessage t = true ∧ (NoResponseSchema e → t = .builtin .empty) := by
  unfold compileResponse at h
  rcases hs : responseSchema? e with _ | s <;> rw [hs] at h
  · obtain ⟨rfl, rfl⟩ := Prod.mk.inj (Except.ok.inj h)
    exact ⟨rfl, fun _ => rfl⟩
  · refine ⟨?_, fun hnone => absurd (responseSchema?_eq_none hnone) (by simp [hs])⟩
    have hdeclare : ∀ {c₁ : Compilation} {t' : TypeRef},
        declareMessage .response scope (name ++ "Response") name t' c₁ = .ok (t, c') →
        c'.graph.isMessage t = true := by
      intro c₁ t' h
      have hmessage := declareMessage_isMessage h
      obtain ⟨rfl, rfl⟩ := declareMessage_ok h
      exact (Compilation.Grows.declareHere (List.Subset.refl scope) _).nodes.isMessage hmessage
    dsimp only at h
    obtain ⟨items, c₁, -, h⟩ := bind_ok_iff.1 h
    cases items with
    | some items =>
      obtain ⟨t', c₂, -, h⟩ := bind_ok_iff.1 h
      exact hdeclare h
    | none =>
      obtain ⟨d, c₂, -, h⟩ := bind_ok_iff.1 h
      exact hdeclare h

/-- The procedure of an operation has all from the operation. -/
theorem compileOperation_gives {path : String} {item : PathItem} {e : Endpoint}
    (hreaches : ReachesOperation env path item e c)
    (h : compileOperation env [env.package] path item.parameters e c = .ok ((), c')) :
    ∃ rpc c₁, c.Grows [env.package] c₁ ∧ Gives env c₁.graph ⟨path, item.parameters, e⟩ rpc ∧
      c' = c₁.serving rpc := by
  have hp := hreaches.underway.package
  obtain ⟨identifier, summary, description, http, request, c₁, response, c₂, hidentifier,
    hsummary, hdescription, hrequest, hresponse, hhttp, rfl⟩ := compileOperation_rpc h
  obtain ⟨hrequestMessage, hnoRequest⟩ := compileRequest_isMessage hrequest
  obtain ⟨hresponseMessage, hnoResponse⟩ := compileResponse_isMessage hresponse
  have hgrows₁ := (compileRequest_runs hrequest).grows (by simp [hp])
  have hgrows₂ := (compileResponse_runs (Name.endpointName_plain _ _ _) hresponse).grows
    (by simp [hgrows₁.package, hp])
  refine ⟨_, c₂, hgrows₁.trans hgrows₂, ?_, rfl⟩
  exact {
    name := Operation.name?_eq _ hidentifier
    comment := ⟨summary, description, hsummary, hdescription, by dsimp only⟩
    deprecated := rfl
    options := ⟨http, hhttp, rfl⟩
    request := hgrows₂.nodes.isMessage hrequestMessage
    response := hresponseMessage
    noRequest := hnoRequest
    noResponse := hnoResponse
    compiled := ⟨item, c, c₁, c₂, rfl, hreaches, hrequest, hresponse⟩ }

/-! ## All procedures -/

/-- The service has a procedure for each name of the operations that have been compiled, for the
first operation of that name. -/
def Serves (env : Environment) (done : List Operation) (c : Compilation) : Prop :=
  ∃ s, c.graph.service? c.service = some s ∧
    List.Forall₂ (Gives env c.graph) (firstsBy Operation.name? done) s.rpcs

theorem Serves.of_grows {done : List Operation} (h : Serves env done c) (hc : c.Closed)
    (hgrows : c.Grows [c.package] c') : Serves env done c' := by
  obtain ⟨s, hs, hrpcs⟩ := h
  have hother : c.service ∉ [c.package] := by
    intro hmem
    obtain ⟨p, hp⟩ := hc.package
    rw [← List.mem_singleton.1 hmem, node?_of_service? hs] at hp
    cases hp
  have hs' := hgrows.closed _ _ (node?_of_service? hs) hother
  refine ⟨s, ?_, hrpcs.imp fun _ _ h => h.of_grows hgrows.nodes⟩
  rw [hgrows.service, Graph.service?, hs']

/-- The names of the procedures are those of the operations. -/
theorem map_name?_eq {ops : List Operation} {rpcs : List (Rpc TypeRef)}
    (h : List.Forall₂ (Gives env g) ops rpcs) :
    ops.map Operation.name? = rpcs.map fun rpc => some rpc.name := by
  induction h with
  | nil => rfl
  | cons hgives _ ih => rw [List.map_cons, List.map_cons, hgives.name, ih]

/-- A procedure is appended unless there is one of its name. -/
theorem service?_serving {s : Service TypeRef} (hs : c.graph.service? c.service = some s)
    (rpc : Rpc TypeRef) :
    (c.serving rpc).graph.service? (c.serving rpc).service = some
      (if s.rpcs.any fun other => other.name == rpc.name then s
      else { s with rpcs := s.rpcs ++ [rpc] }) := by
  unfold Compilation.serving
  rw [hs]
  dsimp only
  split
  · exact hs
  · have hnode := node?_importing
      (node?_importing (node?_of_service? hs) (fun _ => rfl) (c.graph.typeName rpc.parameter))
      (fun _ => rfl) ((c.importing (c.graph.typeName rpc.parameter)).graph.typeName rpc.response)
    have himports : c.ChangesGraph ((c.importing (c.graph.typeName rpc.parameter)).importing
        ((c.importing (c.graph.typeName rpc.parameter)).graph.typeName rpc.response)) :=
      (Compilation.ChangesGraph.importing c _).trans (.importing _ _)
    have hkept := Compilation.ChangesGraph.service himports
    rw [Graph.service?, hkept, Graph.node?_put_self hnode]

/-- Compiling one more operation adds the procedure of the operation, if its name is new. -/
theorem Serves.compile {done : List Operation} {path : String} {item : PathItem} {e : Endpoint}
    (hserves : Serves env done c) (hreaches : ReachesOperation env path item e c)
    (h : compileOperation env [env.package] path item.parameters e c = .ok ((), c')) :
    Serves env (done ++ [⟨path, item.parameters, e⟩]) c' := by
  have hc := hreaches.underway
  obtain ⟨rpc, c₁, hgrows, hgives, rfl⟩ := compileOperation_gives hreaches h
  obtain ⟨s, hs, hrpcs⟩ := hserves.of_grows hc.closed (hc.package ▸ hgrows)
  have hserving : c₁.Grows [c₁.package, c₁.service] (c₁.serving rpc) :=
    serving_grows (by simp) (by simp) rpc
  have hrpcs' := hrpcs.imp fun _ _ h => h.of_grows hserving.nodes
  have hknown : (s.rpcs.any fun other => other.name == rpc.name) = true ↔
      Operation.name? ⟨path, item.parameters, e⟩ ∈ done.map Operation.name? := by
    rw [← mem_map_firstsBy, map_name?_eq hrpcs, hgives.name]
    simp [List.any_eq_true]
  refine ⟨_, service?_serving hs rpc, ?_⟩
  rw [firstsBy_concat]
  by_cases hold : Operation.name? ⟨path, item.parameters, e⟩ ∈ done.map Operation.name?
  · rw [if_pos hold, if_pos (hknown.2 hold), List.append_nil]
    exact hrpcs'
  · rw [if_neg hold, if_neg (mt hknown.1 hold)]
    exact List.rel_append hrpcs' (.cons (hgives.of_grows hserving.nodes) .nil)

/-- Compiling the operations of a path. -/
theorem Serves.compile_path {done : List Operation} {path : String} {item : PathItem}
    {c₀ : Compilation} (hserves : Serves env done c) (hskip : env.options.skipRpcs = false)
    (hpaths : ReachesPaths env c₀)
    (hentry : ComesTo (compilePathEntry env [env.package]) (sortEntries env.spec.paths) c₀
      (path, item) c)
    (h : compilePathEntry env [env.package] (path, item) c = .ok ((), c')) :
    Serves env (done ++ item.endpoints.map fun e => ⟨path, item.parameters, e⟩) c' := by
  refine forM_ok_prefix
    (P := fun before c => Serves env (done ++ before.map fun e => ⟨path, item.parameters, e⟩) c)
    (compilePathEntry_ok h) (by simpa using hserves) fun before e c₁ c₂ hcomes hstep hbefore => ?_
  have hreaches : ReachesOperation env path item e c₁ := ⟨hskip, c₀, c, hpaths, hentry, hcomes⟩
  rw [List.map_append, ← List.append_assoc]
  exact hbefore.compile hreaches hstep

/-- Compiling all paths. -/
theorem Serves.compile_paths {c₀ : Compilation} (hserves : Serves env [] c₀)
    (hskip : env.options.skipRpcs = false) (hpaths : ReachesPaths env c₀)
    (h : compilePaths env [env.package] c₀ = .ok ((), c')) :
    Serves env env.spec.operations c' := by
  have hserved := forM_ok_prefix (P := fun before c =>
      Serves env (before.flatMap fun (path, item) =>
        item.endpoints.map fun e => ⟨path, item.parameters, e⟩) c)
    h hserves fun before entry c₁ c₂ hcomes hstep hbefore => by
      rw [List.flatMap_append, List.flatMap_singleton]
      exact hbefore.compile_path hskip hpaths hcomes hstep
  have hall : env.spec.operations = (sortEntries env.spec.paths).flatMap fun (path, item) =>
      item.endpoints.map fun e => ⟨path, item.parameters, e⟩ :=
    List.flatMap_congr fun _ _ => PathItem.operations_eq_map
  rwa [hall]

/-! ## The procedures of a package -/

/-- The package is there, and the service is declared in it before all else. -/
def ServiceFirst (c : Compilation) : Prop :=
  ∃ p rest, c.graph.node? c.package = some (.package p) ∧ p.children = .node c.service :: rest

theorem startOf_serviceFirst : ServiceFirst (startOf env) := by
  obtain ⟨packageName, serviceName, options, heq⟩ := startOf_is_start env
  rw [heq]
  exact ⟨_, [], rfl, rfl⟩

theorem ServiceFirst.of_grows {opened : List Nat} (h : ServiceFirst c) (hgrows : c.Grows opened c') :
    ServiceFirst c' := by
  obtain ⟨p, rest, hp, hchildren⟩ := h
  obtain ⟨n', hn', hgrow⟩ := hgrows.nodes _ _ hp
  rw [← hgrows.package] at hn'
  cases hgrow with
  | same => exact ⟨p, rest, hn', hgrows.service ▸ hchildren⟩
  | package _ _ _ hprefix =>
    obtain ⟨more, hmore⟩ := hprefix
    rw [hchildren, List.cons_append] at hmore
    exact ⟨_, rest ++ more, hn', hgrows.service ▸ hmore.symm⟩

theorem ServiceFirst.resolved (h : ServiceFirst c) (hres : c.Resolved c') :
    ServiceFirst { c' with deferring := false } := by
  obtain ⟨p, rest, hp, hchildren⟩ := h
  obtain ⟨n', hn', hresolved⟩ := hres.graph.nodes _ _ hp
  cases hresolved
  have hpackage : c'.package = c.package := congrArg Registry.package hres.registry
  exact ⟨p, rest, hpackage ▸ hn', hres.service ▸ hchildren⟩

/-- When a compilation comes to its paths, the service is there and has no procedures. -/
theorem ReachesPaths.serves (h : ReachesPaths env c) :
    Underway env c ∧ ServiceFirst c ∧ Serves env [] c := by
  obtain ⟨c₀, c₁, hnamed, hresolve, hextensions⟩ := h
  have hresolved := resolveAll_ok hresolve
  have hbuilds := compileNamed_builds hnamed
  have hstart := ((Underway.start env).builds hbuilds).resolved hresolved
  have hfirst := (startOf_serviceFirst.of_grows (hbuilds.grows rfl)).resolved hresolved
  have hserves : Serves env [] { c₁ with deferring := false } := by
    obtain ⟨s, hs⟩ := startOf_hasService.of_grows (hbuilds.grows rfl)
    have hnone : s.rpcs = [] := ((compileNamed_awaiting hnamed).regular _ _ hs).service s rfl
    obtain ⟨n', hn', hsame⟩ := hresolved.graph.nodes _ _ hs
    cases hsame
    refine ⟨s, ?_, hnone ▸ .nil⟩
    show c₁.graph.service? c₁.service = some s
    rw [hresolved.service, Graph.service?, hn']
  refine forM_ok_induct (P := fun c => Underway env c ∧ ServiceFirst c ∧ Serves env [] c)
    (fun e _ c c' hstep hc => ?_) hextensions ⟨hstart, hfirst, hserves⟩
  obtain ⟨hunderway, hfirst, hserves⟩ := hc
  obtain ⟨e', heq⟩ := compileExtension_ok hstep
  have hgrows : c.Grows [c.package] c' := by
    have himports : c.Grows [c.package] (c.importingAll (e'.fields.map (·.type) ++ [e'.base])) :=
      importingAll_grows (List.mem_singleton.2 rfl) _
    rw [heq]
    exact himports.trans (extending_grows (List.mem_singleton.2 himports.package) e')
  exact ⟨hunderway.builds (compileExtension_builds hstep), hfirst.of_grows hgrows,
    hserves.of_grows hunderway.closed hgrows⟩

/-- The service of a package, which is declared before all else. -/
def Output.service? (o : Output) : Option (Service TypeRef) :=
  match o.graph.children o.package with
  | .node id :: _ => o.graph.service? id
  | _ => none

/-- The service of a package has a procedure for each operation that is the first of its name. -/
theorem exists_service {options : Options} {spec : Spec} {o : Output}
    (h : compile options spec = .ok o) (hskip : options.skipRpcs = false) :
    ∃ s, o.service? = some s ∧
      List.Forall₂ (Gives ⟨options, spec⟩ o.graph) (firstsBy Operation.name? spec.operations)
        s.rpcs := by
  obtain ⟨c, hrun, rfl⟩ := compile_ok_iff.1 h
  obtain ⟨c₀, c₁, c₂, hnamed, hresolve, hextensions, hpaths⟩ :=
    compilePhases_states (compileAll_ok_iff.1 hrun).1
  rw [if_neg (by simp [hskip])] at hpaths
  have hreaches : ReachesPaths ⟨options, spec⟩ c₂ := ⟨c₀, c₁, hnamed, hresolve, hextensions⟩
  obtain ⟨hunderway, hfirst, hserves⟩ := hreaches.serves
  obtain ⟨s, hs, hrpcs⟩ := hserves.compile_paths hskip hreaches hpaths
  refine ⟨s, ?_, hrpcs⟩
  obtain ⟨p, rest, hp, hchildren⟩ :=
    hfirst.of_grows (hunderway.builds_grows (compilePaths_builds hpaths))
  have hlist : c.graph.children c.package = .node c.service :: rest := by
    rw [Graph.children, hp, ← hchildren]
  unfold Output.service?
  rw [hlist]
  exact hs

/-- The procedures of a package are those of the operations in order, but for operations whose name
is that of an earlier one. -/
theorem rpcs_of_operations {options : Options} {spec : Spec} {o : Output}
    (h : compile options spec = .ok o) (hskip : options.skipRpcs = false) :
    ∃ s, o.service? = some s ∧ (s.rpcs.map (·.name)).Nodup ∧
      List.Forall₂ (Gives ⟨options, spec⟩ o.graph) (firstsBy Operation.name? spec.operations)
        s.rpcs := by
  obtain ⟨s, hs, hrpcs⟩ := exists_service h hskip
  refine ⟨s, hs, ?_, hrpcs⟩
  have hnames : (s.rpcs.map fun rpc => some rpc.name).Nodup :=
    map_name?_eq hrpcs ▸ nodup_firstsBy Operation.name? _
  have hmap : (s.rpcs.map fun rpc => some rpc.name) = (s.rpcs.map (·.name)).map some := by
    rw [List.map_map]
    rfl
  exact List.Nodup.of_map some (hmap ▸ hnames)

/-- An operation without parameters, with a schema for its response. -/
def finding (verb : Verb) (identifier : String) (response : Schema) : Endpoint where
  path := ""
  verb := verb
  summary := .text "Finds."
  description := .text ""
  operationId := .text identifier
  parameters := []
  responses := [("200", ⟨.text "", some response⟩)]
  customOptions := []
  deprecated := false

/-- Operations of one name on two paths, and one of another name. -/
def findings : Spec := { Spec.ofDefinitions [] with
  paths := [
    ("/b", .single [] (finding .get "find" (.array (.scalar "string")))),
    ("/a", ⟨[], [finding .get "find" (.object [("id", .scalar "string")]),
      finding .post "seek" (.object [("id", .scalar "string")])], by decide⟩)] }

theorem rpcs_of_operations_findings : ∃ o,
    compile ⟨true, false, false, false, "pet"⟩ findings = .ok o ∧
    ∃ s, o.service? = some s ∧ (s.rpcs.map (·.name)).Nodup ∧
      List.Forall₂ (Gives ⟨⟨true, false, false, false, "pet"⟩, findings⟩ o.graph)
        (firstsBy Operation.name? findings.operations) s.rpcs := by
  obtain ⟨c, hcompile, -⟩ := compile_of_compilesTo
    (show compilesTo ⟨true, false, false, false, "pet"⟩ findings (fun c =>
      ((⟨c.graph, c.package⟩ : Output).service?.map fun s => s.rpcs.map (·.name)) ==
        some ["Find", "Seek"]) = true by decide +kernel)
  exact ⟨_, hcompile, rpcs_of_operations hcompile rfl⟩

end ApiProto.Compile
