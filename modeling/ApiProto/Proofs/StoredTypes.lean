import ApiProto.Proofs.PassedStates
import ApiProto.Proofs.Reachable
import ApiProto.Proofs.Requests

/-!
# Stored types

The names of scalars denote placeholders until a format has made scalars of them, and what has been
defined may be a shared parameter in place of a type. Fields, maps and procedures store neither:
each type is given a format, and each definition unwrapped, on its way to the place where it is
stored.

* `Graph.IsStored`, `Graph.IsStorable` — the types that a package stores, and those that it should.
* `Graph.IsProper` — the types that may be stored while a package is compiled.
* `Compilation.Proper` — a state that stores only such types.
* `storage` — the discipline of stored types.
* `storable_of_compile` — the types that a compiled package stores.
-/

namespace ApiProto.Proto

/-! ## Types that may be stored -/

/-- Whether a node is a type, or a reference to one. -/
def Node.isType : Node → Bool
  | .message _ | .enumeration _ | .map .. | .reference _ => true
  | _ => false

/-- A type that may be stored: no placeholder for a scalar, and no package or service. -/
def Graph.IsProper (g : Graph) : TypeRef → Prop
  | .builtin b => ¬ b.IsPlaceholder
  | .node id => ∃ n, g.node? id = some n ∧ n.isType = true

/-- A type that is stored somewhere below a package: the type of a field, the key or the value of a
map, or what a procedure takes or returns. -/
inductive Graph.IsStored (g : Graph) (package : Nat) : TypeRef → Prop
  | used {t : TypeRef} : g.Uses package t → g.IsStored package t
  | key {id : Nat} {key value : TypeRef} : g.Reachable package (.node id) →
      g.node? id = some (.map key value) → g.IsStored package key

/-- A type that may be stored in the end: a message, an enum, a map whose keys are strings, or a
builtin type that is no placeholder. -/
inductive Graph.IsStorable (g : Graph) : TypeRef → Prop
  | builtin {b : Builtin} : ¬ b.IsPlaceholder → g.IsStorable (.builtin b)
  | message {id : Nat} {m : Message} : g.node? id = some (.message m) → g.IsStorable (.node id)
  | enumeration {id : Nat} {e : Enumeration} : g.node? id = some (.enumeration e) →
      g.IsStorable (.node id)
  | map {id : Nat} {value : TypeRef} : g.node? id = some (.map (.builtin .string) value) →
      g.IsStorable (.node id)

/-- A node that stores only types of a kind, and the string as key of a map. -/
def Node.Stores (kind : TypeRef → Prop) : Node → Prop
  | .message m => ∀ f ∈ m.fields, kind f.type
  | .map key value => key = .builtin .string ∧ kind value
  | .service s => ∀ rpc ∈ s.rpcs, kind rpc.parameter ∧ kind rpc.response
  | _ => True

variable {g g' : Graph} {given : TypeRef → Prop} {kind kind' : TypeRef → Prop} {n n' : Node}
  {t t' : TypeRef}

theorem Graph.Grows.isProper (h : g.Grows g') (ht : g.IsProper t) : g'.IsProper t := by
  cases t with
  | builtin => exact ht
  | node id =>
    obtain ⟨n, hn, htype⟩ := ht
    obtain ⟨n', hn', hgrow⟩ := h id n hn
    refine ⟨n', hn', ?_⟩
    cases hgrow <;> exact htype

theorem Graph.Resolved.isProper (h : g.Resolved given g') (ht : g.IsProper t) : g'.IsProper t := by
  cases t with
  | builtin => exact ht
  | node id =>
    obtain ⟨n, hn, htype⟩ := ht
    obtain ⟨n', hn', hres⟩ := h.nodes id n hn
    refine ⟨n', hn', ?_⟩
    cases hres <;> exact htype

theorem Graph.MayBecome.isProper (h : g.MayBecome given t t') (hgiven : ∀ t, given t → g.IsProper t)
    (ht : g.IsProper t) : g.IsProper t' := by
  rcases h with rfl | ⟨-, ht'⟩
  · exact ht
  · exact hgiven t' ht'

theorem Node.Stores.mono (h : n.Stores kind) (hkind : ∀ t, kind t → kind' t) : n.Stores kind' := by
  cases n with
  | message m => exact fun f hf => hkind _ (h f hf)
  | map key value => exact ⟨h.1, hkind _ h.2⟩
  | service s => exact fun rpc hrpc => ⟨hkind _ (h rpc hrpc).1, hkind _ (h rpc hrpc).2⟩
  | _ => trivial

theorem Node.Stores.withChild (h : n.Stores kind) (t : TypeRef) : (n.withChild t).Stores kind := by
  cases n <;> exact h

theorem Node.Stores.withImport (h : n.Stores kind) (file : String) :
    (n.withImport file).Stores kind := by
  cases n with
  | package p =>
    obtain ⟨p', hp'⟩ := Node.withImport_package file p
    rw [hp']
    trivial
  | _ => exact h

/-- What is stored below a package is stored in a node. -/
theorem Graph.IsStored.of_stores {package : Nat} (h : g.IsStored package t)
    (hnodes : ∀ id n, g.node? id = some n → n.Stores kind) (hstring : kind (.builtin .string)) :
    kind t := by
  cases h with
  | used huses =>
    cases huses with
    | field _ hm hf => exact hnodes _ _ hm _ hf
    | value _ hn => exact (hnodes _ _ hn).2
    | request _ hs hrpc => exact (hnodes _ _ hs _ hrpc).1
    | response _ hs hrpc => exact (hnodes _ _ hs _ hrpc).2
  | key _ hn => exact (hnodes _ _ hn).1 ▸ hstring

theorem Graph.IsStored.reachable {package : Nat} (h : g.IsStored package t) :
    g.Reachable package t := by
  cases h with
  | used huses => exact huses.reachable
  | key hid hn => exact hid.mention hn (by simp [Node.mentions])

/-- A type that may be stored is storable in the end, unless it is a reference. -/
theorem Graph.IsProper.isStorable (h : g.IsProper t) (hreference : ¬ g.IsReference t)
    (hnodes : ∀ id n, g.node? id = some n → n.Stores g.IsProper) : g.IsStorable t := by
  cases t with
  | builtin b => exact .builtin h
  | node id =>
    obtain ⟨n, hn, htype⟩ := h
    cases n with
    | message m => exact .message hn
    | enumeration e => exact .enumeration hn
    | map key value =>
      obtain ⟨rfl, -⟩ := hnodes id _ hn
      exact .map hn
    | reference ref => exact absurd ⟨id, ref, rfl, hn⟩ hreference
    | package _ | service _ | extension _ | builtin _ => cases htype

/-- What stands in the place of a reference may be stored there. -/
theorem Node.Resolved.stores (h : n.Resolved g given n') (hn : n.Stores g.IsProper)
    (hgiven : ∀ t, given t → g.IsProper t) : n'.Stores g.IsProper := by
  cases h with
  | same => exact hn
  | message _ _ _ hlength hfields =>
    intro f' hf'
    obtain ⟨i, hi, rfl⟩ := List.mem_iff_getElem.1 hf'
    obtain ⟨f'', hf'', t, rfl, hbecome⟩ := hfields i _ (List.getElem?_eq_getElem (hlength ▸ hi))
    rw [List.getElem?_eq_getElem hi] at hf''
    rw [Option.some.inj hf'']
    exact hbecome.isProper hgiven (hn _ (List.getElem_mem _))
  | map hbecome => exact ⟨hn.1, hbecome.isProper hgiven hn.2⟩

end ApiProto.Proto

namespace ApiProto.Compile

open Proto Document CompileM

variable {scope : Scope} {opened : List Nat} {c c' : Compilation} {id : Nat} {t : TypeRef}

/-! ## States -/

/-- A state that stores only types that may be stored, and offers only such. -/
structure Compilation.Proper (scope : Scope) (c : Compilation) : Prop where
  around : ∃ inner, scope = inner ++ [c.package] ∧ ∀ k ∈ inner, c.graph.IsProper (.node k)
  nodes : ∀ id n, c.graph.node? id = some n → n.Stores c.graph.IsProper
  definitions : ∀ entry ∈ c.definitions, c.graph.IsProper entry.2.unwrap
  wrappers : ∀ entry ∈ c.wrappers, c.graph.IsProper (.node entry.2)
  log : ∀ entry ∈ c.registry.log, c.graph.IsProper (.node entry.2)

/-- What a new node is. -/
theorem Made.stores {n : Node} {Good : TypeRef → Prop} (h : Made Good n) : n.Stores Good := by
  cases h with
  | message _ _ hfields => exact hfields
  | map hvalue => exact ⟨rfl, hvalue⟩
  | _ => trivial

theorem Made.isType {n : Node} {Good : TypeRef → Prop} (h : Made Good n) : n.isType = true := by
  cases h <;> rfl

theorem isProper_withNode {n : Node} (hn : n.isType = true) :
    (c.withNode n).graph.IsProper (.node c.graph.size) :=
  ⟨n, Graph.node?_add_self n, hn⟩

theorem isProper_declareHere {s : TypeRef} (hs : c.graph.IsProper s) :
    (c.declareHere scope t).graph.IsProper s := by
  have hgrows : c.Grows scope (c.declareHere scope t) := .declareHere (List.Subset.refl _) t
  exact hgrows.nodes.isProper hs

namespace Compilation.Proper

variable (h : c.Proper scope)
include h

/-- A change by which only types are stored that may be stored. -/
theorem of_grows (hgrows : c.Grows opened c')
    (hnodes : ∀ id n', c'.graph.node? id = some n' → n'.Stores c.graph.IsProper)
    (hdefinitions : c'.definitions = c.definitions)
    (hwrappers : ∀ entry ∈ c'.wrappers, entry ∈ c.wrappers ∨ c.graph.IsProper (.node entry.2))
    (hlog : ∀ entry ∈ c'.registry.log,
      entry ∈ c.registry.log ∨ c.graph.IsProper (.node entry.2)) : c'.Proper scope where
  around := by
    obtain ⟨inner, heq, hinner⟩ := h.around
    exact ⟨inner, hgrows.package ▸ heq, fun k hk => hgrows.nodes.isProper (hinner k hk)⟩
  nodes id n' hn' := (hnodes id n' hn').mono fun _ => hgrows.nodes.isProper
  definitions entry hentry :=
    hgrows.nodes.isProper (h.definitions entry (hdefinitions ▸ hentry))
  wrappers entry hentry :=
    hgrows.nodes.isProper ((hwrappers entry hentry).elim (h.wrappers entry) id)
  log entry hentry := hgrows.nodes.isProper ((hlog entry hentry).elim (h.log entry) id)

theorem withNode {n : Node} (hn : n.Stores c.graph.IsProper) : (c.withNode n).Proper scope := by
  refine h.of_grows (@Compilation.Grows.withNode [] c n) (fun id n' hn' => ?_) rfl
    (fun _ => .inl) fun _ => .inl
  change (c.graph.add n).1.node? id = some n' at hn'
  rw [Graph.node?_add] at hn'
  split at hn'
  · exact Option.some.inj hn' ▸ hn
  · exact h.nodes id n' hn'

theorem of_map {k : Nat} {change : Node → Node} (hgrows : c.Grows opened c')
    (hchange : ∀ n : Node, n.Stores c.graph.IsProper → (change n).Stores c.graph.IsProper)
    (hnode : ∀ id, c'.graph.node? id =
      if id = k then (c.graph.node? id).map change else c.graph.node? id)
    (hdefinitions : c'.definitions = c.definitions) (hwrappers : c'.wrappers = c.wrappers)
    (hlog : ∀ entry ∈ c'.registry.log,
      entry ∈ c.registry.log ∨ c.graph.IsProper (.node entry.2)) : c'.Proper scope := by
  refine h.of_grows hgrows (fun id n' hn' => ?_) hdefinitions
    (fun _ hentry => .inl (hwrappers ▸ hentry)) hlog
  rw [hnode] at hn'
  split at hn'
  · obtain ⟨n, hn, rfl⟩ := Option.map_eq_some_iff.1 hn'
    exact hchange n (h.nodes id n hn)
  · exact h.nodes id n' hn'

theorem put {n n' : Node} (hn : c.graph.node? id = some n) (hgrow : n.Grows n')
    (hstores : n'.Stores c.graph.IsProper) :
    Compilation.Proper scope { c with graph := c.graph.put id n' } := by
  refine h.of_grows (@Compilation.Grows.put [id] c id n n' (List.mem_singleton.2 rfl) hn hgrow)
    (fun k m' hm' => ?_) rfl (fun _ => .inl) fun _ => .inl
  rcases Decidable.em (k = id) with rfl | hne
  · exact Option.some.inj ((Graph.node?_put_self hn n').symm.trans hm') ▸ hstores
  · exact h.nodes k m' ((Graph.node?_put_of_ne hne n').symm.trans hm')

theorem declare (parent : Nat) (ht : c.graph.IsProper t) :
    (c.declare scope parent t).Proper scope := by
  have hgrows : c.Grows [parent] (c.declare scope parent t) := .declare (List.mem_singleton.2 rfl) t
  unfold Compilation.declare at hgrows ⊢
  rcases Registry.register_cases c.graph c.registry t parent scope with
    ⟨heq, -⟩ | ⟨id, rfl, -, -, -, ⟨-, heq⟩ | ⟨-, heq⟩⟩ <;> rw [heq] at hgrows ⊢
  · exact h
  · exact h.of_grows hgrows h.nodes rfl (fun _ => .inl) fun _ => .inl
  · refine h.of_map hgrows (fun n hn => hn.withChild _) (fun _ => Graph.node?_addChild parent _)
      rfl rfl fun entry hentry => ?_
    rcases List.mem_append.1 hentry with hold | hnew
    · exact .inl hold
    · obtain rfl := List.mem_singleton.1 hnew
      exact .inr ht

theorem declareHere (ht : c.graph.IsProper t) : (c.declareHere scope t).Proper scope := by
  cases scope with
  | nil => exact h
  | cons parent rest => exact h.declare parent ht

theorem importFile (file : String) : (c.importFile file).Proper scope :=
  h.of_map (@Compilation.Grows.importFile [c.package] c (List.mem_singleton.2 rfl) file)
    (fun _ hn => hn.withImport file) (fun _ => Graph.node?_addImport c.package file) rfl rfl
    fun _ => .inl

theorem addField {message : Nat} {f : Proto.Field TypeRef Value} (hf : c.graph.IsProper f.type)
    (hadd : addField message f c = .ok ((), c')) : c'.Proper scope := by
  rcases addField_ok hadd with ⟨-, rfl⟩ | ⟨m, hm, -, -, rfl⟩
  · exact h
  · have hn := Graph.node?_of_message? hm
    refine h.put hn (.message rfl rfl (List.prefix_append ..) List.prefix_rfl) fun f' hf' => ?_
    rcases List.mem_append.1 hf' with hold | hnew
    · exact h.nodes _ _ hn f' hold
    · obtain rfl := List.mem_singleton.1 hnew
      exact hf

theorem withRpc {s : Service TypeRef} {rpc : Rpc TypeRef}
    (hs : c.graph.node? c.service = some (.service s)) (hrequest : c.graph.IsProper rpc.parameter)
    (hresponse : c.graph.IsProper rpc.response) : (c.withRpc s rpc).Proper scope := by
  refine h.put hs (.service rfl (List.prefix_append ..)) fun r hr => ?_
  rcases List.mem_append.1 hr with hold | hnew
  · exact h.nodes _ _ hs r hold
  · obtain rfl := List.mem_singleton.1 hnew
    exact ⟨hrequest, hresponse⟩

theorem remember (base : String) (hid : c.graph.IsProper (.node id)) :
    (c.remember base id).Proper scope := by
  refine h.of_grows (@Compilation.Grows.remember [] c base id) h.nodes rfl (fun entry hentry => ?_)
    fun _ => .inl
  rcases List.mem_append.1 hentry with hold | hnew
  · exact .inl hold
  · obtain rfl := List.mem_singleton.1 hnew
    exact .inr hid

theorem defining (ref : String) {d : Definition} (hd : c.graph.IsProper d.unwrap) :
    (c.defining ref d).Proper scope := by
  unfold Compilation.defining
  split
  · exact h
  · refine { h with definitions := fun entry hentry => ?_ }
    rcases List.mem_append.1 hentry with hold | hnew
    · exact h.definitions entry hold
    · obtain rfl := List.mem_singleton.1 hnew
      exact hd

/-- An extension becomes a child of the package. -/
theorem extending (e : Proto.Extension) :
    (c.withNode (.extension e)).Proper scope ∧ (c.extending e).Proper scope := by
  have hnode := h.withNode (n := .extension e) trivial
  have hgrows : (c.withNode (.extension e)).Grows [c.package] (c.extending e) :=
    .addChild (List.mem_singleton.2 rfl) _
  exact ⟨hnode, hnode.of_map hgrows (fun _ hn => hn.withChild _)
    (fun _ => Graph.node?_addChild c.package _) rfl rfl fun _ => .inl⟩

/-- A new message is opened. -/
theorem enter (name : String) (comment : Value) :
    (c.withNode (.message ⟨name, [], [], comment⟩)).Proper (c.graph.size :: scope) := by
  have hnode := h.withNode (n := .message ⟨name, [], [], comment⟩) nofun
  obtain ⟨inner, heq, hinner⟩ := hnode.around
  refine { hnode with around := ⟨c.graph.size :: inner, congrArg (c.graph.size :: ·) heq, ?_⟩ }
  exact List.forall_mem_cons.2 ⟨isProper_withNode rfl, hinner⟩

/-- A message is finished. -/
theorem leave {message : Nat} (hinner : c'.Proper (message :: scope)) :
    c'.Proper scope ∧ c'.graph.IsProper (.node message) := by
  obtain ⟨outer, hscope, -⟩ := h.around
  obtain ⟨inner, heq, hproper⟩ := hinner.around
  cases inner with
  | nil =>
    obtain ⟨-, rfl⟩ := List.cons.inj heq
    exact absurd hscope (by simp)
  | cons first inner =>
    obtain ⟨rfl, hrest⟩ := List.cons.inj heq
    obtain ⟨hmessage, hproper⟩ := List.forall_mem_cons.1 hproper
    exact ⟨{ hinner with around := ⟨inner, hrest, hproper⟩ }, hmessage⟩

/-- What references stand for may be stored. -/
theorem given (ht : c.Given t) : c.graph.IsProper t := by
  obtain ⟨ref, hmem⟩ := ht
  rcases List.mem_append.1 hmem with hknown | hdefined
  · obtain ⟨entry, hentry, heq⟩ := List.mem_map.1 hknown
    obtain ⟨-, rfl⟩ := Prod.mk.inj heq
    exact Builtin.not_isPlaceholder_knownDefinitions entry hentry
  · obtain ⟨entry, hentry, heq⟩ := List.mem_map.1 hdefined
    obtain ⟨-, rfl⟩ := Prod.mk.inj heq
    exact h.definitions entry hentry

/-- Resolution stores only types that may be stored. -/
theorem resolved (hresolved : c.Resolved c') : c'.Proper scope where
  around := by
    obtain ⟨inner, heq, hinner⟩ := h.around
    have hpackage : c'.package = c.package := congrArg Registry.package hresolved.registry
    exact ⟨inner, hpackage ▸ heq, fun k hk => hresolved.graph.isProper (hinner k hk)⟩
  nodes id n' hn' := by
    obtain ⟨n, hn, hres⟩ := hresolved.graph.of_node? hn'
    exact (hres.stores (h.nodes id n hn) fun _ => h.given).mono fun _ => hresolved.graph.isProper
  definitions entry hentry := by
    obtain ⟨d, hd, t, heq, hbecome⟩ := hresolved.definitions entry hentry
    have hunwrap : entry.2.unwrap = t := by rw [heq]; cases d <;> rfl
    rw [hunwrap]
    exact hresolved.graph.isProper
      (hbecome.isProper (fun _ => h.given) (h.definitions _ hd))
  wrappers entry hentry :=
    hresolved.graph.isProper (h.wrappers entry (hresolved.wrappers ▸ hentry))
  log entry hentry :=
    hresolved.graph.isProper (h.log entry (hresolved.registry ▸ hentry))

end Compilation.Proper

/-! ## The discipline of stored types -/

/-- A compilation stores only types that may be stored. -/
def storage : Discipline where
  Holds scope c := c.Proper scope
  Good c t := c.graph.IsProper t
  Settled _ c t := c.graph.IsProper t
  Fresh _ c id := c.graph.IsProper (.node id)
  scope h := by
    obtain ⟨inner, heq, -⟩ := h.around
    exact ⟨inner, heq⟩
  good_of_settled h := h
  good_of_fresh h := h
  builtin _ hb := hb
  scalar _ hb := ⟨Builtin.not_isPlaceholder_withFormat hb, Builtin.not_isPlaceholder_boxed hb⟩
  found h hfound := by
    rcases Registry.lookup_some hfound with ⟨b, heq⟩ | ⟨container, k, heq, -, hlog, -⟩
    · cases heq
    · exact heq ▸ h.log _ hlog
  definition h hentry := h.definitions _ hentry
  wrapper h hentry := h.wrappers _ hentry
  withNode h hn := ⟨h.withNode hn.stores,
    fun _ ht => (@Compilation.Grows.withNode [] _ _).nodes.isProper ht⟩
  fresh _ hn _ := isProper_withNode hn.isType
  settled _ hn _ := isProper_withNode hn.isType
  enter h _ := h.enter _ _
  leave h hinner := h.leave hinner
  declareHere h ht := by
    have hproper := ht.elim (fun ht => ht) fun ⟨_, heq, hid⟩ => heq ▸ hid
    exact ⟨h.declareHere hproper, fun _ => isProper_declareHere, isProper_declareHere hproper⟩
  declareShared h hid := ⟨h.declare _ hid, fun _ ht =>
    (@Compilation.Grows.declare _ _ _ _ (List.mem_singleton.2 rfl) _).nodes.isProper ht⟩
  addField h hf hadd := ⟨h.addField hf hadd, fun _ ht =>
    (addField_grows (List.mem_singleton.2 rfl) hadd).nodes.isProper ht⟩
  importFile file h :=
    have hgrows := @Compilation.Grows.importFile _ _ (List.mem_singleton.2 rfl) file
    ⟨h.importFile file, fun _ ht => hgrows.nodes.isProper ht,
      fun _ hid => hgrows.nodes.isProper hid⟩
  remember base h hid := ⟨h.remember base hid, fun _ ht => ht, hid⟩
  defining ref h hd := h.defining ref hd
  resolved h hresolved := h.resolved hresolved
  deferring h := { h with }
  extension e h := h.extending e
  rpc h hs hrequest hresponse := h.withRpc hs hrequest hresponse

theorem start_proper (packageName serviceName : String) (options : List (String × String)) :
    (start packageName serviceName options).Proper [0] where
  around := ⟨[], rfl, nofun⟩
  nodes id n hn := by
    rcases start_node? hn with ⟨-, rfl⟩ | ⟨-, rfl⟩
    · trivial
    · exact nofun
  definitions _ hentry := nomatch hentry
  wrappers _ hentry := nomatch hentry
  log _ hentry := nomatch hentry

/-- In all states that a compilation passes only types are stored that may be stored. -/
theorem proper_of_passes {env : Environment}
    (h : (compileAll.course env).Passes (startOf env) c) : ∃ scope, c.Proper scope := by
  obtain ⟨packageName, serviceName, options, heq⟩ := startOf_is_start env
  have hstart : storage.Holds [0] (startOf env) := by
    rw [heq]
    exact start_proper packageName serviceName options
  exact (Discipline.compileAll_steady hstart env).1 c h

/-! ## Compiled packages -/

/-- A compiled package stores messages, enums, maps whose keys are strings, and builtin types, but
no placeholder for a scalar. -/
theorem storable_of_compile {options : Options} {spec : Spec} {o : Output}
    (h : compile options spec = .ok o) :
    ∀ t, o.graph.IsStored o.package t → o.graph.IsStorable t := by
  intro t ht
  obtain ⟨c, hrun, rfl⟩ := compile_ok_iff.1 h
  obtain ⟨-, hdangling⟩ := compileAll_ok_iff.1 hrun
  obtain ⟨scope, hproper⟩ := proper_of_passes (passes_of_ok (compileAll.course _) hrun)
  have hstring : ¬ Builtin.string.IsPlaceholder := by decide
  have hstored : c.graph.IsProper t := ht.of_stores hproper.nodes hstring
  exact hstored.isStorable (not_isReference_of_reachable hdangling ht.reachable) hproper.nodes

/-- Pets with named labels, in pages whose size is a shared parameter. -/
def pagedLabels : Spec :=
  { Spec.ofOperation [("PageLimit", Parameter.scalar "limit" "query" "integer")]
      ⟨"/pets", [], .taking .get "listPets" [.reference "#/parameters/PageLimit"]⟩ with
    definitions := [("Labels", .map (.scalar "boolean")),
      ("Pet", .object [("labels", .reference "#/definitions/Labels"),
        ("weight", .scalar "number")])] }

/-- The names in the description denote placeholders, but its fields store scalars. -/
theorem storable_of_compile_pagedLabels : ∃ o,
    compile ⟨false, false, false, false, "pet"⟩ pagedLabels = .ok o ∧
    (o.graph.node? 2).map Node.mentions = some [.builtin .string, .builtin .bool] ∧
    (o.graph.message? 3).map (fun m => m.fields.map (·.type)) =
      some [.node 2, .builtin .double] ∧
    (o.graph.message? 4).map (fun m => m.fields.map (·.type)) = some [.builtin .int32] ∧
    ∀ t, o.graph.IsStored o.package t → o.graph.IsStorable t := by
  obtain ⟨c, hcompile, htest⟩ := compile_of_compilesTo
    (show compilesTo ⟨false, false, false, false, "pet"⟩ pagedLabels (fun c => decide
      ((c.graph.node? 2).map Node.mentions = some [.builtin .string, .builtin .bool] ∧
      (c.graph.message? 3).map (fun m => m.fields.map (·.type)) =
        some [.node 2, .builtin .double] ∧
      (c.graph.message? 4).map (fun m => m.fields.map (·.type)) =
        some [.builtin .int32])) = true by decide +kernel)
  obtain ⟨hmap, hpet, hrequest⟩ := of_decide_eq_true htest
  exact ⟨_, hcompile, hmap, hpet, hrequest, storable_of_compile hcompile⟩

end ApiProto.Compile
