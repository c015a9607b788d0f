import ApiProto.Proofs.Growth

/-!
# Closed states

A compilation only mentions nodes that it has. A type that comes out of a run can be used, whatever
is added later.

* `Graph.Has` — a type is builtin or a node of a graph.
* `Compilation.Closed` — all that a state mentions is there.
* `Runs.closed`, `Builds.closed` — runs and building keep states closed.
-/

namespace ApiProto.Proto

/-- Whether a type is builtin or a node of a graph. -/
def Graph.Has (g : Graph) : TypeRef → Prop
  | .builtin _ => True
  | .node id => id < g.size

theorem Graph.Has.mono {g g' : Graph} (h : g.size ≤ g'.size) {t : TypeRef} (ht : g.Has t) :
    g'.Has t := by
  cases t with
  | builtin => trivial
  | node id => exact Nat.lt_of_lt_of_le ht h

/-- What a name denotes: a builtin type, or a type of that name that is declared in a container of
the scope. -/
theorem Registry.lookup_some {g : Graph} {r : Registry} {name : String} {scope : Scope}
    {t : TypeRef} (h : r.lookup g name scope = some t) :
    (∃ b, t = .builtin b) ∨ ∃ container id, t = .node id ∧ container ∈ scope ∧
      (container, id) ∈ r.log ∧ g.typeName (.node id) = name := by
  unfold Registry.lookup at h
  split at h
  · exact .inl ⟨_, (Option.some.inj h).symm⟩
  · obtain ⟨container, hmem, hfound⟩ := List.exists_of_findSome?_eq_some h
    obtain ⟨id, hid, rfl⟩ := Option.map_eq_some_iff.1 hfound
    have hname := List.find?_some hid
    exact .inr ⟨container, id, rfl, hmem, mem_declaredIn.1 (List.mem_of_find?_eq_some hid),
      by simpa using hname⟩

end ApiProto.Proto

namespace ApiProto.Compile

open Proto Document CompileM

/-- All nodes that a state mentions are there, and so is the package. -/
structure Compilation.Closed (c : Compilation) : Prop where
  mentions : ∀ id n, c.graph.node? id = some n → ∀ t ∈ n.mentions, c.graph.Has t
  definitions : ∀ entry ∈ c.definitions, c.graph.Has entry.2.unwrap
  wrappers : ∀ entry ∈ c.wrappers, entry.2 < c.graph.size
  log : ∀ entry ∈ c.registry.log, entry.2 < c.graph.size
  package : ∃ p, c.graph.node? c.package = some (.package p)

namespace Compilation.Closed

variable {c c' : Compilation} (h : c.Closed)
include h

theorem has_definition {ref : String} {d : Definition} (hd : c.definition? ref = some d) :
    c.graph.Has d.unwrap := by
  unfold definition? at hd
  split at hd
  · obtain rfl := Option.some.inj hd
    trivial
  · obtain ⟨before, after, heq, -⟩ := List.lookup_eq_some_iff.1 hd
    exact h.definitions (ref, d) (by simp [heq])

theorem has_lookup {name : String} {scope : Scope} {t : TypeRef}
    (ht : c.registry.lookup c.graph name scope = some t) : c.graph.Has t := by
  rcases Registry.lookup_some ht with ⟨b, rfl⟩ | ⟨container, id, rfl, -, hlog, -⟩
  · trivial
  · exact h.log _ hlog

theorem has_wrapper {base : String} {wrapper : Nat} (hw : c.wrappers.lookup base = some wrapper) :
    c.graph.Has (.node wrapper) := by
  obtain ⟨before, after, heq, -⟩ := List.lookup_eq_some_iff.1 hw
  exact h.wrappers (base, wrapper) (by simp [heq])

/-- A state in which nodes have been changed or added, with mentions that are there. -/
theorem of_graph {g : Graph} (hsize : c.graph.size ≤ g.size)
    (hnodes : ∀ id n, g.node? id = some n → (∃ n', c.graph.node? id = some n' ∧
      ∀ t ∈ n.mentions, t ∈ n'.mentions ∨ g.Has t) ∨ ∀ t ∈ n.mentions, g.Has t)
    (hpackage : ∃ p, g.node? c.package = some (.package p)) :
    Compilation.Closed { c with graph := g } where
  mentions id n hn t ht := by
    rcases hnodes id n hn with ⟨n', hn', hold⟩ | hnew
    · rcases hold t ht with hmem | hhas
      · exact (h.mentions id n' hn' t hmem).mono hsize
      · exact hhas
    · exact hnew t ht
  definitions entry hentry := (h.definitions entry hentry).mono hsize
  wrappers entry hentry := Nat.lt_of_lt_of_le (h.wrappers entry hentry) hsize
  log entry hentry := Nat.lt_of_lt_of_le (h.log entry hentry) hsize
  package := hpackage

/-- A state in which one node has been changed. -/
theorem of_map {g : Graph} {k : Nat} {change : Node → Node} (hsize : c.graph.size ≤ g.size)
    (hnode : ∀ id, g.node? id = if id = k then (c.graph.node? id).map change else c.graph.node? id)
    (hchange : ∀ n, ∀ t ∈ (change n).mentions, t ∈ n.mentions ∨ g.Has t)
    (hpackage : ∀ p, ∃ p', change (.package p) = .package p') :
    Compilation.Closed { c with graph := g } := by
  refine h.of_graph hsize (fun id n hn => ?_) ?_
  · rw [hnode id] at hn
    split at hn
    · obtain ⟨n', hn', rfl⟩ := Option.map_eq_some_iff.1 hn
      exact .inl ⟨n', hn', hchange n'⟩
    · exact .inl ⟨n, hn, fun t ht => .inl ht⟩
  · obtain ⟨p, hp⟩ := h.package
    rw [hnode, hp]
    split
    · obtain ⟨p', hp'⟩ := hpackage p
      exact ⟨p', congrArg some hp'⟩
    · exact ⟨p, rfl⟩

/-- A state in which a node that is there has been replaced. -/
theorem put {id : Nat} {n n' : Node} (hn : c.graph.node? id = some n)
    (hmentions : ∀ t ∈ n'.mentions, t ∈ n.mentions ∨ c.graph.Has t)
    (hpackage : ∀ p, n = .package p → ∃ p', n' = .package p') :
    Compilation.Closed { c with graph := c.graph.put id n' } := by
  have hsize : c.graph.size ≤ (c.graph.put id n').size := by simp
  refine h.of_graph hsize (fun k m hm => .inl ?_) ?_
  · rcases Decidable.em (k = id) with rfl | hne
    · rw [Graph.node?_put_self hn] at hm
      obtain rfl := Option.some.inj hm
      exact ⟨n, hn, fun t ht => (hmentions t ht).imp_right (·.mono hsize)⟩
    · rw [Graph.node?_put_of_ne hne] at hm
      exact ⟨m, hm, fun t ht => .inl ht⟩
  · obtain ⟨p, hp⟩ := h.package
    rcases Decidable.em (c.package = id) with rfl | hne
    · obtain ⟨p', rfl⟩ := hpackage p (Option.some.inj (hn.symm.trans hp))
      exact ⟨p', Graph.node?_put_self hn _⟩
    · exact ⟨p, (Graph.node?_put_of_ne hne n').trans hp⟩

theorem withNode {n : Node} (hn : ∀ t ∈ n.mentions, c.graph.Has t) : (c.withNode n).Closed := by
  have hsize : c.graph.size ≤ (c.graph.add n).1.size := by simp
  refine h.of_graph hsize (fun id n' hn' => ?_) ?_
  · rw [Graph.node?_add] at hn'
    split at hn'
    · obtain rfl := Option.some.inj hn'
      exact .inr fun t ht => (hn t ht).mono hsize
    · exact .inl ⟨n', hn', fun t ht => .inl ht⟩
  · obtain ⟨p, hp⟩ := h.package
    exact ⟨p, Graph.node?_add_of_some hp n⟩

theorem importFile (file : String) : (c.importFile file).Closed := by
  have hgrows : c.Grows [c.package] (c.importFile file) := .importFile (by simp) file
  refine h.of_map hgrows.size_le (fun id => Graph.node?_addImport c.package file)
    (fun n t ht => .inl ?_) (Node.withImport_package file)
  cases n with
  | package p =>
    obtain ⟨p', hp'⟩ := Node.withImport_package file p
    rw [hp'] at ht
    exact ht
  | _ => exact ht

theorem importing (name : String) : (c.importing name).Closed := by
  unfold Compilation.importing
  split
  · exact h.importFile _
  · exact h

theorem addChild {t : TypeRef} (ht : c.graph.Has t) (parent : Nat) :
    Compilation.Closed { c with graph := c.graph.addChild parent t } := by
  have hgrows := Graph.Grows.addChild c.graph parent t
  refine h.of_map hgrows.size_le (fun id => Graph.node?_addChild parent t) (fun n s hs => ?_)
    fun p => ⟨_, rfl⟩
  cases n with
  | message m =>
    simp only [Node.withChild, Node.mentions, List.mem_append, List.mem_singleton] at hs ⊢
    rcases hs with (hs | rfl) | hs
    · exact .inl (.inl hs)
    · exact .inr (ht.mono hgrows.size_le)
    · exact .inl (.inr hs)
  | package p => simp [Node.withChild, Node.mentions] at hs
  | _ => exact .inl hs

theorem declare {scope : Scope} {parent : Nat} {t : TypeRef} (ht : c.graph.Has t) :
    (c.declare scope parent t).Closed := by
  have hgrows := Graph.Grows.addChild c.graph parent t
  unfold Compilation.declare
  rcases Registry.register_cases c.graph c.registry t parent scope with
    ⟨heq, -⟩ | ⟨id, rfl, -, -, -, ⟨-, heq⟩ | ⟨-, heq⟩⟩ <;> rw [heq]
  · exact h
  · exact ⟨h.mentions, h.definitions, h.wrappers, h.log, h.package⟩
  · have hchild := h.addChild ht parent
    refine ⟨hchild.mentions, hchild.definitions, hchild.wrappers, fun entry hentry => ?_,
      hchild.package⟩
    rcases List.mem_append.1 hentry with hold | hnew
    · exact hchild.log entry hold
    · obtain rfl := List.mem_singleton.1 hnew
      exact Nat.lt_of_lt_of_le ht hgrows.size_le

theorem remember (base : String) {wrapper : Nat} (hw : c.graph.Has (.node wrapper)) :
    (c.remember base wrapper).Closed :=
  { h with
    wrappers := fun entry hentry => by
      rcases List.mem_append.1 hentry with hold | hnew
      · exact h.wrappers entry hold
      · obtain rfl := List.mem_singleton.1 hnew
        exact hw }

theorem compileReference {ref : String} {d : Definition}
    (href : compileReference ref c = .ok (d, c')) : c'.Closed ∧ c'.graph.Has d.unwrap := by
  rcases compileReference_ok href with ⟨hd, rfl⟩ | ⟨-, -, rfl, rfl⟩
  · exact ⟨h, h.has_definition hd⟩
  · refine ⟨h.withNode (by simp [Node.mentions]), ?_⟩
    show c.graph.size < (c.graph.add _).1.size
    simp

theorem addField {message : Nat} {f : Proto.Field TypeRef Value} (hf : c.graph.Has f.type)
    (hadd : addField message f c = .ok ((), c')) : c'.Closed := by
  rcases addField_ok hadd with ⟨-, rfl⟩ | ⟨m, hm, -, -, rfl⟩
  · exact h
  · refine h.put (Graph.node?_of_message? hm) (fun t ht => ?_) (fun p hp => nomatch hp)
    simp only [Node.mentions, List.map_append, List.mem_append, List.map_cons, List.map_nil,
      List.mem_singleton] at ht ⊢
    rcases ht with ht | ht | rfl
    · exact .inl (.inl ht)
    · exact .inl (.inr ht)
    · exact .inr hf

theorem addFields {message : Nat} {fields : List (CompiledProperty × Int)}
    (hf : ∀ field ∈ fields, c.graph.Has field.1.type)
    (hadd : addFields message fields c = .ok ((), c')) : c'.Closed := by
  refine (forM_ok_induct (P := fun d => d.Closed ∧ c.graph.size ≤ d.graph.size)
    (fun field hfield d d' hstep hd => ?_) hadd ⟨h, Nat.le_refl _⟩).1
  obtain ⟨d₁, hadd, rfl⟩ := addPropertyField_ok hstep
  have hgrows : d.Grows [message] d₁ := addField_grows (by simp) hadd
  have hgrows' : d₁.Grows [d₁.package] (d₁.importing _) :=
    .importing (by simp) (d₁.graph.typeName (importedType d₁.graph field.1.type))
  have hhas := (hf field hfield).mono hd.2
  exact ⟨(hd.1.addField hhas hadd).importing _,
    Nat.le_trans hd.2 (Nat.le_trans hgrows.size_le hgrows'.size_le)⟩

end Compilation.Closed

theorem has_withNode (c : Compilation) (n : Node) :
    (c.withNode n).graph.Has (.node c.graph.size) := by
  show c.graph.size < (c.graph.add n).1.size
  simp

/-- A type that is there is declared, and stays there. -/
theorem Compilation.Closed.declaredIn {scope : Scope} {parent : Nat} {c : Compilation}
    (h : c.Closed) {t : TypeRef} (ht : c.graph.Has t) :
    (c.declare scope parent t).Closed ∧ ∀ s ∈ [t], (c.declare scope parent t).graph.Has s := by
  have hgrows : c.Grows [parent] (c.declare scope parent t) := .declare (by simp) t
  refine ⟨h.declare ht, fun s hs => ?_⟩
  obtain rfl := List.mem_singleton.1 hs
  exact ht.mono hgrows.size_le

theorem Compilation.Closed.declared {scope : Scope} {c : Compilation} (h : c.Closed) {t : TypeRef}
    (ht : c.graph.Has t) :
    (c.declareHere scope t).Closed ∧ ∀ s ∈ [t], (c.declareHere scope t).graph.Has s := by
  cases scope with
  | nil => exact ⟨h, fun s hs => List.mem_singleton.1 hs ▸ ht⟩
  | cons parent rest => exact h.declaredIn ht

/-! ## Runs -/

variable {env : Environment} {scope : Scope} {c c' : Compilation}

/-- A run keeps a state closed, and the types that come out of it are there. -/
theorem Runs.closed {ts : List TypeRef} (h : Runs env scope c ts c') (hpackage : c.package ∈ scope)
    (hc : c.Closed) : c'.Closed ∧ ∀ t ∈ ts, c'.graph.Has t := by
  induction h with
  | nil => exact ⟨hc, by simp⟩
  | cons hfirst hrest ih ih' =>
    have hgrows := hfirst.grows hpackage
    have hpackage' := hgrows.package ▸ hpackage
    obtain ⟨hc₁, ht⟩ := ih hpackage hc
    obtain ⟨hc₂, hts⟩ := ih' hpackage' hc₁
    refine ⟨hc₂, fun s hs => ?_⟩
    rcases List.mem_cons.1 hs with rfl | hs
    · exact (ht _ (by simp)).mono (hrest.grows hpackage').size_le
    · exact hts s hs
  | builtin b _ ih => exact ⟨(ih hpackage hc).1, by simp [Graph.Has]⟩
  | importing name hrun ih =>
    obtain ⟨hc₁, hts⟩ := ih hpackage hc
    have hpackage₁ := (hrun.grows hpackage).package ▸ hpackage
    have hgrows := Compilation.Grows.importing hpackage₁ name
    exact ⟨hc₁.importing name, fun t ht => (hts t ht).mono hgrows.size_le⟩
  | reference href =>
    obtain ⟨hc₁, ht⟩ := hc.compileReference href
    exact ⟨hc₁, by simpa using ht⟩
  | found name hfound => exact ⟨hc, by simpa using hc.has_lookup hfound⟩
  | @declared scope c c₁ t hrun ih =>
    obtain ⟨hc₁, ht⟩ := ih hpackage hc
    exact hc₁.declared (ht t (by simp))
  | @enumeration scope c rawName elements =>
    exact (hc.withNode (by simp [Node.mentions])).declared (has_withNode c _)
  | @map scope c c₁ value hrun ih =>
    obtain ⟨hc₁, ht⟩ := ih hpackage hc
    have hvalue := ht value (by simp)
    refine ⟨hc₁.withNode (by simpa [Node.mentions, Graph.Has] using hvalue), ?_⟩
    simpa using has_withNode c₁ _
  | @objectWrapper scope c c₁ item rawName field about comment hrun ih =>
    obtain ⟨hc₁, ht⟩ := ih hpackage hc
    have hitem := ht item (by simp)
    exact (hc₁.withNode (by simpa [Node.mentions, listWrapper] using hitem)).declared
      (has_withNode c₁ _)
  | @sharedWrapper scope c c₁ ref d rawName _ hitem =>
    obtain ⟨hc₁, ht⟩ := hc.compileReference hitem
    have hnode := hc₁.withNode (n := .message (listWrapper
        (listWrapperName env.spec c₁ (Name.pascal rawName)) "items" (Name.pascal rawName)
        (.text "") d.unwrap)) (by simpa [Node.mentions, listWrapper] using ht)
    exact (hnode.remember (Name.pascal rawName) (has_withNode c₁ _)).declaredIn (has_withNode c₁ _)
  | wrapped hw => exact ⟨hc, by simpa using hc.has_wrapper hw⟩
  | @message scope c c₁ c₂ ts rawName comment fields _ hrun htypes hadd ih =>
    have hnode := hc.withNode (n := .message ⟨Name.pascal rawName, [], [], comment⟩)
      (by simp [Node.mentions])
    have hinner : c.package ∈ c.graph.size :: scope := List.mem_cons_of_mem _ hpackage
    obtain ⟨hc₁, hts⟩ := ih hinner hnode
    have hgrows := hrun.grows hinner
    have hfields : c₁.Grows (c.graph.size :: scope) c₂ :=
      addFields_grows (hgrows.package ▸ hinner) (List.mem_cons_self ..) hadd
    refine (hc₁.addFields (fun field hfield => hts _ (htypes field hfield)) hadd).declared ?_
    exact ((has_withNode c _).mono hgrows.size_le).mono hfields.size_le
  | @arrayResponse scope c c₁ item name _ hrun ih =>
    obtain ⟨hc₁, ht⟩ := ih hpackage hc
    have hitem := ht item (by simp)
    have hnode := hc₁.withNode (n := .message (arrayMessage name item))
      (by simpa [Node.mentions, arrayMessage] using hitem)
    have hpackage₁ : (c₁.withNode (.message (arrayMessage name item))).package ∈ scope :=
      (hrun.grows hpackage).package ▸ hpackage
    have himport : (c₁.withNode (.message (arrayMessage name item))).Grows scope _ :=
      .importing hpackage₁ ((c₁.withNode (.message (arrayMessage name item))).graph.typeName item)
    exact (hnode.importing _).declared ((has_withNode c₁ _).mono himport.size_le)

/-! ## Building -/

theorem Compilation.Closed.importingAll (hc : c.Closed) (names : List String) :
    (c.importingAll names).Closed := by
  induction names generalizing c with
  | nil => exact hc
  | cons name rest ih => exact ih (hc.importing name)

theorem Compilation.Closed.defining (hc : c.Closed) (ref : String) {d : Definition}
    (hd : c.graph.Has d.unwrap) : (c.defining ref d).Closed := by
  unfold Compilation.defining
  split
  · exact hc
  · refine { hc with definitions := fun entry hentry => ?_ }
    rcases List.mem_append.1 hentry with hold | hnew
    · exact hc.definitions entry hold
    · obtain rfl := List.mem_singleton.1 hnew
      exact hd

theorem Compilation.Closed.extending (hc : c.Closed) (e : Proto.Extension) :
    (c.extending e).Closed :=
  (hc.withNode (n := .extension e) (by simp [Node.mentions])).addChild (has_withNode c _) c.package

theorem Compilation.Closed.serving (hc : c.Closed) {rpc : Rpc TypeRef}
    (hrequest : c.graph.Has rpc.parameter) (hresponse : c.graph.Has rpc.response) :
    (c.serving rpc).Closed := by
  rcases serving_cases (c := c) rpc with h | ⟨s, c₁, c₂, rfl, rfl, -, hnode, h⟩ <;> rw [h]
  · exact hc
  · have hfirst : c.Grows [c.package] (c.importing (c.graph.typeName rpc.parameter)) :=
      .importing (by simp) _
    have hgrows := hfirst.trans (.importing (by simp [hfirst.package])
      ((c.importing (c.graph.typeName rpc.parameter)).graph.typeName rpc.response))
    have hclosed := (hc.importing (c.graph.typeName rpc.parameter)).importing
      ((c.importing (c.graph.typeName rpc.parameter)).graph.typeName rpc.response)
    refine hclosed.put hnode (fun t ht => ?_) (fun p hp => nomatch hp)
    simp only [Node.mentions, List.flatMap_append, List.flatMap_cons, List.flatMap_nil,
      List.append_nil, List.mem_append, List.mem_cons, List.not_mem_nil, or_false] at ht ⊢
    rcases ht with ht | rfl | rfl
    · exact .inl ht
    · exact .inr (hrequest.mono hgrows.size_le)
    · exact .inr (hresponse.mono hgrows.size_le)

/-- Building keeps a state closed. -/
theorem Builds.closed {package : Nat} (h : Builds env package c c') (hp : c.package = package)
    (hc : c.Closed) : c'.Closed := by
  induction h with
  | refl => exact hc
  | importFile file _ ih => exact ih.importFile file
  | define ref d hbuilds hrun ih =>
    have hpackage := (hbuilds.grows hp).package.trans hp
    obtain ⟨hc₂, hd⟩ := hrun.closed (by simp [hpackage]) ih
    exact hc₂.defining ref (hd _ (by simp))
  | extension e _ ih => exact (ih.importingAll _).extending e
  | procedure rpc hbuilds hrun ih =>
    have hpackage := (hbuilds.grows hp).package.trans hp
    obtain ⟨hc₂, hts⟩ := hrun.closed (by simp [hpackage]) ih
    exact hc₂.serving (hts _ (by simp)) (hts _ (by simp))

/-! ## Starts -/

/-- At the start there is the package with its service, and nothing in them. -/
theorem start_node? {packageName serviceName : String} {options : List (String × String)} {id : Nat}
    {n : Node} (hn : (start packageName serviceName options).graph.node? id = some n) :
    (id = 0 ∧ n = .package ⟨packageName, [], options, [.node 1]⟩) ∨
      (id = 1 ∧ n = .service ⟨serviceName, []⟩) := by
  match id with
  | 0 => exact .inl ⟨rfl, (Option.some.inj hn).symm⟩
  | 1 => exact .inr ⟨rfl, (Option.some.inj hn).symm⟩
  | _ + 2 => cases hn

theorem start_closed (packageName serviceName : String) (options : List (String × String)) :
    (start packageName serviceName options).Closed where
  mentions id n hn t ht := by
    rcases start_node? hn with ⟨-, rfl⟩ | ⟨-, rfl⟩ <;> cases ht
  definitions _ h := nomatch h
  wrappers _ h := nomatch h
  log _ h := nomatch h
  package := ⟨_, rfl⟩

/-- The start of the compilation of a description is a start. -/
theorem startOf_is_start (env : Environment) : ∃ packageName serviceName options,
    startOf env = start packageName serviceName options := by
  unfold startOf
  dsimp only
  split
  · exact ⟨_, _, _, rfl⟩
  · exact ⟨_, _, _, rfl⟩

end ApiProto.Compile
