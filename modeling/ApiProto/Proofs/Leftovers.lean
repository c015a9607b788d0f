import ApiProto.Document.Build
import ApiProto.Proofs.AtRest
import ApiProto.Proofs.Awaiting

/-!
# References left over

Once references have been resolved, a compilation makes no more of them, and all that it takes up
from before has been resolved, but for the shared list wrappers: a wrapper that could not be reached
when references were resolved still lists a reference, and may be taken up later.

* `Usable`, `Compilation.Clean` — what may be used once references have been resolved.
* `Runs.clean`, `Builds.clean` — nothing else is used.
* `dangling_eq_nil_iff_wrappers` — what is left over is listed by a shared list wrapper.
-/

namespace ApiProto.Compile

open Proto Document CompileM

/-- What may be used once references have been resolved: builtin types, some of the nodes that were
there, and all later ones. -/
def Usable (old : Nat → Prop) (base : Nat) : TypeRef → Prop
  | .builtin _ => True
  | .node id => old id ∨ base ≤ id

/-- A node that is no reference and mentions only what may be used. -/
def Fine (old : Nat → Prop) (base : Nat) (n : Node) : Prop :=
  (∀ ref, n ≠ .reference ref) ∧ ∀ t ∈ n.mentions, Usable old base t

/-- A state in which later nodes and services mention only what may be used, and in which only that
can be taken up. -/
structure Compilation.Clean (old : Nat → Prop) (base : Nat) (c : Compilation) : Prop where
  deferring : c.deferring = false
  package : c.package < base
  size : base ≤ c.graph.size
  nodes : ∀ id n, c.graph.node? id = some n → (base ≤ id ∨ ∃ s, n = .service s) → Fine old base n
  children : ∀ t ∈ c.graph.children c.package, Usable old base t
  definitions : ∀ entry ∈ c.definitions, Usable old base entry.2.unwrap
  wrappers : ∀ entry ∈ c.wrappers, Usable old base (.node entry.2)
  log : ∀ entry ∈ c.registry.log, (entry.1 = c.package ∨ base ≤ entry.1) →
    Usable old base (.node entry.2)

variable {old : Nat → Prop} {base : Nat} {env : Environment} {scope : Scope} {c c' : Compilation}

namespace Compilation.Clean

variable (h : c.Clean old base)
include h

theorem usable_new : Usable old base (.node c.graph.size) := .inr h.size

theorem usable_definition {ref : String} {d : Definition} (hd : c.definition? ref = some d) :
    Usable old base d.unwrap := by
  unfold definition? at hd
  split at hd
  · obtain rfl := Option.some.inj hd
    trivial
  · obtain ⟨before, after, heq, -⟩ := List.lookup_eq_some_iff.1 hd
    exact h.definitions (ref, d) (by simp [heq])

theorem usable_lookup (hscope : ∀ x ∈ scope, x = c.package ∨ base ≤ x) {name : String}
    {t : TypeRef} (ht : c.registry.lookup c.graph name scope = some t) : Usable old base t := by
  rcases Registry.lookup_some ht with ⟨b, rfl⟩ | ⟨container, id, rfl, hcontainer, hlog, -⟩
  · trivial
  · exact h.log _ hlog (hscope _ hcontainer)

theorem usable_wrapper {name : String} {wrapper : Nat}
    (hw : c.wrappers.lookup name = some wrapper) : Usable old base (.node wrapper) := by
  obtain ⟨before, after, heq, -⟩ := List.lookup_eq_some_iff.1 hw
  exact h.wrappers (name, wrapper) (by simp [heq])

/-- A reference with a definition is what is defined, and there are no others. -/
theorem compileReference {ref : String} {d : Definition}
    (href : compileReference ref c = .ok (d, c')) : c' = c ∧ Usable old base d.unwrap := by
  rcases compileReference_ok href with ⟨hd, rfl⟩ | ⟨-, hdeferring, -, -⟩
  · exact ⟨rfl, h.usable_definition hd⟩
  · exact nomatch h.deferring.symm.trans hdeferring

theorem of_graph {g : Graph} (hsize : c.graph.size ≤ g.size)
    (hnodes : ∀ id n', g.node? id = some n' → (base ≤ id ∨ ∃ s, n' = .service s) →
      c.graph.node? id = some n' ∨ Fine old base n')
    (hchildren : ∀ t ∈ g.children c.package,
      t ∈ c.graph.children c.package ∨ Usable old base t) :
    Compilation.Clean old base { c with graph := g } where
  deferring := h.deferring
  package := h.package
  size := Nat.le_trans h.size hsize
  nodes id n' hn' hid := (hnodes id n' hn' hid).elim (fun hn => h.nodes id n' hn hid) fun hf => hf
  children t ht := (hchildren t ht).elim (h.children t) fun hu => hu
  definitions := h.definitions
  wrappers := h.wrappers
  log := h.log

theorem withNode {n : Node} (hn : Fine old base n) : (c.withNode n).Clean old base := by
  refine h.of_graph (by simp) (fun id n' hn' _ => ?_) fun t ht => .inl ?_
  · rw [Graph.node?_add] at hn'
    split at hn'
    · obtain rfl := Option.some.inj hn'
      exact .inr hn
    · exact .inl hn'
  · have hother : c.package ≠ c.graph.size := Nat.ne_of_lt (Nat.lt_of_lt_of_le h.package h.size)
    unfold Graph.children at ht
    rw [Graph.node?_add, if_neg hother] at ht
    exact ht

theorem importFile (file : String) : (c.importFile file).Clean old base := by
  have hgrows : c.Grows [c.package] (c.importFile file) := .importFile (by simp) file
  have hnode : ∀ id n', (c.graph.addImport c.package file).node? id = some n' →
      ∃ n, c.graph.node? id = some n ∧ n'.declarations = n.declarations ∧
        (n' = n ∨ Fine old base n') := by
    intro id n' hn'
    rw [Graph.node?_addImport] at hn'
    split at hn'
    · obtain ⟨n, hn, rfl⟩ := Option.map_eq_some_iff.1 hn'
      refine ⟨n, hn, ?_⟩
      cases n with
      | package p =>
        rw [Node.withImport]
        split
        · exact ⟨rfl, .inl rfl⟩
        · exact ⟨rfl, .inr ⟨by simp, by simp [Node.mentions]⟩⟩
      | _ => exact ⟨rfl, .inl rfl⟩
    · exact ⟨n', hn', rfl, .inl rfl⟩
  refine h.of_graph hgrows.size_le (fun id n' hn' _ => ?_) fun t ht => .inl ?_
  · obtain ⟨n, hn, -, rfl | hfine⟩ := hnode id n' hn'
    · exact .inl hn
    · exact .inr hfine
  · obtain ⟨n', hn', hmem⟩ := Graph.mem_children_iff.1 ht
    obtain ⟨n, hn, hsame, -⟩ := hnode _ n' hn'
    exact Graph.mem_children_iff.2 ⟨n, hn, hsame ▸ hmem⟩

theorem importing (name : String) : (c.importing name).Clean old base := by
  unfold Compilation.importing
  split
  · exact h.importFile _
  · exact h

theorem addChild (parent : Nat) {t : TypeRef} (ht : Usable old base t) :
    Compilation.Clean old base { c with graph := c.graph.addChild parent t } := by
  refine h.of_graph (Graph.Grows.addChild c.graph parent t).size_le (fun id n' hn' hid => ?_)
    fun s hs => (Graph.mem_children_addChild hs).imp_right fun ⟨_, heq⟩ => by rwa [heq]
  rw [Graph.node?_addChild] at hn'
  split at hn'
  · obtain ⟨n, hn, rfl⟩ := Option.map_eq_some_iff.1 hn'
    cases n with
    | package p => exact .inr ⟨nofun, fun _ hmem => nomatch hmem⟩
    | message m =>
      have hbase := hid.resolve_right fun ⟨_, heq⟩ => nomatch heq
      refine .inr ⟨nofun, fun s hs => ?_⟩
      have hold := (h.nodes id _ hn (.inl hbase)).2
      simp only [Node.withChild, Node.mentions, List.mem_append, List.mem_singleton] at hs hold
      rcases hs with (hs | rfl) | hs
      · exact hold s (.inl hs)
      · exact ht
      · exact hold s (.inr hs)
    | _ => exact .inl hn
  · exact .inl hn'

theorem declare (outer : Scope) (parent : Nat) {t : TypeRef} (ht : Usable old base t) :
    (c.declare outer parent t).Clean old base := by
  unfold Compilation.declare
  rcases Registry.register_cases c.graph c.registry t parent outer with
    ⟨heq, -⟩ | ⟨id, rfl, -, -, -, ⟨-, heq⟩ | ⟨-, heq⟩⟩ <;> rw [heq]
  · exact h
  · exact { h with }
  · have hchild := h.addChild parent ht
    refine { hchild with log := fun entry hentry hplace => ?_ }
    rcases List.mem_append.1 hentry with hold | hlast
    · exact hchild.log entry hold hplace
    · obtain rfl := List.mem_singleton.1 hlast
      exact ht

theorem declareHere {t : TypeRef} (ht : Usable old base t) :
    (c.declareHere scope t).Clean old base := by
  cases scope with
  | nil => exact h
  | cons parent rest => exact h.declare _ parent ht

theorem remember (name : String) {wrapper : Nat} (hw : Usable old base (.node wrapper)) :
    (c.remember name wrapper).Clean old base :=
  { h with
    wrappers := fun entry hentry => by
      rcases List.mem_append.1 hentry with hold | hlast
      · exact h.wrappers entry hold
      · obtain rfl := List.mem_singleton.1 hlast
        exact hw }

/-- A state in which a message or a service mentions something more. -/
theorem put {id : Nat} {n n' : Node} (hn : c.graph.node? id = some n)
    (hsame : n'.declarations = n.declarations)
    (hfine : (base ≤ id ∨ ∃ s, n' = .service s) → Fine old base n') :
    Compilation.Clean old base { c with graph := c.graph.put id n' } := by
  have hnode : ∀ k m', (c.graph.put id n').node? k = some m' →
      c.graph.node? k = some m' ∨ k = id ∧ m' = n' := by
    intro k m' hm'
    rcases Decidable.em (k = id) with rfl | hne
    · exact .inr ⟨rfl, Option.some.inj (hm'.symm.trans (Graph.node?_put_self hn n'))⟩
    · exact .inl ((Graph.node?_put_of_ne hne n').symm.trans hm')
  refine h.of_graph (by simp) (fun k m' hm' hk => ?_) fun t ht => .inl ?_
  · rcases hnode k m' hm' with hold | ⟨rfl, rfl⟩
    · exact .inl hold
    · exact .inr (hfine hk)
  · obtain ⟨m', hm', hmem⟩ := Graph.mem_children_iff.1 ht
    rcases hnode _ m' hm' with hold | ⟨rfl, rfl⟩
    · exact Graph.mem_children_iff.2 ⟨m', hold, hmem⟩
    · exact Graph.mem_children_iff.2 ⟨n, hn, hsame ▸ hmem⟩

theorem addField {message : Nat} {f : Proto.Field TypeRef Value} (hf : Usable old base f.type)
    (hadd : addField message f c = .ok ((), c')) : c'.Clean old base := by
  rcases addField_ok hadd with ⟨-, rfl⟩ | ⟨m, hm, -, -, rfl⟩
  · exact h
  · have hn := Graph.node?_of_message? hm
    refine h.put hn rfl fun hplace => ⟨nofun, fun t ht => ?_⟩
    have hbase := hplace.resolve_right fun ⟨_, heq⟩ => nomatch heq
    have hold := (h.nodes message _ hn (.inl hbase)).2
    simp only [Node.mentions, List.map_append, List.mem_append, List.map_cons, List.map_nil,
      List.mem_singleton] at ht hold
    rcases ht with ht | ht | rfl
    · exact hold t (.inl ht)
    · exact hold t (.inr ht)
    · exact hf

theorem addFields {message : Nat} {fields : List (CompiledProperty × Int)}
    (hf : ∀ field ∈ fields, Usable old base field.1.type)
    (hadd : addFields message fields c = .ok ((), c')) : c'.Clean old base := by
  refine forM_ok_induct (P := fun d => d.Clean old base) (fun field hfield d d' hstep hd => ?_)
    hadd h
  obtain ⟨d₁, hadd, rfl⟩ := addPropertyField_ok hstep
  exact (hd.addField (hf field hfield) hadd).importing _

end Compilation.Clean

theorem fine_enumeration (e : Enumeration) : Fine old base (.enumeration e) :=
  ⟨nofun, fun _ ht => nomatch ht⟩

theorem fine_message {name : String} {comment : Value} {fields : List (Proto.Field TypeRef Value)}
    (h : ∀ f ∈ fields, Usable old base f.type) :
    Fine old base (.message ⟨name, fields, [], comment⟩) :=
  ⟨nofun, fun _ ht => by
    obtain ⟨f, hf, rfl⟩ := List.mem_map.1 ht
    exact h f hf⟩

/-- In a run once references have been resolved, only what may be used is used. -/
theorem Runs.clean {ts : List TypeRef} (h : Runs env scope c ts c') (hpackage : c.package ∈ scope)
    (hscope : ∀ x ∈ scope, x = c.package ∨ base ≤ x) (hc : c.Clean old base) :
    c'.Clean old base ∧ ∀ t ∈ ts, Usable old base t := by
  induction h with
  | nil => exact ⟨hc, by simp⟩
  | cons hfirst _ ih ih' =>
    have hsame := (hfirst.grows hpackage).package
    obtain ⟨hc₁, ht⟩ := ih hpackage hscope hc
    obtain ⟨hc₂, hts⟩ := ih' (hsame ▸ hpackage) (hsame ▸ hscope) hc₁
    refine ⟨hc₂, fun s hs => ?_⟩
    rcases List.mem_cons.1 hs with rfl | hs
    · exact ht _ (by simp)
    · exact hts s hs
  | builtin b _ ih => exact ⟨(ih hpackage hscope hc).1, by simp [Usable]⟩
  | importing name _ ih =>
    obtain ⟨hc₁, hts⟩ := ih hpackage hscope hc
    exact ⟨hc₁.importing name, hts⟩
  | reference href =>
    obtain ⟨rfl, ht⟩ := hc.compileReference href
    exact ⟨hc, by simpa using ht⟩
  | found name hfound => exact ⟨hc, by simpa using hc.usable_lookup hscope hfound⟩
  | declared _ ih =>
    obtain ⟨hc₁, ht⟩ := ih hpackage hscope hc
    exact ⟨hc₁.declareHere (ht _ (by simp)), ht⟩
  | enumeration rawName elements =>
    refine ⟨(hc.withNode (fine_enumeration _)).declareHere hc.usable_new, ?_⟩
    simpa using hc.usable_new
  | @map scope c c₁ value _ ih =>
    obtain ⟨hc₁, ht⟩ := ih hpackage hscope hc
    refine ⟨hc₁.withNode ⟨nofun, fun t hmem => ?_⟩, by simpa using hc₁.usable_new⟩
    rcases List.mem_pair.1 hmem with rfl | rfl
    · trivial
    · exact ht _ (by simp)
  | objectWrapper rawName field about comment _ ih =>
    obtain ⟨hc₁, ht⟩ := ih hpackage hscope hc
    refine ⟨(hc₁.withNode (fine_message ?_)).declareHere hc₁.usable_new,
      by simpa using hc₁.usable_new⟩
    simpa using ht
  | sharedWrapper rawName _ hitem =>
    obtain ⟨rfl, ht⟩ := hc.compileReference hitem
    refine ⟨((hc.withNode (fine_message ?_)).remember _ hc.usable_new).declare _ _ hc.usable_new,
      by simpa using hc.usable_new⟩
    simpa using ht
  | wrapped hw => exact ⟨hc, by simpa using hc.usable_wrapper hw⟩
  | @message scope c c₁ c₂ ts rawName comment fields _ _ htypes hadd ih =>
    have hinner := hc.withNode (n := .message ⟨Name.pascal rawName, [], [], comment⟩)
      (fine_message (by simp))
    obtain ⟨hc₁, hts⟩ := ih (List.mem_cons_of_mem _ hpackage) (fun x hx => by
      rcases List.mem_cons.1 hx with rfl | hx
      · exact .inr hc.size
      · exact hscope x hx) hinner
    have hc₂ := hc₁.addFields (fun field hfield => hts _ (htypes field hfield)) hadd
    exact ⟨hc₂.declareHere hc.usable_new, by simpa using hc.usable_new⟩
  | arrayResponse name _ _ ih =>
    obtain ⟨hc₁, ht⟩ := ih hpackage hscope hc
    refine ⟨((hc₁.withNode (fine_message ?_)).importing _).declareHere hc₁.usable_new,
      by simpa using hc₁.usable_new⟩
    simpa using ht

/-! ## Building -/

theorem Compilation.Clean.importingAll (h : c.Clean old base) (names : List String) :
    (c.importingAll names).Clean old base := by
  induction names generalizing c with
  | nil => exact h
  | cons name rest ih => exact ih (h.importing name)

theorem Compilation.Clean.defining (h : c.Clean old base) (ref : String) {d : Definition}
    (hd : Usable old base d.unwrap) : (c.defining ref d).Clean old base := by
  unfold Compilation.defining
  split
  · exact h
  · refine { h with definitions := fun entry hentry => ?_ }
    rcases List.mem_append.1 hentry with hold | hlast
    · exact h.definitions entry hold
    · obtain rfl := List.mem_singleton.1 hlast
      exact hd

theorem Compilation.Clean.extending (h : c.Clean old base) (e : Proto.Extension) :
    (c.extending e).Clean old base :=
  (h.withNode (n := .extension e) ⟨nofun, fun _ ht => nomatch ht⟩).addChild c.package h.usable_new

theorem Compilation.Clean.serving (h : c.Clean old base) {rpc : Rpc TypeRef}
    (hrequest : Usable old base rpc.parameter) (hresponse : Usable old base rpc.response) :
    (c.serving rpc).Clean old base := by
  rcases serving_cases (c := c) rpc with heq | ⟨s, c₁, c₂, rfl, rfl, -, hnode, heq⟩ <;> rw [heq]
  · exact h
  · have hc₂ := (h.importing (c.graph.typeName rpc.parameter)).importing
      ((c.importing (c.graph.typeName rpc.parameter)).graph.typeName rpc.response)
    refine hc₂.put hnode rfl fun _ => ⟨nofun, fun t ht => ?_⟩
    have hold := (hc₂.nodes _ _ hnode (.inr ⟨s, rfl⟩)).2
    simp only [Node.mentions, List.flatMap_append, List.flatMap_cons, List.flatMap_nil,
      List.append_nil, List.mem_append, List.mem_cons, List.not_mem_nil, or_false] at ht hold
    rcases ht with ht | rfl | rfl
    · exact hold t ht
    · exact hrequest
    · exact hresponse

/-- Building uses only what may be used, once references have been resolved. -/
theorem Builds.clean {package : Nat} (h : Builds env package c c') (hp : c.package = package)
    (hc : c.Clean old base) : c'.Clean old base := by
  have hruns : ∀ {c₁ c₂ ts}, Builds env package c c₁ → Runs env [package] c₁ ts c₂ →
      c₁.Clean old base → c₂.Clean old base ∧ ∀ t ∈ ts, Usable old base t := by
    intro c₁ c₂ ts hbuilds hrun hc₁
    have hpackage := (hbuilds.grows hp).package.trans hp
    exact hrun.clean (by simp [hpackage]) (by simp [hpackage]) hc₁
  induction h with
  | refl => exact hc
  | importFile file _ ih => exact ih.importFile file
  | define ref d hbuilds hrun ih =>
    obtain ⟨hc₂, hd⟩ := hruns hbuilds hrun ih
    exact hc₂.defining ref (hd _ (by simp))
  | extension e _ ih => exact (ih.importingAll _).extending e
  | procedure rpc hbuilds hrun ih =>
    obtain ⟨hc₂, hts⟩ := hruns hbuilds hrun ih
    exact hc₂.serving (hts _ (by simp)) (hts _ (by simp))

/-! ## After resolution -/

/-- The service of the package is there. -/
def Compilation.HasService (c : Compilation) : Prop :=
  ∃ s, c.graph.node? c.service = some (.service s)

theorem Compilation.HasService.of_grows {opened : List Nat} (hgrows : c.Grows opened c')
    (h : c.HasService) : c'.HasService := by
  obtain ⟨s, hs⟩ := h
  obtain ⟨n', hn', hgrow⟩ := hgrows.nodes _ _ hs
  rw [Compilation.HasService, hgrows.service]
  cases hgrow with
  | same => exact ⟨s, hn'⟩
  | service => exact ⟨_, hn'⟩

theorem Compilation.HasService.resolved (hresolved : c.Resolved c') (h : c.HasService) :
    c'.HasService := by
  obtain ⟨s, hs⟩ := h
  obtain ⟨n', hn', hres⟩ := hresolved.graph.nodes _ _ hs
  cases hres
  exact ⟨s, hresolved.service ▸ hn'⟩

theorem startOf_hasService : (startOf env).HasService := by
  obtain ⟨packageName, serviceName, options, heq⟩ := startOf_is_start env
  rw [heq]
  exact ⟨_, rfl⟩

/-- What may be used of a state in which all has been resolved: what holds no references, and the
shared list wrappers. -/
def Compilation.Kept (c : Compilation) (visited : List Nat) (id : Nat) : Prop :=
  Resolution.Covers ⟨c.graph, visited⟩ (.node id) ∨ ∃ entry ∈ c.wrappers, entry.2 = id

theorem usable_of_covers {visited : List Nat} {t : TypeRef}
    (h : Resolution.Covers ⟨c.graph, visited⟩ t) : Usable (c.Kept visited) base t := by
  cases t with
  | builtin => trivial
  | node id => exact .inl (.inl h)

section Resolved

variable {visited : List Nat} (hw : c.Walked visited)
include hw

/-- When all has been resolved, a compilation uses what has been resolved. -/
theorem Compilation.Walked.clean (hc : c.Closed) (hr : c.Registered) :
    Compilation.Clean (c.Kept visited) c.graph.size { c with deferring := false } := by
  have hchildren : ∀ t ∈ c.graph.children c.package, Usable (c.Kept visited) c.graph.size t :=
    fun t ht => usable_of_covers (hw.wellTyped.covers_child hw.package ht)
  obtain ⟨p, hp⟩ := hc.package
  refine ⟨rfl, Graph.lt_size_of_node? hp, Nat.le_refl _, fun id n hn hid => ?_, hchildren,
    fun entry hentry => usable_of_covers (hw.definitions entry hentry),
    fun entry hentry => .inl (.inr ⟨entry, hentry, rfl⟩), fun entry hentry hplace => ?_⟩
  · rcases hid with hid | ⟨s, rfl⟩
    · exact absurd (Graph.lt_size_of_node? hn) (Nat.not_lt.2 hid)
    · refine ⟨nofun, fun t ht => ?_⟩
      simp [Node.mentions, hw.wellTyped.services id s hn] at ht
  · obtain ⟨container, id⟩ := entry
    have hmem := (hr.children container id (hr.declared _ hentry)).2 hentry
    rcases hplace with rfl | hplace
    · exact hchildren _ hmem
    · obtain ⟨n, hn, -⟩ := Graph.mem_children_iff.1 hmem
      exact absurd (Graph.lt_size_of_node? hn) (Nat.not_lt.2 hplace)

/-- What a resolved node mentions may be used. -/
theorem Compilation.Walked.usable_mention {id : Nat} {n : Node} {t : TypeRef}
    (hid : Resolution.Covers ⟨c.graph, visited⟩ (.node id)) (hn : c.graph.node? id = some n)
    (ht : t ∈ n.mentions) : Usable (c.Kept visited) base t := by
  refine usable_of_covers ?_
  cases hid with
  | message hn' hvisited =>
    obtain rfl := Option.some.inj (hn.symm.trans hn')
    obtain ⟨hvisits, hfields⟩ := hw.complete id hvisited not_false _ (Graph.message?_of_node? hn)
    rcases List.mem_append.1 ht with hchild | hfield
    · have hchildren := Graph.mem_children_iff.2 ⟨_, hn, hchild⟩
      have hall : Resolution.Visits ⟨c.graph, visited⟩ (c.graph.children id) := by
        intro k m hk hm
        obtain ⟨n', hn', hmem⟩ := Graph.mem_children_iff.1 hk
        obtain rfl := Option.some.inj (hn.symm.trans hn')
        exact hvisits k m hmem hm
      exact hw.wellTyped.covers_child hall hchildren
    · obtain ⟨f, hf, rfl⟩ := List.mem_map.1 hfield
      exact hfields f hf
  | map hn' hvalue =>
    obtain rfl := Option.some.inj (hn.symm.trans hn')
    rcases List.mem_pair.1 ht with rfl | rfl
    · exact hw.wellTyped.covers_key hn
    · exact hvalue
  | leaf href hmap hmessage =>
    cases n with
    | message m => exact absurd hn (hmessage m)
    | map key value => exact absurd hn (hmap key value)
    | service s => simp [Node.mentions, hw.wellTyped.services id s hn] at ht
    | _ => cases ht

variable {c₂ : Compilation}
  (hgrows : Compilation.Grows [c.package, c.service] { c with deferring := false } c₂)
  (hclean : c₂.Clean (c.Kept visited) c.graph.size)
include hgrows hclean

/-- What may be used is no reference. -/
theorem Compilation.Walked.not_isReference {t : TypeRef}
    (ht : Usable (c.Kept visited) c.graph.size t) : ¬ c₂.graph.IsReference t := by
  rintro ⟨id, ref, rfl, hn'⟩
  rcases Nat.lt_or_ge id c.graph.size with hlt | hge
  · obtain ⟨n, hn⟩ := Graph.node?_isSome hlt
    obtain ⟨n', hsome, hgrow⟩ := hgrows.nodes id n hn
    obtain rfl := Option.some.inj (hn'.symm.trans hsome)
    cases hgrow
    rcases ht with (hcovers | ⟨entry, hentry, rfl⟩) | hbase
    · exact hcovers.not_isReference ⟨id, ref, rfl, hn⟩
    · obtain ⟨m, hm, -⟩ := hw.wrappers entry hentry
      exact nomatch hn.symm.trans hm
    · exact absurd hlt (Nat.not_lt.2 hbase)
  · exact (hclean.nodes id _ hn' (.inl hge)).1 ref rfl

/-- All that can be reached may be used, but for the references that shared list wrappers list. -/
theorem Compilation.Walked.usable_of_reachable (hc : c.Closed) (hservice : c.HasService)
    {t : TypeRef} (ht : c₂.graph.Reachable c₂.package t) : Usable (c.Kept visited) c.graph.size t ∨
      c₂.graph.IsReference t ∧ ∃ entry ∈ c.wrappers, c₂.graph.Reachable c₂.package (.node entry.2) ∧
        ∃ m, c₂.graph.message? entry.2 = some m ∧ ∃ f ∈ m.fields, f.type = t := by
  induction ht with
  | child hmem => exact .inl (hclean.children _ hmem)
  | @mention id n' t hid hn' hmem ih =>
    rcases ih with husable | ⟨⟨_, ref, heq, href⟩, -⟩
    swap
    · obtain rfl := TypeRef.node.inj heq
      obtain rfl := Option.some.inj (hn'.symm.trans href)
      cases hmem
    by_cases hlater : c.graph.size ≤ id ∨ ∃ s, n' = .service s
    · exact .inl ((hclean.nodes id n' hn' hlater).2 t hmem)
    · -- an old node that is neither the package nor the service is what it was
      obtain ⟨hbase, hother⟩ := not_or.1 hlater
      obtain ⟨n, hn⟩ := Graph.node?_isSome (Nat.not_le.1 hbase)
      have hsame : c₂.graph.node? id = some n := by
        refine hgrows.closed id n hn fun hopen => ?_
        rcases List.mem_pair.1 hopen with rfl | rfl
        · obtain ⟨p, hp⟩ := hc.package
          obtain ⟨n'', hn'', hgrow⟩ := hgrows.nodes _ _ hp
          obtain rfl := Option.some.inj (hn'.symm.trans hn'')
          cases hgrow <;> cases hmem
        · obtain ⟨s, hs⟩ := hservice
          obtain ⟨n'', hn'', hgrow⟩ := hgrows.nodes _ _ hs
          obtain rfl := Option.some.inj (hn'.symm.trans hn'')
          cases hgrow <;> exact hother ⟨_, rfl⟩
      obtain rfl := Option.some.inj (hn'.symm.trans hsame)
      rcases husable with (hcovers | ⟨entry, hentry, rfl⟩) | hge
      · exact .inl (hw.usable_mention hcovers hn hmem)
      · obtain ⟨m, hm, hchildren, hfields⟩ := hw.wrappers entry hentry
        obtain rfl := Option.some.inj (hn.symm.trans hm)
        simp only [Node.mentions, hchildren, List.nil_append, List.mem_map] at hmem
        obtain ⟨f, hf, rfl⟩ := hmem
        rcases hfields f hf with href | hcovers
        · exact .inr ⟨hgrows.nodes.isReference href, entry, hentry, hid, m,
            Graph.message?_of_node? hn', f, hf, rfl⟩
        · exact .inl (usable_of_covers hcovers)
      · exact absurd hge hbase

end Resolved

/-- When all phases of a compilation have succeeded, references are left over if and only if a
shared list wrapper that was made for a named schema or a shared parameter can be reached and lists
one. -/
theorem dangling_eq_nil_iff_wrappers (h : compilePhases env (startOf env) = .ok ((), c)) :
    ∃ c₀, compileNamed env (startOf env) = .ok ((), c₀) ∧ c₀.wrappers <+: c.wrappers ∧
      (dangling c.graph c.package = [] ↔
        ∀ entry ∈ c₀.wrappers, c.graph.Reachable c.package (.node entry.2) →
          ∀ m, c.graph.message? entry.2 = some m →
            ∀ f ∈ m.fields, ¬ c.graph.IsReference f.type) := by
  obtain ⟨c₀, c₁, hnamed, hresolve, hbuilds⟩ := compilePhases_ok h
  have hresolved := resolveAll_ok hresolve
  have hstart := compileNamed_builds hnamed
  have hpackage : c₁.package = (startOf env).package :=
    hresolved.package_eq.trans (hstart.grows rfl).package
  rw [← hpackage] at hbuilds
  obtain ⟨home, hhomed, -⟩ := (hstart.atRest rfl startOf_atRest).resolved hresolved
  obtain ⟨visited, hw⟩ := resolveAll_walked hresolve (compileNamed_awaiting hnamed)
  have hservice := (startOf_hasService.of_grows (hstart.grows rfl)).resolved hresolved
  have hgrows := hbuilds.grows rfl
  have hclean := hbuilds.clean rfl (hw.clean hhomed.closed hhomed.registered)
  have hwrappers : c₀.wrappers = c₁.wrappers := hresolved.wrappers.symm
  refine ⟨c₀, hnamed, hwrappers ▸ hgrows.wrappers, ?_⟩
  rw [dangling_eq_nil_iff, hwrappers]
  constructor
  · intro hnone entry _ hreachable m hm f hf
    exact hnone _ (hreachable.mention (Graph.node?_of_message? hm)
      (List.mem_append_right _ (List.mem_map.2 ⟨f, hf, rfl⟩)))
  · intro hlists t ht
    rcases hw.usable_of_reachable hgrows hclean hhomed.closed hservice ht with
      husable | ⟨-, entry, hentry, hreachable, m, hm, f, hf, rfl⟩
    · exact hw.not_isReference hgrows hclean husable
    · exact hlists entry hentry hreachable m hm f hf

/-- Lists of pets under arbitrary keys: in the response of an operation, and, two maps deep, in a
schema that has a list of its own named after pets. -/
def petLists : Spec := { Spec.ofDefinitions [
    ("Owner", .object [
      ("Pet", .map (.array (.object [("n", .scalar "string")]))),
      ("zoo", .map (.map (.array (.reference "#/definitions/Pet"))))]),
    ("Pet", .object [("name", .scalar "string")])] with
  paths := [("/a", .single [] { (default : Endpoint) with
    summary := .text ""
    description := .text ""
    operationId := .text "find"
    responses := [("200", ⟨.text "", some (.object [
      ("pets", .map (.array (.reference "#/definitions/Pet")))])⟩)] })] }

/-- Whether all phases of the compilation of a description succeed, with a state that passes a
test. -/
def passesPhases (env : Environment) (test : Compilation → Bool) : Bool :=
  match compilePhases env (startOf env) with
  | .ok (_, c) => test c
  | .error _ => false

theorem exists_of_passesPhases {test : Compilation → Bool} (h : passesPhases env test = true) :
    ∃ c, compilePhases env (startOf env) = .ok ((), c) ∧ test c = true := by
  unfold passesPhases at h
  split at h
  · next c hphases => exact ⟨c, hphases, h⟩
  · cases h

theorem dangling_eq_nil_iff_wrappers_petLists : ∃ c,
    compilePhases ⟨⟨false, false, false, false, "pet"⟩, petLists⟩
      (startOf ⟨⟨false, false, false, false, "pet"⟩, petLists⟩) = .ok ((), c) ∧
    ∃ c₀, compileNamed ⟨⟨false, false, false, false, "pet"⟩, petLists⟩
        (startOf ⟨⟨false, false, false, false, "pet"⟩, petLists⟩) = .ok ((), c₀) ∧
      c₀.wrappers <+: c.wrappers ∧
      (dangling c.graph c.package = [] ↔
        ∀ entry ∈ c₀.wrappers, c.graph.Reachable c.package (.node entry.2) →
          ∀ m, c.graph.message? entry.2 = some m →
            ∀ f ∈ m.fields, ¬ c.graph.IsReference f.type) := by
  obtain ⟨c, hphases, -⟩ := exists_of_passesPhases
    (show passesPhases ⟨⟨false, false, false, false, "pet"⟩, petLists⟩ (fun _ => true) = true by
      decide +kernel)
  exact ⟨c, hphases, dangling_eq_nil_iff_wrappers hphases⟩

/-- Whether a type leads to a reference in a number of steps. -/
def leadsToReference (g : Graph) : Nat → TypeRef → Bool
  | _, .builtin _ | 0, .node _ => false
  | depth + 1, .node id =>
    match g.node? id with
    | some (.reference _) => true
    | some n => n.mentions.any (leadsToReference g depth)
    | none => false

theorem exists_of_leadsToReference {g : Graph} {package depth : Nat} {t : TypeRef}
    (ht : g.Reachable package t) (h : leadsToReference g depth t = true) :
    ∃ t', g.Reachable package t' ∧ g.IsReference t' := by
  induction depth generalizing t with
  | zero => cases t <;> cases h
  | succ depth ih =>
    cases t with
    | builtin => cases h
    | node id =>
      unfold leadsToReference at h
      split at h
      · next ref hn => exact ⟨_, ht, id, ref, rfl, hn⟩
      · next n _ hn =>
        obtain ⟨t', hmem, ht'⟩ := List.any_eq_true.1 h
        exact ih (ht.mention hn hmem) ht'
      · cases h

/-- All phases succeed, but the wrapper for the lists of pets still lists a reference. -/
theorem dangling_ne_nil_petLists : ∃ c,
    compilePhases ⟨⟨false, false, false, false, "pet"⟩, petLists⟩
      (startOf ⟨⟨false, false, false, false, "pet"⟩, petLists⟩) = .ok ((), c) ∧
    dangling c.graph c.package ≠ [] := by
  obtain ⟨c, hphases, htest⟩ := exists_of_passesPhases
    (show passesPhases ⟨⟨false, false, false, false, "pet"⟩, petLists⟩ (fun c =>
      (c.graph.children c.package).any (leadsToReference c.graph 4)) = true by decide +kernel)
  refine ⟨c, hphases, fun hnone => ?_⟩
  obtain ⟨t, hchild, ht⟩ := List.any_eq_true.1 htest
  obtain ⟨t', hreachable, href⟩ := exists_of_leadsToReference (.child hchild) ht
  exact not_isReference_of_reachable hnone hreachable href

end ApiProto.Compile
