import ApiProto.Proofs.Awaiting
import ApiProto.Proofs.NamedLists

/-!
# Types that are no maps

A map cannot be repeated, and cannot be the value of a map. While references are still to be
resolved, the same goes for those of them that may come to a map.

* `Graph.NoMap` — a type that is no map, and does not come to one.
* `Graph.PlacesMaps`, `Compilation.PlacesMaps` — maps stand only where they can.
* `Compilation.PlacesMaps.withNode`, `Compilation.PlacesMaps.addFields`, … — what the basic steps do.
* `resolveAll_placesMaps` — resolution brings no map to a place where it cannot stand.
-/

namespace ApiProto.Proto

/-- A node that is no map, and does not come to one if `maps` are the references that may. -/
def Node.NoMap (maps : String → Prop) : Node → Prop
  | .map .. => False
  | .reference ref => ¬ maps ref
  | _ => True

/-- A type that is no map, and does not come to one if `maps` are the references that may. -/
def Graph.NoMap (g : Graph) (maps : String → Prop) : TypeRef → Prop
  | .builtin _ => True
  | .node id => ∃ n, g.node? id = some n ∧ n.NoMap maps

/-- The fields that a node repeats, and the values that it maps to, are of the given kind. -/
def Node.Holds (kind : TypeRef → Prop) : Node → Prop
  | .message m => ∀ f ∈ m.fields, f.repeated = true → kind f.type
  | .map _ value => kind value
  | _ => True

/-- Maps stand only where they can. -/
def Graph.PlacesMaps (g : Graph) (maps : String → Prop) : Prop :=
  ∀ id n, g.node? id = some n → n.Holds (g.NoMap maps)

section Graphs

variable {g g' : Graph} {maps : String → Prop} {t t' : TypeRef} {n n' : Node}
  {kind kind' : TypeRef → Prop}

theorem Graph.NoMap.not_isMap (h : g.NoMap maps t) : ¬ g.IsMap t := by
  rintro ⟨id, key, value, rfl, hn⟩
  obtain ⟨n, hn', hmap⟩ := h
  obtain rfl := Option.some.inj (hn.symm.trans hn')
  exact hmap

theorem Node.NoMap.of_grows (h : n.NoMap maps) (hgrows : n.Grows n') : n'.NoMap maps := by
  cases hgrows <;> exact h

theorem Graph.NoMap.of_grows (h : g.NoMap maps t) (hgrows : g.Grows g') : g'.NoMap maps t := by
  cases t with
  | builtin b => trivial
  | node id =>
    obtain ⟨n, hn, hmap⟩ := h
    obtain ⟨n', hn', hgrow⟩ := hgrows id n hn
    exact ⟨n', hn', hmap.of_grows hgrow⟩

theorem Node.Holds.mono (h : n.Holds kind) (hkind : ∀ t, kind t → kind' t) : n.Holds kind' := by
  cases n with
  | message m => exact fun f hf hrepeated => hkind _ (h f hf hrepeated)
  | map key value => exact hkind _ h
  | _ => trivial

theorem Node.holds_withChild (t : TypeRef) (h : n.Holds kind) : (n.withChild t).Holds kind := by
  cases n <;> exact h

theorem Node.holds_withImport (file : String) (h : n.Holds kind) :
    (n.withImport file).Holds kind := by
  cases n with
  | package p =>
    obtain ⟨p', hp'⟩ := Node.withImport_package file p
    rw [hp']
    trivial
  | _ => exact h

/-- A graph that has grown by nodes that hold no maps places maps as it did before. -/
theorem Graph.PlacesMaps.of_grows (h : g.PlacesMaps maps) (hgrows : g.Grows g')
    (hnodes : ∀ id n', g'.node? id = some n' →
      (∃ n, g.node? id = some n ∧ ∀ kind, n.Holds kind → n'.Holds kind) ∨
        n'.Holds (g'.NoMap maps)) : g'.PlacesMaps maps := by
  intro id n' hn'
  rcases hnodes id n' hn' with ⟨n, hn, hholds⟩ | hnew
  · exact (hholds _ (h id n hn)).mono fun _ ht => ht.of_grows hgrows
  · exact hnew

theorem Graph.PlacesMaps.of_map (h : g.PlacesMaps maps) (hgrows : g.Grows g') {k : Nat}
    {change : Node → Node} (hchange : ∀ n kind, n.Holds kind → (change n).Holds kind)
    (hnode : ∀ id, g'.node? id = if id = k then (g.node? id).map change else g.node? id) :
    g'.PlacesMaps maps := by
  refine h.of_grows hgrows fun id n' hn' => .inl ?_
  rw [hnode id] at hn'
  split at hn'
  · obtain ⟨n, hn, rfl⟩ := Option.map_eq_some_iff.1 hn'
    exact ⟨n, hn, hchange n⟩
  · exact ⟨n', hn', fun _ hn => hn⟩

/-! ## Resolution -/

section Resolution

variable {targets : Targets}

/-- A reference that does not come to a map is followed to a type that is none. -/
theorem Graph.NoMap.mayYield
    (htargets : ∀ ref t, targets.resolve ref = .ok t → ¬ maps ref → g.NoMap maps t)
    (h : g.NoMap maps t) (hyield : g.MayYield targets t t') : g.NoMap maps t' := by
  rcases hyield with rfl | ⟨-, rfl⟩ | ⟨id, ref, rfl, hn, hfollow⟩
  · exact h
  · exact h
  · obtain ⟨last, hchain, hlast, -⟩ := follow_ok_iff.1 hfollow
    have hend : ¬ maps last := by
      clear hlast
      induction hchain with
      | refl =>
        obtain ⟨n, hn', hmap⟩ := h
        obtain rfl := Option.some.inj (hn.symm.trans hn')
        exact hmap
      | tail _ hnext ih =>
        obtain ⟨k, hk, hnext⟩ := hnext
        obtain ⟨n, hn', hmap⟩ := htargets _ _ hk ih
        obtain rfl := Option.some.inj (hnext.symm.trans hn')
        exact hmap
    exact htargets last t' hlast hend

theorem Graph.NoMap.spliced (h : g.NoMap maps t) (hs : g.Spliced targets g') : g'.NoMap maps t := by
  cases t with
  | builtin b => trivial
  | node id =>
    obtain ⟨n, hn, hmap⟩ := h
    obtain ⟨n', hn', hslots⟩ := hs.nodes id n hn
    refine ⟨n', hn', ?_⟩
    cases hslots with
    | message => trivial
    | map => exact hmap
    | other => exact hmap

theorem Node.Holds.slots {R : TypeRef → TypeRef → Prop} (hR : ∀ t t', kind t → R t t' → kind' t')
    (h : n.Holds kind) (hslots : n.Slots R n') : n'.Holds kind' := by
  cases hslots with
  | @message m fields hfields =>
    intro f' hf' hrepeated
    obtain ⟨i, hi⟩ := List.mem_iff_getElem?.1 hf'
    obtain ⟨f, hf, t, ht, rfl⟩ := forall₂_getElem? hfields.flip hi
    exact hR _ _ (h f (List.mem_of_getElem? hf) hrepeated) ht
  | map hvalue => exact hR _ _ h hvalue
  | other hmessage hmap =>
    cases n with
    | message m => exact absurd rfl (hmessage m)
    | map key value => exact absurd rfl (hmap key value)
    | _ => trivial

theorem Graph.PlacesMaps.spliced
    (htargets : ∀ ref t, targets.resolve ref = .ok t → ¬ maps ref → g.NoMap maps t)
    (h : g.PlacesMaps maps) (hs : g.Spliced targets g') : g'.PlacesMaps maps := by
  intro id n' hn'
  obtain ⟨n, hn, hslots⟩ := hs.of_node? hn'
  exact (h id n hn).slots (fun t t' ht hyield => (ht.mayYield htargets hyield).spliced hs) hslots

end Resolution

end Graphs

end ApiProto.Proto

namespace ApiProto.Compile

open Proto Document CompileM

/-- A shared parameter whose fields are repeated. -/
def Definition.IsList : Definition → Prop
  | .type _ => False
  | .parameter _ _ _ repeated => repeated = true

/-- Maps stand only where they can, references that come to no map stand for none, and neither do
the names of declared types. -/
structure Compilation.PlacesMaps (maps : String → Prop) (c : Compilation) : Prop where
  graph : c.graph.PlacesMaps maps
  definitions : ∀ entry ∈ c.definitions, ¬ maps entry.1 → c.graph.NoMap maps entry.2.unwrap
  lists : ∀ entry ∈ c.definitions, entry.2.IsList → c.graph.NoMap maps entry.2.unwrap
  wrappers : ∀ entry ∈ c.wrappers, c.graph.NoMap maps (.node entry.2)
  declared : ∀ entry ∈ c.registry.log, c.graph.NoMap maps (.node entry.2)

/-- A compilation has gone on, and still places maps only where they can stand. -/
structure Compilation.GoesOn (maps : String → Prop) (c c' : Compilation) : Prop where
  nodes : c.graph.Grows c'.graph
  placesMaps : c'.PlacesMaps maps

/-- What has been compiled comes to no map, unless it may, or is repeated as a shared parameter. -/
structure Compilation.Yields (maps : String → Prop) (mayBeMap : Prop) (c : Compilation)
    (d : Definition) : Prop where
  noMap : ¬ mayBeMap → c.graph.NoMap maps d.unwrap
  list : d.IsList → c.graph.NoMap maps d.unwrap

section States

variable {maps : String → Prop} {mayBeMap : Prop} {scope : Scope} {c c₁ c' : Compilation}
  {t : TypeRef} {d : Definition}

theorem Compilation.GoesOn.trans (h : c.GoesOn maps c₁) (h' : c₁.GoesOn maps c') :
    c.GoesOn maps c' :=
  ⟨h.nodes.trans h'.nodes, h'.placesMaps⟩

theorem Compilation.GoesOn.noMap (h : c.GoesOn maps c') (ht : c.graph.NoMap maps t) :
    c'.graph.NoMap maps t :=
  ht.of_grows h.nodes

theorem Compilation.Yields.goesOn (h : c.Yields maps mayBeMap d) (hgoes : c.GoesOn maps c') :
    c'.Yields maps mayBeMap d :=
  ⟨fun hno => hgoes.noMap (h.noMap hno), fun hlist => hgoes.noMap (h.list hlist)⟩

theorem Compilation.Yields.imp {mayBeMap' : Prop} (h : c.Yields maps mayBeMap d)
    (himp : mayBeMap → mayBeMap') : c.Yields maps mayBeMap' d :=
  ⟨fun hno => h.noMap fun hmap => hno (himp hmap), h.list⟩

theorem Compilation.Yields.of_noMap (h : c.graph.NoMap maps d.unwrap) :
    c.Yields maps mayBeMap d :=
  ⟨fun _ => h, fun _ => h⟩

theorem Compilation.Yields.of_map (t : TypeRef) (h : mayBeMap) : c.Yields maps mayBeMap (.type t) :=
  ⟨fun hno => absurd h hno, nofun⟩

/-- A change to types that leaves all nodes alone. -/
theorem Compilation.Yields.mapType {k : TypeRef → TypeRef} (h : c.Yields maps mayBeMap d)
    (hk : ∀ t, c.graph.NoMap maps t → c.graph.NoMap maps (k t)) :
    c.Yields maps mayBeMap (d.mapType k) := by
  cases d with
  | parameter => exact h
  | type t => exact ⟨fun hno => hk _ (h.noMap hno), nofun⟩

namespace Compilation.PlacesMaps

variable (h : c.PlacesMaps maps)
include h

theorem refl : c.GoesOn maps c := ⟨.refl _, h⟩

/-- A state whose graph has grown, and in which types may have been declared. -/
theorem of_graph (hgrows : c.graph.Grows c'.graph) (hgraph : c'.graph.PlacesMaps maps)
    (hdefinitions : c'.definitions = c.definitions) (hwrappers : c'.wrappers = c.wrappers)
    (hlog : ∀ entry ∈ c'.registry.log, entry ∈ c.registry.log ∨
      c'.graph.NoMap maps (.node entry.2)) : c.GoesOn maps c' where
  nodes := hgrows
  placesMaps :=
    { graph := hgraph
      definitions := fun entry hentry hno =>
        (h.definitions entry (hdefinitions ▸ hentry) hno).of_grows hgrows
      lists := fun entry hentry hlist =>
        (h.lists entry (hdefinitions ▸ hentry) hlist).of_grows hgrows
      wrappers := fun entry hentry => (h.wrappers entry (hwrappers ▸ hentry)).of_grows hgrows
      declared := fun entry hentry =>
        (hlog entry hentry).elim (fun hold => (h.declared entry hold).of_grows hgrows) id }

theorem withNode {n : Node} (hn : n.Holds (c.graph.NoMap maps)) :
    c.GoesOn maps (c.withNode n) := by
  have hgrows : c.graph.Grows (c.withNode n).graph := .add c.graph n
  refine h.of_graph hgrows (h.graph.of_grows hgrows fun id n' hn' => ?_) rfl rfl fun _ => .inl
  have hadd : (c.graph.add n).1.node? id = some n' := hn'
  rw [Graph.node?_add] at hadd
  split at hadd
  · obtain rfl := Option.some.inj hadd
    exact .inr (hn.mono fun _ ht => ht.of_grows hgrows)
  · exact .inl ⟨n', hadd, fun _ hn => hn⟩

theorem importFile (file : String) : c.GoesOn maps (c.importFile file) := by
  have hgrows : c.graph.Grows (c.importFile file).graph := .addImport c.graph c.package file
  exact h.of_graph hgrows (h.graph.of_map hgrows (fun _ _ => Node.holds_withImport file)
    fun id => Graph.node?_addImport c.package file) rfl rfl fun _ => .inl

theorem importing (name : String) : c.GoesOn maps (c.importing name) := by
  unfold Compilation.importing
  split
  · exact h.importFile _
  · exact h.refl

theorem declare (scope : Scope) (parent : Nat) (t : TypeRef) :
    c.GoesOn maps (c.declare scope parent t) := by
  unfold Compilation.declare
  rcases Registry.register_cases c.graph c.registry t parent scope with
    ⟨heq, -⟩ | ⟨id, rfl, hdeclared, -, -, ⟨-, heq⟩ | ⟨-, heq⟩⟩ <;> rw [heq]
  · exact h.refl
  · exact h.of_graph (.refl _) h.graph rfl rfl fun _ => .inl
  · have hgrows : c.graph.Grows (c.graph.addChild parent (.node id)) := .addChild _ _ _
    refine h.of_graph hgrows (h.graph.of_map hgrows (fun _ _ => Node.holds_withChild _)
      fun id => Graph.node?_addChild parent _) rfl rfl fun entry hentry => ?_
    rcases List.mem_append.1 hentry with hold | hlast
    · exact .inl hold
    · -- what is declared is a message or an enum
      obtain rfl := List.mem_singleton.1 hlast
      obtain ⟨n, hn, hnode⟩ : ∃ n, c.graph.node? id = some n ∧ n.isDeclared = true := by
        rcases hn : c.graph.node? id with _ | n
        · simp [Graph.isDeclared, hn] at hdeclared
        · exact ⟨n, rfl, (Graph.isDeclared_of_node? hn).symm.trans hdeclared⟩
      have hmap : c.graph.NoMap maps (.node id) :=
        ⟨n, hn, by cases n <;> trivial⟩
      exact .inr (hmap.of_grows hgrows)

theorem declareHere (scope : Scope) (t : TypeRef) :
    c.GoesOn maps (c.declareHere scope t) := by
  cases scope with
  | nil => exact h.refl
  | cons parent rest => exact h.declare (parent :: rest) parent t

theorem remember (base : String) {wrapper : Nat} (hwrapper : c.graph.NoMap maps (.node wrapper)) :
    c.GoesOn maps (c.remember base wrapper) :=
  ⟨.refl _, { h with
    wrappers := fun entry hentry => by
      rcases List.mem_append.1 hentry with hold | hlast
      · exact h.wrappers entry hold
      · obtain rfl := List.mem_singleton.1 hlast
        exact hwrapper }⟩

theorem defining (ref : String) (hd : c.Yields maps (maps ref) d) :
    c.GoesOn maps (c.defining ref d) := by
  unfold Compilation.defining
  split
  · exact h.refl
  · refine ⟨.refl _, { h with definitions := fun entry hentry => ?_, lists := fun entry hentry => ?_ }⟩
    all_goals
      rcases List.mem_append.1 hentry with hold | hlast
    · exact h.definitions entry hold
    · obtain rfl := List.mem_singleton.1 hlast
      exact hd.noMap
    · exact h.lists entry hold
    · obtain rfl := List.mem_singleton.1 hlast
      exact hd.list

theorem addFields {message : Nat} {fields : List (CompiledProperty × Int)}
    (hadd : addFields message fields c = .ok ((), c'))
    (hfields : ∀ field ∈ fields, field.1.repeated = true → c.graph.NoMap maps field.1.type) :
    c.GoesOn maps c' := by
  refine forM_ok_induct (P := fun d => c.GoesOn maps d) (fun field hmem d d' hstep hd => ?_) hadd
    h.refl
  obtain ⟨d₁, hadd, rfl⟩ := addPropertyField_ok hstep
  have hd₁ : d.GoesOn maps d₁ := by
    rcases addField_ok hadd with ⟨-, rfl⟩ | ⟨m, hm, -, -, rfl⟩
    · exact hd.placesMaps.refl
    · have hn := Graph.node?_of_message? hm
      have hgrows : d.graph.Grows (d.graph.put message (.message { m with
          fields := m.fields ++ [⟨field.1.type, Name.fieldName field.1.name, field.2,
            field.1.repeated, field.1.comment⟩] })) :=
        .put hn (.message rfl rfl (List.prefix_append ..) List.prefix_rfl)
      refine hd.placesMaps.of_graph hgrows (hd.placesMaps.graph.of_grows hgrows
        fun id n' hn' => ?_) rfl rfl fun _ => .inl
      rcases Decidable.em (id = message) with rfl | hne
      · obtain rfl := Option.some.inj ((Graph.node?_put_self hn _).symm.trans hn')
        refine .inr fun f hf hrepeated => ?_
        rcases List.mem_append.1 hf with hold | hlast
        · exact (hd.placesMaps.graph _ _ hn f hold hrepeated).of_grows hgrows
        · obtain rfl := List.mem_singleton.1 hlast
          exact (hd.noMap (hfields field hmem hrepeated)).of_grows hgrows
      · exact .inl ⟨n', (Graph.node?_put_of_ne hne _).symm.trans hn', fun _ hn => hn⟩
  exact hd.trans (hd₁.trans (hd₁.placesMaps.importing _))

/-- A declared type is no map. -/
theorem noMap_lookup {name : String}
    (hfound : c.registry.lookup c.graph name scope = some t) : c.graph.NoMap maps t := by
  unfold Registry.lookup at hfound
  split at hfound
  · obtain rfl := Option.some.inj hfound
    trivial
  · obtain ⟨container, -, hfound⟩ := List.exists_of_findSome?_eq_some hfound
    obtain ⟨id, hid, rfl⟩ := Option.map_eq_some_iff.1 hfound
    exact h.declared _ (mem_declaredIn.1 (List.mem_of_find?_eq_some hid))

theorem compileReference {ref : String} (href : compileReference ref c = .ok (d, c')) :
    c.GoesOn maps c' ∧ c'.Yields maps (maps ref) d := by
  rcases compileReference_ok href with ⟨hd, rfl⟩ | ⟨-, -, rfl, rfl⟩
  · refine ⟨h.refl, ?_⟩
    unfold Compilation.definition? at hd
    split at hd
    · obtain rfl := Option.some.inj hd
      exact .of_noMap trivial
    · obtain ⟨before, after, heq, -⟩ := List.lookup_eq_some_iff.1 hd
      have hmem : (ref, d) ∈ c'.definitions := by simp [heq]
      exact ⟨h.definitions _ hmem, h.lists _ hmem⟩
  · exact ⟨h.withNode trivial, fun hno => ⟨_, Graph.node?_add_self _, hno⟩, nofun⟩

/-! ## Building -/

theorem importingAll (names : List String) : c.GoesOn maps (c.importingAll names) := by
  induction names generalizing c with
  | nil => exact h.refl
  | cons name rest ih => exact (h.importing name).trans (ih (h.importing name).placesMaps)

theorem extending (e : Proto.Extension) : c.GoesOn maps (c.extending e) := by
  have hnode := h.withNode (n := .extension e) trivial
  have hgrows : (c.withNode (.extension e)).graph.Grows (c.extending e).graph := .addChild _ _ _
  exact hnode.trans (hnode.placesMaps.of_graph hgrows (hnode.placesMaps.graph.of_map hgrows
    (fun _ _ => Node.holds_withChild _) fun id => Graph.node?_addChild _ _) rfl rfl fun _ => .inl)

theorem serving (rpc : Rpc TypeRef) : c.GoesOn maps (c.serving rpc) := by
  rcases serving_cases (c := c) rpc with heq | ⟨s, c₁, c₂, rfl, rfl, -, hnode, heq⟩ <;> rw [heq]
  · exact h.refl
  · have hfirst := h.importing (c.graph.typeName rpc.parameter)
    have hboth := hfirst.trans (hfirst.placesMaps.importing
      ((c.importing (c.graph.typeName rpc.parameter)).graph.typeName rpc.response))
    have hservice : (Node.service s).Grows (.service { s with rpcs := s.rpcs ++ [rpc] }) :=
      .service rfl (List.prefix_append ..)
    have hgrows := Graph.Grows.put hnode hservice
    refine hboth.trans (hboth.placesMaps.of_graph hgrows (hboth.placesMaps.graph.of_grows hgrows
      fun id n' hn' => ?_) rfl rfl fun _ => .inl)
    rcases Decidable.em (id = c.service) with rfl | hne
    · obtain rfl := Option.some.inj ((Graph.node?_put_self hnode _).symm.trans hn')
      exact .inr trivial
    · exact .inl ⟨n', (Graph.node?_put_of_ne hne _).symm.trans hn', fun _ hn => hn⟩

end Compilation.PlacesMaps

/-! ## Resolving all -/

/-- What references stand for comes to no map, unless they may. -/
theorem Compilation.PlacesMaps.resolve (h : c.PlacesMaps maps) {ref : String}
    (ht : (Targets.ofTable c.table).resolve ref = .ok t) (hno : ¬ maps ref) :
    c.graph.NoMap maps t := by
  obtain ⟨before, after, heq, -⟩ :=
    List.lookup_eq_some_iff.1 (Targets.resolve_ofTable_eq_ok.1 ht)
  have hmem : (ref, t) ∈ c.table := by simp [heq]
  rcases List.mem_append.1 hmem with hknown | hdefined
  · obtain ⟨_, -, heq⟩ := List.mem_map.1 hknown
    obtain ⟨-, rfl⟩ := Prod.mk.inj heq
    trivial
  · obtain ⟨entry, hentry, heq⟩ := List.mem_map.1 hdefined
    obtain ⟨rfl, rfl⟩ := Prod.mk.inj heq
    exact h.definitions entry hentry hno

/-- A state into whose graph types have been spliced. -/
theorem Compilation.PlacesMaps.spliced (h : c.PlacesMaps maps) {g : Graph}
    (hs : c.graph.Spliced c.table g) : Compilation.PlacesMaps maps { c with graph := g } where
  graph := h.graph.spliced (fun _ _ => h.resolve) hs
  definitions entry hentry hno := (h.definitions entry hentry hno).spliced hs
  lists entry hentry hlist := (h.lists entry hentry hlist).spliced hs
  wrappers entry hentry := (h.wrappers entry hentry).spliced hs
  declared entry hentry := (h.declared entry hentry).spliced hs

/-- Resolving definitions one after the other. What is still to be resolved comes to no map, unless
it may. -/
theorem resolveDefinitions_placesMaps {l : List (String × Definition)} {visited : List Nat}
    (hl : ∀ entry ∈ l, c.Yields maps (maps entry.1) entry.2) (h : c.PlacesMaps maps)
    (hrun : resolveDefinitions l visited c = .ok ((), c')) : c'.PlacesMaps maps := by
  induction l generalizing c visited with
  | nil => exact (Prod.mk.inj (Except.ok.inj hrun)).2 ▸ h
  | cons first rest ih =>
    obtain ⟨ref, d⟩ := first
    obtain ⟨⟨t, visited₁⟩, c₁, hfirst, hrun⟩ := bind_ok_iff.1 hrun
    obtain ⟨houtcome, hc₁⟩ := resolving_ok (within_ok_iff.1 hfirst)
    have hwalk := walks_of_resolveAt houtcome
    have hs := hwalk.spliced trivial
    have h₁ : c₁.PlacesMaps maps := hc₁ ▸ h.spliced hs
    have hnoMap : ∀ {t}, c.graph.NoMap maps t → c₁.graph.NoMap maps t := fun ht => ht.spliced hs
    have hresult : c.graph.NoMap maps d.unwrap → c₁.graph.NoMap maps t := fun hd =>
      hnoMap (hd.mayYield (fun _ _ => h.resolve) (.inr hwalk.yields))
    have hd := hl (ref, d) (List.mem_cons_self ..)
    have hredefined : (c₁.redefining ref (d.withType t)).PlacesMaps maps :=
      { h₁ with
        definitions := fun entry hentry hno => by
          obtain ⟨⟨k, old⟩, hold, rfl⟩ := List.mem_map.1 hentry
          dsimp only at hno ⊢
          split
          · next hk =>
            have hno : ¬ maps ref := hk ▸ hno
            cases d <;> exact hresult (hd.noMap hno)
          · exact h₁.definitions _ hold hno
        lists := fun entry hentry hlist => by
          obtain ⟨⟨k, old⟩, hold, rfl⟩ := List.mem_map.1 hentry
          dsimp only at hlist ⊢
          split at hlist
          · next hk =>
            rw [if_pos hk]
            cases d with
            | type => cases hlist
            | parameter => exact hresult (hd.list hlist)
          · next hk =>
            rw [if_neg hk]
            exact h₁.lists _ hold hlist }
    refine ih (c := c₁.redefining ref (d.withType t)) (fun entry hentry => ?_) hredefined hrun
    have hyields := hl entry (List.mem_cons_of_mem _ hentry)
    exact ⟨fun hno => hnoMap (hyields.noMap hno), fun hlist => hnoMap (hyields.list hlist)⟩

/-- Resolution brings no map to a place where it cannot stand. -/
theorem resolveAll_placesMaps (h : c.PlacesMaps maps) (hrun : resolveAll c = .ok ((), c')) :
    c'.PlacesMaps maps := by
  unfold resolveAll at hrun
  rw [get_bind] at hrun
  obtain ⟨⟨⟨⟩, visited⟩, c₁, hpackage, hrun⟩ := bind_ok_iff.1 hrun
  obtain ⟨houtcome, hc₁⟩ := resolving_ok hpackage
  have hs := (walks_of_resolvePackage houtcome).spliced trivial
  have h₁ : c₁.PlacesMaps maps := hc₁ ▸ h.spliced hs
  have hdefinitions : c₁.definitions = c.definitions := by rw [hc₁]
  rw [← hdefinitions] at hrun
  exact resolveDefinitions_placesMaps
    (fun entry hentry => ⟨h₁.definitions entry hentry, h₁.lists entry hentry⟩) h₁ hrun

end States

end ApiProto.Compile
