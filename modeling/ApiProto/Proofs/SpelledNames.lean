import ApiProto.Proofs.Leftovers
import ApiProto.Proofs.Nesting
import ApiProto.Proofs.Settling
import ApiProto.Proofs.VersionIndependence

/-!
# Spelled names

The name of a map is spelled from the names of its key and its value, so it has an end only if no
map is inside its own key or value. No such map is left when all references have been resolved: a
map that was resolved has got an end, and a later map is made of what was there before it.

* `Graph.Spells` — the name of a type, spelled without a bound.
* `Spells.typeName_eq` — the number of nodes bounds the depth of a name that has an end.
* `Graph.AddsMaps`, `Runs.addsMaps`, `Builds.addsMaps` — later maps are made of earlier types.
* `spells_of_reachable` — in a compiled package all names have ends.
* `compile_printable` — a compiled package can be printed.
-/

namespace ApiProto.Proto

open Relation

variable {g g₁ g' : Graph} {t : TypeRef}

/-! ## Names with an end -/

/-- The name of a type: that of a map is spelled from those of its key and its value. -/
inductive Graph.Spells (g : Graph) : TypeRef → String → Prop
  | builtin (b : Builtin) : g.Spells (.builtin b) b.name
  | named {id : Nat} {n : Node} {name : String} : g.node? id = some n → n.ownName? = some name →
      g.Spells (.node id) name
  | map {id : Nat} {key value : TypeRef} {keyName valueName : String} :
      g.node? id = some (.map key value) → g.Spells key keyName → g.Spells value valueName →
      g.Spells (.node id) ("map<" ++ keyName ++ ", " ++ valueName ++ ">")

/-- A node is the key or the value of a map. -/
def Graph.MapHolds (g : Graph) (id k : Nat) : Prop :=
  ∃ key value, g.node? id = some (.map key value) ∧ .node k ∈ [key, value]

namespace Graph.Spells

variable {name : String}

/-- A map whose name has an end is not inside itself. -/
theorem acyclic (h : g.Spells t name) : ∀ id, t = .node id → ¬ TransGen g.MapHolds id id := by
  induction h with
  | builtin b => exact nofun
  | @named id n name hn hname =>
    rintro _ ⟨⟩ hcycle
    obtain ⟨_, ⟨key, value, hmap, -⟩, -⟩ := TransGen.head'_iff.1 hcycle
    obtain rfl := Option.some.inj (hn.symm.trans hmap)
    cases hname
  | @map id key value _ _ hn _ _ ihkey ihvalue =>
    rintro _ ⟨⟩ hcycle
    obtain ⟨k, ⟨key', value', hmap, hk⟩, hback⟩ := TransGen.head'_iff.1 hcycle
    obtain ⟨rfl, rfl⟩ := Node.map.inj (Option.some.inj (hn.symm.trans hmap))
    have hcycle' : TransGen g.MapHolds k k := .tail' hback ⟨key, value, hn, hk⟩
    rcases List.mem_pair.1 hk with rfl | rfl
    · exact ihkey k rfl hcycle'
    · exact ihvalue k rfl hcycle'

/-- What is below a map bounds the depth of its name. -/
theorem nameWithin_eq (h : g.Spells t name) : ∀ depth,
    (∀ id, t = .node id → (downstream g.MapHolds g.size id).card < depth) →
      g.nameWithin depth t = name := by
  induction h with
  | builtin b =>
    intro depth _
    cases depth <;> rfl
  | @named id n name hn hname =>
    intro depth _
    cases depth <;> cases n <;> simp_all [nameWithin, Node.ownName?]
  | @map id key value keyName valueName hn hkey hvalue ihkey ihvalue =>
    intro depth hdepth
    cases depth with
    | zero => exact absurd (hdepth id rfl) (Nat.not_lt_zero _)
    | succ depth =>
      have hroom : ∀ {t name}, g.Spells t name → t ∈ [key, value] →
          ∀ k, t = .node k → (downstream g.MapHolds g.size k).card < depth := by
        rintro t name ht hmem k rfl
        have hk : k < g.size := by
          cases ht with
          | named hn' => exact lt_size_of_node? hn'
          | map hn' => exact lt_size_of_node? hn'
        have hlt := card_downstream_lt (ht.acyclic k rfl) ⟨key, value, hn, hmem⟩ hk
        exact Nat.lt_of_lt_of_le hlt (Nat.le_of_lt_succ (hdepth id rfl))
      rw [nameWithin, hn]
      dsimp only
      rw [ihkey depth (hroom hkey (by simp)), ihvalue depth (hroom hvalue (by simp))]

/-- The number of nodes bounds the depth of a name that has an end. -/
theorem typeName_eq (h : g.Spells t name) : g.typeName t = name := by
  refine h.nameWithin_eq g.size ?_
  rintro id rfl
  have hid : id < g.size := by
    cases h with
    | named hn => exact lt_size_of_node? hn
    | map hn => exact lt_size_of_node? hn
  exact card_downstream_lt_size (h.acyclic id rfl) hid

theorem mono (h : g.Spells t name) (hgrows : g.Grows g') : g'.Spells t name := by
  induction h with
  | builtin b => exact .builtin b
  | named hn hname =>
    obtain ⟨n', hn', hgrow⟩ := hgrows _ _ hn
    exact .named hn' (hgrow.ownName?_eq.trans hname)
  | map hn _ _ ihkey ihvalue =>
    obtain ⟨n', hn', hgrow⟩ := hgrows _ _ hn
    cases hgrow
    exact .map hn' ihkey ihvalue

end Graph.Spells

/-- A type has a name with an end. -/
def Graph.Spelled (g : Graph) (t : TypeRef) : Prop := ∃ name, g.Spells t name

theorem Graph.Spelled.typeName (h : g.Spelled t) : g.Spells t (g.typeName t) := by
  obtain ⟨name, hname⟩ := h
  exact hname.typeName_eq ▸ hname

theorem Graph.Spelled.mono (h : g.Spelled t) (hgrows : g.Grows g') : g'.Spelled t := by
  obtain ⟨name, hname⟩ := h
  exact ⟨name, hname.mono hgrows⟩

theorem Graph.Spelled.of_map {id : Nat} {key value : TypeRef}
    (hn : g.node? id = some (.map key value))
    (hkey : g.Spelled key) (hvalue : g.Spelled value) : g.Spelled (.node id) := by
  obtain ⟨keyName, hkey⟩ := hkey
  obtain ⟨valueName, hvalue⟩ := hvalue
  exact ⟨_, .map hn hkey hvalue⟩

/-- A node has a name of its own, or is a map. -/
theorem Graph.spelled_or_map {id : Nat} (h : id < g.size) :
    g.Spelled (.node id) ∨ ∃ key value, g.node? id = some (.map key value) := by
  obtain ⟨n, hn⟩ := node?_isSome h
  cases n with
  | map key value => exact .inr ⟨key, value, hn⟩
  | _ => exact .inl ⟨_, .named hn rfl⟩

/-- What has been resolved has a name with an end. -/
theorem Resolution.Covers.spelled {visited : List Nat} (h : Covers ⟨g, visited⟩ t) (ht : g.Has t)
    (hclosed : ∀ id n, g.node? id = some n → ∀ t ∈ n.mentions, g.Has t)
    (hkeys : ∀ id key value, g.node? id = some (.map key value) → g.IsBuiltin key) :
    g.Spelled t := by
  induction h with
  | builtin b => exact ⟨_, .builtin b⟩
  | message hn => exact ⟨_, .named hn rfl⟩
  | @map id key value hn _ ih =>
    refine .of_map hn ?_ (ih (hclosed id _ hn value (by simp [Node.mentions])))
    rcases hkeys id key value hn with ⟨b, rfl⟩ | ⟨k, b, rfl, hk⟩
    · exact ⟨_, .builtin b⟩
    · exact ⟨_, .named hk rfl⟩
  | leaf _ hmap =>
    refine (g.spelled_or_map ht).resolve_right fun hn => ?_
    obtain ⟨key, value, hn⟩ := hn
    exact hmap key value hn

/-! ## Later maps -/

/-- Maps that are added are made of what was there before them. -/
def Graph.AddsMaps (g g' : Graph) : Prop :=
  ∀ id key value, g'.node? id = some (.map key value) →
    g.node? id = some (.map key value) ∨ ∀ k, .node k ∈ [key, value] → k < id

namespace Graph.AddsMaps

theorem refl (g : Graph) : g.AddsMaps g := fun _ _ _ hn => .inl hn

theorem trans (h : g.AddsMaps g₁) (h' : g₁.AddsMaps g') : g.AddsMaps g' :=
  fun id key value hn => (h' id key value hn).elim (h id key value) .inr

theorem add {n : Node} (hn : ∀ key value, n = .map key value → ∀ t ∈ [key, value], g.Has t) :
    g.AddsMaps (g.add n).1 := by
  intro id key value hid
  rw [node?_add] at hid
  split at hid
  · next heq =>
    obtain rfl := heq
    exact .inr fun k hk => hn key value (Option.some.inj hid) _ hk
  · exact .inl hid

theorem of_map {k : Nat} {change : Node → Node}
    (hchange : ∀ n key value, change n = .map key value → n = .map key value)
    (h : ∀ id, g'.node? id = if id = k then (g.node? id).map change else g.node? id) :
    g.AddsMaps g' := by
  intro id key value hid
  rw [h] at hid
  split at hid
  · obtain ⟨n, hn, heq⟩ := Option.map_eq_some_iff.1 hid
    exact .inl (hchange n key value heq ▸ hn)
  · exact .inl hid

theorem addChild (g : Graph) (parent : Nat) (t : TypeRef) : g.AddsMaps (g.addChild parent t) := by
  have hchange : ∀ n key value, Node.withChild t n = .map key value → n = .map key value := by
    intro n key value heq
    cases n <;> first | exact heq | cases heq
  exact of_map hchange fun _ => node?_addChild parent t

theorem addImport (g : Graph) (package : Nat) (file : String) :
    g.AddsMaps (g.addImport package file) := by
  have hchange : ∀ n key value, Node.withImport file n = .map key value → n = .map key value := by
    intro n key value heq
    cases n with
    | package p =>
      obtain ⟨p', hp'⟩ := Node.withImport_package file p
      cases hp'.symm.trans heq
    | _ => exact heq
  exact of_map hchange fun _ => node?_addImport package file

theorem put {id : Nat} {n : Node} (hn : ∀ key value, n ≠ .map key value) :
    g.AddsMaps (g.put id n) := by
  intro k key value hk
  rw [node?_put] at hk
  split at hk
  · exact absurd (Option.some.inj hk) (hn key value)
  · exact .inl hk

end Graph.AddsMaps

end ApiProto.Proto

namespace ApiProto.Compile

open Proto Document CompileM Relation

variable {env : Environment} {scope : Scope} {c c' : Compilation}

/-- The maps that a step adds are made of what was there before them. -/
def Compilation.AddsMaps (c c' : Compilation) : Prop := c.graph.AddsMaps c'.graph

namespace Compilation.AddsMaps

theorem refl (c : Compilation) : c.AddsMaps c := Graph.AddsMaps.refl _

theorem trans {c₁ : Compilation} (h : c.AddsMaps c₁) (h' : c₁.AddsMaps c') : c.AddsMaps c' :=
  Graph.AddsMaps.trans h h'

theorem withNode (h : c.AddsMaps c') {n : Node} (hn : n.isMap = false) :
    c.AddsMaps (c'.withNode n) :=
  Graph.AddsMaps.trans h (.add fun key value heq => by
    rw [heq] at hn
    cases hn)

theorem importing (h : c.AddsMaps c') (name : String) : c.AddsMaps (c'.importing name) := by
  unfold Compilation.importing
  split
  · exact Graph.AddsMaps.trans h (.addImport c'.graph c'.package _)
  · exact h

theorem importingAll (h : c.AddsMaps c') (names : List String) :
    c.AddsMaps (c'.importingAll names) := by
  induction names generalizing c' with
  | nil => exact h
  | cons name rest ih => exact ih (h.importing name)

theorem declare (h : c.AddsMaps c') (parent : Nat) (t : TypeRef) :
    c.AddsMaps (c'.declare scope parent t) := by
  unfold Compilation.declare
  rcases Registry.register_cases c'.graph c'.registry t parent scope with
    ⟨heq, -⟩ | ⟨_, -, -, -, -, ⟨-, heq⟩ | ⟨-, heq⟩⟩ <;> rw [heq]
  · exact h
  · exact h
  · exact Graph.AddsMaps.trans h (.addChild c'.graph parent t)

theorem declareHere (h : c.AddsMaps c') (t : TypeRef) : c.AddsMaps (c'.declareHere scope t) := by
  cases scope with
  | nil => exact h
  | cons parent outer => exact h.declare parent t

theorem addFields {c₁ : Compilation} (h : c.AddsMaps c₁) {message : Nat}
    {fields : List (CompiledProperty × Int)} (hadd : addFields message fields c₁ = .ok ((), c')) :
    c.AddsMaps c' := by
  refine forM_ok_induct (P := c.AddsMaps) (fun field _ d d' hstep hd => ?_) hadd h
  obtain ⟨d₁, hfield, rfl⟩ := addPropertyField_ok hstep
  refine importing ?_ _
  rcases addField_ok hfield with ⟨-, rfl⟩ | ⟨m, -, -, -, rfl⟩
  · exact hd
  · exact Graph.AddsMaps.trans hd (.put nofun)

theorem reference {ref : String} {d : Definition} (h : compileReference ref c = .ok (d, c')) :
    c.AddsMaps c' := by
  rcases compileReference_ok h with ⟨-, rfl⟩ | ⟨-, -, -, rfl⟩
  · exact refl _
  · exact (refl c).withNode (by rfl)

theorem serving (h : c.AddsMaps c') (rpc : Rpc TypeRef) : c.AddsMaps (c'.serving rpc) := by
  rcases serving_cases (c := c') rpc with heq | ⟨s, c₁, c₂, rfl, rfl, -, -, heq⟩ <;> rw [heq]
  · exact h
  · exact Graph.AddsMaps.trans ((h.importing _).importing _) (.put nofun)

theorem defining (h : c.AddsMaps c') (ref : String) (d : Definition) :
    c.AddsMaps (c'.defining ref d) := by
  unfold Compilation.defining
  split <;> exact h

end Compilation.AddsMaps

open Compilation (AddsMaps)

/-- The maps of a run are made of what was there before them. -/
theorem Runs.addsMaps {ts : List TypeRef} (h : Runs env scope c ts c')
    (hpackage : c.package ∈ scope)
    (hc : c.Closed) : c.AddsMaps c' := by
  induction h with
  | nil | found | wrapped => exact .refl _
  | cons hfirst _ ih ih' =>
    have hpackage' := (hfirst.grows hpackage).package ▸ hpackage
    exact (ih hpackage hc).trans (ih' hpackage' (hfirst.closed hpackage hc).1)
  | builtin b _ ih => exact ih hpackage hc
  | importing name _ ih => exact (ih hpackage hc).importing name
  | reference href => exact .reference href
  | declared _ ih => exact (ih hpackage hc).declareHere _
  | enumeration => exact .declareHere (.withNode (.refl _) (by rfl)) _
  | @map scope c c₁ value hrun ih =>
    refine (ih hpackage hc).trans (Graph.AddsMaps.add fun key value' heq t ht => ?_)
    obtain ⟨rfl, rfl⟩ := Node.map.inj heq
    rcases List.mem_pair.1 ht with rfl | rfl
    · trivial
    · exact (hrun.closed hpackage hc).2 _ (List.mem_singleton.2 rfl)
  | objectWrapper rawName field about comment _ ih =>
    exact .declareHere (.withNode (ih hpackage hc) (by rfl)) _
  | @sharedWrapper scope c c₁ ref d rawName _ hitem =>
    have hwrapper : c.AddsMaps (c₁.withNode (.message (listWrapper
        (listWrapperName env.spec c₁ (Name.pascal rawName)) "items" (Name.pascal rawName)
        (.text "") d.unwrap))) := .withNode (.reference hitem) (by rfl)
    exact hwrapper.declare _ _
  | @message scope c c₁ c₂ ts rawName comment fields _ _ _ hadd ih =>
    have hinner := ih (List.mem_cons_of_mem _ hpackage) (hc.withNode (by simp [Node.mentions]))
    have hfields := hinner.addFields hadd
    exact .declareHere (.trans (.withNode (.refl _) (by rfl)) hfields) _
  | arrayResponse name _ _ ih =>
    exact .declareHere (.importing (.withNode (ih hpackage hc) (by rfl)) _) _

/-- The maps of a package are made of what was there before them. -/
theorem Builds.addsMaps {package : Nat} (h : Builds env package c c') (hp : c.package = package)
    (hc : c.Closed) : c.AddsMaps c' := by
  have hrun : ∀ {c₁ c₂ ts}, Builds env package c c₁ → Runs env [package] c₁ ts c₂ →
      c₁.AddsMaps c₂ := fun hbuilds hrun =>
    hrun.addsMaps (by simp [(hbuilds.grows hp).package, hp]) (hbuilds.closed hp hc)
  induction h with
  | refl => exact .refl _
  | importFile file _ ih => exact Graph.AddsMaps.trans ih (.addImport _ _ _)
  | define ref d hbuilds hdefine ih => exact (ih.trans (hrun hbuilds hdefine)).defining ref d
  | @extension c₁ e _ ih =>
    have hnode : c.AddsMaps ((c₁.importingAll (e.fields.map (·.type) ++ [e.base])).withNode
        (.extension e)) := .withNode (ih.importingAll _) (by rfl)
    exact Graph.AddsMaps.trans hnode (.addChild _ _ _)
  | procedure rpc hbuilds hserve ih => exact (ih.trans (hrun hbuilds hserve)).serving rpc

/-! ## Names in compiled packages -/

/-- What may be used once references have been resolved has a name with an end. -/
theorem Compilation.Walked.spelled_of_usable {c₂ : Compilation} {visited : List Nat}
    (hw : c.Walked visited) (hc : c.Closed) (hgrows : c.graph.Grows c₂.graph) (hc₂ : c₂.Closed)
    (hclean : c₂.Clean (c.Kept visited) c.graph.size) (hadds : c.AddsMaps c₂)
    {id : Nat} (hid : id < c₂.graph.size)
    (husable : Usable (c.Kept visited) c.graph.size (.node id)) :
    c₂.graph.Spelled (.node id) := by
  induction id using Nat.strongRecOn with
  | ind id ih =>
    rcases Nat.lt_or_ge id c.graph.size with hold | hnew
    · refine Graph.Spelled.mono ?_ hgrows
      rcases husable with (hcovers | ⟨entry, hentry, rfl⟩) | hbase
      · exact hcovers.spelled hold hc.mentions hw.wellTyped.keys
      · obtain ⟨m, hm, -⟩ := hw.wrappers entry hentry
        exact ⟨_, .named hm rfl⟩
      · exact absurd hold (Nat.not_lt.2 hbase)
    · -- a later map is made of what was there before it
      refine (Graph.spelled_or_map hid).elim (fun h => h) fun ⟨key, value, hn⟩ => ?_
      have hfalls := (hadds id key value hn).resolve_left fun hn' =>
        absurd (Graph.lt_size_of_node? hn') (Nat.not_lt.2 hnew)
      have hpart : ∀ t ∈ [key, value], c₂.graph.Spelled t := by
        intro t ht
        have husable := (hclean.nodes id _ hn (.inl hnew)).2 t ht
        have hhas : c₂.graph.Has t := hc₂.mentions id _ hn t ht
        cases t with
        | builtin b => exact ⟨_, .builtin b⟩
        | node k => exact ih k (hfalls k ht) hhas husable
      exact .of_map hn (hpart key (by simp)) (hpart value (by simp))

/-- What can be reached is there. -/
theorem Compilation.Owned.has_reachable (h : c.Owned scope) {package : Nat} {t : TypeRef}
    (ht : c.graph.Reachable package t) : c.graph.Has t := by
  cases ht with
  | child hmem => exact h.registered.inside _ t hmem
  | mention _ hn hmem => exact h.closed.mentions _ _ hn t hmem

/-- In a compiled package the names of all types have ends. -/
theorem spells_of_reachable (h : compileAll env (startOf env) = .ok ((), c)) {t : TypeRef}
    (ht : c.graph.Reachable c.package t) : c.graph.Spells t (c.graph.typeName t) := by
  obtain ⟨scope, howned⟩ := owned_of_passes (passes_of_ok (compileAll.course env) h)
  obtain ⟨hphases, hdangling⟩ := compileAll_ok_iff.1 h
  obtain ⟨c₀, c₁, hnamed, hresolve, hbuilds⟩ := compilePhases_ok hphases
  have hresolved := resolveAll_ok hresolve
  have hstart := compileNamed_builds hnamed
  have hpackage : c₁.package = (startOf env).package :=
    hresolved.package_eq.trans (hstart.grows rfl).package
  rw [← hpackage] at hbuilds
  obtain ⟨home, hhomed, -⟩ := (hstart.atRest rfl startOf_atRest).resolved hresolved
  obtain ⟨visited, hw⟩ := resolveAll_walked hresolve (compileNamed_awaiting hnamed)
  have hclosed := hhomed.closed
  have hrequiring : Compilation.Closed { c₁ with deferring := false } :=
    ⟨hclosed.mentions, hclosed.definitions, hclosed.wrappers, hclosed.log, hclosed.package⟩
  have hservice := (startOf_hasService.of_grows (hstart.grows rfl)).resolved hresolved
  have hgrows := hbuilds.grows rfl
  have hclean := hbuilds.clean rfl (hw.clean hclosed hhomed.registered)
  have hadds := hbuilds.addsMaps rfl hrequiring
  have husable := (hw.usable_of_reachable hgrows hclean hclosed hservice ht).resolve_right
    fun href => not_isReference_of_reachable hdangling ht href.1
  have hspelled : c.graph.Spelled t := by
    cases t with
    | builtin b => exact ⟨_, .builtin b⟩
    | node id =>
      exact hw.spelled_of_usable hclosed hgrows.nodes howned.closed hclean hadds
        (howned.has_reachable ht) husable
  exact hspelled.typeName

/-- While a package is compiled, nothing stands inside itself. A compiled package is a finite tree
of declarations with finite names, and it is printed with every indentation, unless a comment is no
text. -/
theorem compile_printable (options : Options) (spec : Spec) :
    (∀ c, (compileAll.course ⟨options, spec⟩).Passes (startOf ⟨options, spec⟩) c →
      c.graph.Nests c.package) ∧
    ∀ o, compile options spec = .ok o →
      (∀ t, o.graph.Uses o.package t → o.graph.Spells t (o.graph.typeName t)) ∧
      ∃ f, o.graph.file? o.package = some f ∧ ∀ indent e,
        (o.print indent = .error e ↔ f.withTexts = .error e) ∧
        (o.print indent = .error e →
          e.cause ≠ .endless ∧ ∀ kind name, e.cause ≠ .unprintable kind name) := by
  refine ⟨fun c hpasses => ?_, fun o ho => ?_⟩
  · obtain ⟨scope, howned⟩ := owned_of_passes hpasses
    exact howned.nests
  · obtain ⟨c, hrun, rfl⟩ := compile_ok_iff.1 ho
    obtain ⟨scope, howned⟩ := owned_of_passes (passes_of_ok (compileAll.course _) hrun)
    obtain ⟨p, hp⟩ := howned.closed.package
    obtain ⟨f, hf, hlisted⟩ := howned.nests.file?_listed hp
    refine ⟨fun t ht => spells_of_reachable hrun ht.reachable, f, hf, fun indent e => ?_⟩
    have hprint : (Output.print indent ⟨c.graph, c.package⟩ = .error e ↔ f.withTexts = .error e) :=
      Graph.print_error_iff hf hlisted
    refine ⟨hprint, fun herror => ?_⟩
    obtain ⟨comment, hcomment⟩ := File.withTexts_error (hprint.1 herror)
    exact commentText_error hcomment

/-- Trees that list trees, with an index of maps. -/
def treeSchemas : Spec := .ofDefinitions [
  ("Index", .map (.reference "#/definitions/Names")),
  ("Names", .map (.scalar "string")),
  ("Tree", .object [("index", .reference "#/definitions/Index"),
    ("trees", .array (.reference "#/definitions/Tree"))])]

/-- A message with a field of its own type, and one with a map of maps. -/
theorem compile_printable_treeSchemas : ∃ c,
    compileAll ⟨⟨false, false, false, false, "trees"⟩, treeSchemas⟩
      (startOf ⟨⟨false, false, false, false, "trees"⟩, treeSchemas⟩) = .ok ((), c) ∧
    compile ⟨false, false, false, false, "trees"⟩ treeSchemas = .ok ⟨c.graph, c.package⟩ ∧
    (c.graph.message? 5).map (fun m => m.fields.map (·.type)) = some [.node 3, .node 5] ∧
    c.graph.Nests c.package ∧
    (∀ t, c.graph.Uses c.package t → c.graph.Spells t (c.graph.typeName t)) ∧
    ∃ f, c.graph.file? c.package = some f ∧ ∀ indent e,
      (c.graph.print indent c.package = .error e ↔ f.withTexts = .error e) ∧
      (c.graph.print indent c.package = .error e →
        e.cause ≠ .endless ∧ ∀ kind name, e.cause ≠ .unprintable kind name) := by
  obtain ⟨c, hphases, htest⟩ := exists_of_passesPhases
    (show passesPhases ⟨⟨false, false, false, false, "trees"⟩, treeSchemas⟩ (fun c =>
      c.graph.isSettled c.package &&
        decide ((c.graph.message? 5).map (fun m => m.fields.map (·.type)) =
          some [.node 3, .node 5])) = true by decide +kernel)
  obtain ⟨hsettled, hfields⟩ := Bool.and_eq_true_iff.1 htest
  have hrun := compileAll_ok_iff.2 ⟨hphases, Graph.dangling_eq_nil_of_isSettled hsettled⟩
  have hcompile := compile_ok_iff.2 ⟨c, hrun, rfl⟩
  have h := compile_printable ⟨false, false, false, false, "trees"⟩ treeSchemas
  exact ⟨c, hrun, hcompile, of_decide_eq_true hfields,
    h.1 c (passes_of_ok (compileAll.course _) hrun), h.2 _ hcompile⟩

end ApiProto.Compile
