import ApiProto.Proofs.Ownership
import ApiProto.Proofs.WrapperSources

/-!
# Wrappers that maps of lists share

The values of a map are lists of what a reference refers to, for which there is a message with one
field. Maps share it if the names are the same that their references end in, whatever the references
refer to.

* `MapOfLists` — a map that has been compiled, and the wrapper of its values.
* `ListWrapper` — the shared list wrapper for a reference.
* `CompilesWithin.wrappers`, `CompilesWithin.drawn` — wrappers are kept, and come from the
  description.
* `maps_share_wrappers` — the wrappers of all maps of lists of a package.
-/

namespace ApiProto.Compile

open Proto Document CompileM

variable {env : Environment} {g : Graph} {scope : Scope} {c c₁ c₂ c' : Compilation}
  {options : Options} {spec : Spec} {o : Output} {name ref : String} {comment : Value} {s p : Schema}
  {d : Definition} {t : TypeRef} {w : Nat}

/-! ## Schemas on the way -/

/-- The schema of a place comes from the description. -/
theorem Compiles.drawn {place : Place} (h : Compiles env place name s c d c') :
    Schema.DrawnFrom env.spec s := by
  have hoperation : ∀ {path item e c}, ReachesOperation env path item e c →
      (path, item) ∈ env.spec.paths ∧ e ∈ item.endpoints := by
    rintro path item e c ⟨-, c₀, c₁, -, ⟨before, after, hitem, -⟩, ⟨before', after', he, -⟩⟩
    exact ⟨mem_sortEntries.1 (hitem ▸ by simp), he ▸ by simp⟩
  cases h with
  | definition hcomes =>
    obtain ⟨before, after, hdefinitions, -⟩ := hcomes
    have hmem := mem_sortEntries.1
      (hdefinitions ▸ List.mem_append_right before (List.mem_cons_self ..))
    exact .of_mem_roots (List.mem_append_left _ (List.mem_append_left _
      (List.mem_map.2 ⟨_, hmem, rfl⟩)))
  | parameter _ hcomes hs =>
    obtain ⟨before, after, hparameters, -⟩ := hcomes
    have hmem := mem_sortEntries.1
      (hparameters ▸ List.mem_append_right before (List.mem_cons_self ..))
    exact (parameterSchema_drawn (.of_mem_roots (List.mem_append_left _ (List.mem_append_right _
      (List.mem_map.2 ⟨_, hmem, rfl⟩)))) hs).2
  | request hreaches _ _ hs =>
    obtain ⟨hitem, he⟩ := hoperation hreaches
    exact requestSchema_drawn (fun p hp => .of_parameter hitem he hp) hs
  | response hreaches _ _ hs =>
    obtain ⟨hitem, he⟩ := hoperation hreaches
    exact .of_response hitem he hs
  | responseItems hreaches _ _ hs hitems =>
    obtain ⟨hitem, he⟩ := hoperation hreaches
    exact arrayItems_drawn (.of_response hitem he hs) hitems

theorem ComesToProperty.mem {key : String} {properties : List (String × Schema)}
    (h : ComesToProperty env scope properties c key p c₁) : (key, p) ∈ properties := by
  induction h with
  | here => exact List.mem_cons_self ..
  | there _ _ ih => exact List.mem_cons_of_mem _ ih

/-- All schemas that are compiled come from the description. -/
theorem CompilesWithin.drawn (h : CompilesWithin env scope name comment s c d c') :
    Schema.DrawnFrom env.spec s := by
  induction h with
  | place hplace => exact hplace.drawn
  | items _ _ _ hitems _ ih => exact ih.items hitems
  | value _ _ _ hadditional _ _ _ _ ih => exact ih.additional hadditional
  | listed _ _ _ hadditional _ _ _ hitems _ _ _ ih => exact (ih.additional hadditional).items hitems
  | property _ _ _ _ hp hq _ ih =>
    have hproperty := ih.property (mem_sortEntries.1 hp.mem)
    cases hq with
    | object | unnamed => exact hproperty
    | items _ hitems => exact hproperty.items hitems

/-- The wrappers that there are when a schema has been compiled are there in the end. -/
theorem CompilesWithin.wrappers (h : CompilesWithin env scope name comment s c d c')
    (hrun : compilePhases env (startOf env) = .ok ((), c₂)) : c'.wrappers <+: c₂.wrappers := by
  induction h with
  | place hplace => exact (hplace.continues hrun).2.wrappers
  | items hs hanew htypes hitems hd ih =>
    obtain ⟨opened, hstands⟩ := hs.stands hrun
    exact (hstands.opening.items_grows hs.run hanew htypes hitems hd).wrappers.trans ih
  | value hs hanew hobject hadditional hopen href harray hd ih =>
    obtain ⟨opened, hstands⟩ := hs.stands hrun
    exact (hstands.opening.value_grows hs.run hanew hobject hadditional hopen href harray
      hd).wrappers.trans ih
  | listed hs hanew hobject hadditional hopen href harray hitems hitemsRef hproperties hd ih =>
    obtain ⟨opened, hstands⟩ := hs.stands hrun
    exact (hstands.opening.listed_grows hs.run hanew hobject hadditional hopen href harray hitems
      hitemsRef hproperties hd).wrappers.trans ih
  | property hs hanew hobject hadditional hp hq hd ih =>
    obtain ⟨opened, hstands⟩ := hs.stands hrun
    exact (hstands.opening.property_grows hs.run hanew hobject hadditional hp hq
      hd).wrappers.trans ih

/-! ## Maps of lists -/

/-- A map of lists of a reference gets the wrapper for the name that the reference ends in. -/
theorem refListWrapper_mem (h : refListWrapper env scope (.text ref) c = .ok (t, c')) :
    ∃ w, t = .node w ∧ (refBase ref, w) ∈ c'.wrappers := by
  obtain ⟨text, htext, hcases⟩ := refListWrapper_ok h
  obtain rfl : ref = text := Except.ok.inj htext
  rcases hcases with ⟨wrapper, hwrapper, rfl, rfl⟩ | ⟨-, d, c₁, -, rfl, rfl⟩
  · exact ⟨wrapper, rfl, mem_of_lookup hwrapper⟩
  · exact ⟨_, rfl, List.mem_append_right _ (List.mem_singleton_self _)⟩

theorem compileMap_listed {rawName rawField : String} (hlisted : p.itemReference? = some ref)
    (h : compileMap env scope rawName rawField (part env p) c = .ok (t, c')) :
    ∃ value c₁, refListWrapper env scope (.text ref) c = .ok (value, c₁) ∧
      t = .node c₁.graph.size ∧ c' = c₁.withNode (.map (.builtin .string) value) := by
  obtain ⟨hempty, harray, hne, i, hitems, href⟩ := Schema.itemReference?_eq_some_iff.1 hlisted
  have hitem : i.ref.isEmpty = false := by simp [href, Value.isEmpty, hne]
  obtain ⟨value, c₁, hvalue, rfl, rfl⟩ := compileMap_ok h
  cases hvalue with
  | reference hnot => cases hempty.symm.trans hnot
  | listOfReference _ _ hi _ _ hlist =>
    obtain rfl := Option.some.inj (hitems.symm.trans hi)
    exact ⟨value, c₁, href ▸ hlist, rfl, rfl⟩
  | listOfObjects _ _ hi _ hnot =>
    obtain rfl := Option.some.inj (hitems.symm.trans hi)
    cases hitem.symm.trans hnot
  | list _ _ hlist => cases hitem.symm.trans (hlist i _ hitems (part_items env hitems)).1
  | nested _ hnot | value _ hnot => exact absurd harray hnot

/-- A map of lists that has been compiled: the reference of the items, and the message that is the
value of the map. -/
def MapOfLists (env : Environment) (g : Graph) (ref : String) (w : Nat) : Prop :=
  ∃ scope name comment s c m c',
    CompilesWithin env scope name comment s c (.type (.node m)) c' ∧ Anew scope name s c ∧
      isObject s.denull ∧ s.listedReference? = some ref ∧
      g.node? m = some (.map (.builtin .string) (.node w))

/-- A compiled map of lists has the wrapper for the name of the reference. -/
theorem CompilesWithin.mapOfLists (h : CompilesWithin env scope name comment s c d c')
    (hanew : Anew scope name s c) (hobject : isObject s.denull)
    (hlisted : s.listedReference? = some ref)
    (hrun : compilePhases env (startOf env) = .ok ((), c₂)) :
    ∃ m w, d = .type (.node m) ∧ c₂.graph.node? m = some (.map (.builtin .string) (.node w)) ∧
      (refBase ref, w) ∈ c₂.wrappers := by
  obtain ⟨p, hadditional, hitem⟩ := Option.bind_eq_some_iff.1 hlisted
  obtain ⟨-, harray, -⟩ := Schema.itemReference?_eq_some_iff.1 hitem
  have hopen : isOpen p = false := by
    unfold isOpen
    rcases htypes : p.types with _ | ⟨type, types⟩
    · rw [Schema.firstType, htypes] at harray
      exact absurd harray (by decide)
    · rfl
  have hnew := compileSchema_anew hanew h.run
  rw [hadditional, Option.map_some] at hnew
  obtain ⟨t, rfl, hmap⟩ := compileNew_map hobject hopen hnew
  obtain ⟨value, c₁, hwrapper, rfl, rfl⟩ := compileMap_listed hitem hmap
  obtain ⟨w, rfl, hmem⟩ := refListWrapper_mem hwrapper
  obtain ⟨opened, hstands⟩ := h.stands hrun
  have hentry : (refBase ref, w) ∈ c₂.wrappers := (h.wrappers hrun).subset hmem
  obtain ⟨value', hnode, hbecomes⟩ := hstands.settles.map
    (hstands.opening.of_runs (refListWrapper_runs hwrapper)).size_not_mem (Graph.node?_add_self _)
  obtain ⟨c₀, -, hmade⟩ := wrappersMade_of_phases hrun
  obtain ⟨_, _, _, -, hwrapperMade⟩ := hmade.made _ hentry
  -- the wrapper is a message, so nothing takes its place
  have hsame : value' = .node w := hbecomes.resolve_right (by
    rintro ⟨id, next, heq, hreference⟩
    obtain rfl := TypeRef.node.inj heq
    cases hwrapperMade.node.symm.trans hreference)
  exact ⟨_, w, rfl, hsame ▸ hnode, hentry⟩

theorem MapOfLists.mem_wrappers (h : MapOfLists env g ref w)
    (hrun : compilePhases env (startOf env) = .ok ((), c₂)) (hg : g = c₂.graph) :
    (refBase ref, w) ∈ c₂.wrappers := by
  obtain ⟨scope, name, comment, s, c, m, c', hwithin, hanew, hobject, hlisted, hnode⟩ := h
  obtain ⟨m', w', heq, hnode', hentry⟩ := hwithin.mapOfLists hanew hobject hlisted hrun
  obtain rfl := TypeRef.node.inj (Definition.type.inj heq)
  rw [hg, hnode'] at hnode
  obtain ⟨-, heq⟩ := Node.map.inj (Option.some.inj hnode)
  exact TypeRef.node.inj heq ▸ hentry

/-! ## Packages -/

/-- The shared list wrapper for a reference: its one field has the type that the reference refers
to. It stands in the package once, unless a type inside a message has its name. -/
structure ListWrapper (env : Environment) (o : Output) (w : Nat) (ref name : String)
    (item : TypeRef) : Prop where
  listed : ref ∈ env.spec.listedReferences
  message : o.graph.message? w =
    some (listWrapper name "items" (refBase ref) (.text "") item)
  stands : ∀ t, RefersTo env o.graph ref t ↔ StandsFor env o.graph item t
  refers : o.graph.Reachable o.package (.node w) → RefersTo env o.graph ref item
  placed : (o.graph.children o.package).count (.node w) = 1 ∨
    ∃ container t, container ≠ o.package ∧ t ≠ .node w ∧ t ∈ o.graph.children container ∧
      o.graph.typeName t = name

/-- The names that the references of lists end in tell apart what they refer to. -/
def NamesTell (env : Environment) (g : Graph) : Prop :=
  ∀ ref ∈ env.spec.listedReferences, ∀ ref' ∈ env.spec.listedReferences, ∀ t t',
    RefersTo env g ref t → RefersTo env g ref' t' → (refBase ref = refBase ref' ↔ t = t')

/-- What has been made for a list wrapper is one in the package that results. -/
theorem Compilation.WrapperMade.inPackage {c₀ : Compilation} {item : TypeRef}
    (h : c₀.WrapperMade env.spec c w ref name item)
    (hnamed : compileNamed env (startOf env) = .ok ((), c₀))
    (hrun : compileAll env (startOf env) = .ok ((), c)) :
    ListWrapper env ⟨c.graph, c.package⟩ w ref name item := by
  obtain ⟨hphases, hdangling⟩ := compileAll_ok_iff.1 hrun
  obtain ⟨scope, howned⟩ := owned_of_passes (passes_of_ok (compileAll.course env) hrun)
  have hmessage := Graph.message?_of_node? h.node
  have hstands : ∀ t, RefersTo env c.graph ref t ↔ StandsFor env c.graph item t := by
    refine fun t => exists_congr fun c₀' => and_congr_right fun hnamed' => ?_
    obtain ⟨-, rfl⟩ := Prod.mk.inj (Except.ok.inj (hnamed.symm.trans hnamed'))
    exact h.represents c.graph (keepsReferences_of_compilePhases hphases hnamed) (.refl _) t
  refine ⟨h.listed, hmessage, hstands, fun hreachable => (hstands item).2 ?_, ?_⟩
  · have hitem : c.graph.Reachable c.package item :=
      hreachable.mention h.node (by simp [listWrapper, Node.mentions])
    exact ⟨c₀, hnamed, .inl ⟨not_isReference_of_reachable hdangling hitem, rfl⟩⟩
  · refine h.placed.imp (fun hlog => ?_) ?_
    · have hchild := (howned.registered.children c.package w
        (Graph.isDeclared_of_node? h.node)).2 hlog
      exact List.count_eq_one_of_mem (howned.once _) hchild
    · rintro ⟨container, id, n, hne, hid, hlog, hn, hown⟩
      have hdeclared := howned.registered.declared _ hlog
      exact ⟨container, .node id, hne, fun heq => hid (TypeRef.node.inj heq),
        (howned.registered.children container id hdeclared).2 hlog,
        Graph.typeName_of_ownName? hn hown⟩

/-- All maps of lists of a package have wrappers for their references, and two maps share one if and
only if the names are the same that their references end in. Where these names tell apart what the
references refer to, the maps share wrappers by type. -/
theorem maps_share_wrappers (h : compile options spec = .ok o) :
    (∀ scope name comment s c d c' ref, CompilesWithin ⟨options, spec⟩ scope name comment s c d c' →
      Anew scope name s c → isObject s.denull → s.listedReference? = some ref →
      ref ∈ spec.listedReferences ∧ ∃ m w, d = .type (.node m) ∧
        o.graph.node? m = some (.map (.builtin .string) (.node w)) ∧
        MapOfLists ⟨options, spec⟩ o.graph ref w) ∧
    (∀ ref w, MapOfLists ⟨options, spec⟩ o.graph ref w → ∃ listed name item,
      refBase listed = refBase ref ∧ ListWrapper ⟨options, spec⟩ o w listed name item) ∧
    (∀ ref w ref' w', MapOfLists ⟨options, spec⟩ o.graph ref w →
      MapOfLists ⟨options, spec⟩ o.graph ref' w' → (w = w' ↔ refBase ref = refBase ref')) ∧
    (NamesTell ⟨options, spec⟩ o.graph → ∀ ref w t, MapOfLists ⟨options, spec⟩ o.graph ref w →
      RefersTo ⟨options, spec⟩ o.graph ref t →
      (o.graph.Reachable o.package (.node w) → ∃ name,
        o.graph.message? w = some (listWrapper name "items" (refBase ref) (.text "") t)) ∧
      ∀ ref' w' t', MapOfLists ⟨options, spec⟩ o.graph ref' w' →
        RefersTo ⟨options, spec⟩ o.graph ref' t' → (w = w' ↔ t = t')) := by
  obtain ⟨c, hrun, rfl⟩ := compile_ok_iff.1 h
  have hphases := (compileAll_ok_iff.1 hrun).1
  obtain ⟨c₀, hnamed, hmade⟩ := wrappersMade_of_phases hphases
  have hlisted : ∀ {ref w}, MapOfLists ⟨options, spec⟩ c.graph ref w →
      ref ∈ spec.listedReferences := by
    rintro ref w ⟨_, _, _, s, _, _, _, hwithin, -, -, href, -⟩
    exact hwithin.drawn.listed s (.self s) ref href
  have hwrapper : ∀ ref w, MapOfLists ⟨options, spec⟩ c.graph ref w → ∃ listed name item,
      refBase listed = refBase ref ∧
        ListWrapper ⟨options, spec⟩ ⟨c.graph, c.package⟩ w listed name item := by
    intro ref w hmap
    obtain ⟨listed, name, item, hbase, hwrapper⟩ := hmade.made _ (hmap.mem_wrappers hphases rfl)
    exact ⟨listed, name, item, hbase.symm, hwrapper.inPackage hnamed hrun⟩
  have hsame : ∀ ref w ref' w', MapOfLists ⟨options, spec⟩ c.graph ref w →
      MapOfLists ⟨options, spec⟩ c.graph ref' w' → (w = w' ↔ refBase ref = refBase ref') := by
    intro ref w ref' w' hmap hmap'
    have hentry := hmap.mem_wrappers hphases rfl
    have hentry' := hmap'.mem_wrappers hphases rfl
    exact ⟨fun heq => (Prod.mk.inj (List.inj_on_of_nodup_map hmade.nodes hentry hentry' heq)).1,
      fun heq => (Prod.mk.inj (List.inj_on_of_nodup_map hmade.bases hentry hentry' heq)).2⟩
  refine ⟨fun scope name comment s c₁ d c₁' ref hwithin hanew hobject href => ?_, hwrapper, hsame,
    fun htell ref w t hmap ht => ⟨fun hreachable => ?_, fun ref' w' t' hmap' ht' => ?_⟩⟩
  · obtain ⟨m, w, rfl, hnode, -⟩ := hwithin.mapOfLists hanew hobject href hphases
    exact ⟨hwithin.drawn.listed s (.self s) ref href, m, w, rfl, hnode,
      scope, name, comment, s, c₁, m, c₁', hwithin, hanew, hobject, href, hnode⟩
  · obtain ⟨listed, name, item, hbase, hwrapper⟩ := hwrapper ref w hmap
    have hitem := htell listed hwrapper.listed ref (hlisted hmap) item t
      (hwrapper.refers hreachable) ht
    obtain rfl := hitem.1 hbase
    exact ⟨name, hbase ▸ hwrapper.message⟩
  · exact (hsame ref w ref' w' hmap hmap').trans
      (htell ref (hlisted hmap) ref' (hlisted hmap') t t' ht ht')

/-- A definition that is a map of lists, whose name is free when the compilation comes to it, is
compiled to a new map. -/
theorem exists_mapOfLists {before after : List (String × Schema)} {key : String}
    (hrun : compilePhases env (startOf env) = .ok ((), c₂))
    (hsorted : sortEntries env.spec.definitions =
      before ++ (key, .map (.array (.reference ref))) :: after) (hne : ref ≠ "")
    (hfree : (before.forM (compileDefinition env [env.package]) (announced env)).map
      (fun r => r.2.registry.lookup r.2.graph (Name.pascal key) [env.package]) = .ok none) :
    ∃ w, MapOfLists env c₂.graph ref w ∧ (refBase ref, w) ∈ c₂.wrappers := by
  obtain ⟨c₀, _, hnamed, -⟩ := compilePhases_ok hrun
  obtain ⟨c₁, hdefinitions, -⟩ := compileNamed_states hnamed
  rw [compileDefinitions_eq, hsorted] at hdefinitions
  obtain ⟨c, hbefore, hrest⟩ := forM_ok_append.1 hdefinitions
  obtain ⟨c₃, hstep, -⟩ := forM_ok_cons.1 hrest
  obtain ⟨d, c', hd, -⟩ := compileDefinition_ok hstep
  rw [hbefore] at hfree
  have hname := Except.ok.inj hfree
  have hwithin : CompilesWithin env [env.package] _ _ _ c d c' :=
    .place (.definition ⟨before, after, hsorted, hbefore⟩ hd) hd
  have hanew : Anew [env.package] (Name.pascal key) (.map (.array (.reference ref))) c :=
    ⟨rfl, hname, by rwa [Name.pascal_pascal]⟩
  have hobject : isObject (Schema.map (.array (.reference ref))).denull :=
    ⟨Nat.le_refl 1, .inr (List.mem_singleton_self _)⟩
  have hitem : (Schema.array (.reference ref)).itemReference? = some ref :=
    Schema.itemReference?_eq_some_iff.2 ⟨rfl, rfl, hne, .reference ref, rfl, rfl⟩
  obtain ⟨m, w, rfl, hnode, hentry⟩ := hwithin.mapOfLists hanew hobject hitem hrun
  exact ⟨w, ⟨_, _, _, _, c, m, c', hwithin, hanew, hobject, hitem, hnode⟩, hentry⟩

/-- Where no references are left, a definition is what its reference refers to. -/
theorem refersTo_of_lookup (hrun : compilePhases env (startOf env) = .ok ((), c))
    (hresolved : g.isResolved = true)
    (hlookup : (compileNamed env (startOf env)).map (fun r => r.2.table.lookup ref) = .ok (some t)) :
    RefersTo env g ref t := by
  obtain ⟨c₀, _, hnamed, -⟩ := compilePhases_ok hrun
  rw [hnamed] at hlookup
  have ht : (Targets.ofTable c₀.table).resolve ref = .ok t :=
    Targets.resolve_ofTable_eq_ok.2 (Except.ok.inj hlookup)
  exact ⟨c₀, hnamed, ref, .refl, ht, not_isReference_of_isResolved hresolved t⟩

/-- Homes and owners of cats and kennels of dogs, under names. -/
def petHomes : Spec := .ofDefinitions [
  ("Cat", .object [("name", .scalar "string")]),
  ("Dog", .object [("name", .scalar "string")]),
  ("Homes", .map (.array (.reference "#/definitions/Cat"))),
  ("Kennels", .map (.array (.reference "#/definitions/Dog"))),
  ("Owners", .map (.array (.reference "#/definitions/Cat")))]

theorem maps_share_wrappers_petHomes : ∃ o w w' listed name item,
    compile ⟨false, false, false, false, "pet"⟩ petHomes = .ok o ∧
    MapOfLists ⟨⟨false, false, false, false, "pet"⟩, petHomes⟩ o.graph "#/definitions/Cat" w ∧
    MapOfLists ⟨⟨false, false, false, false, "pet"⟩, petHomes⟩ o.graph "#/definitions/Dog" w' ∧
    NamesTell ⟨⟨false, false, false, false, "pet"⟩, petHomes⟩ o.graph ∧ w ≠ w' ∧
    (∀ w₁, MapOfLists ⟨⟨false, false, false, false, "pet"⟩, petHomes⟩ o.graph "#/definitions/Cat"
      w₁ → w = w₁) ∧
    refBase listed = "Cat" ∧
    ListWrapper ⟨⟨false, false, false, false, "pet"⟩, petHomes⟩ o w listed name item := by
  obtain ⟨c, hrun, hresolved⟩ := compileAll_of_compilesTo
    (show compilesTo ⟨false, false, false, false, "pet"⟩ petHomes (·.graph.isResolved) = true by
      decide +kernel)
  have hcompile := compile_ok_iff.2 ⟨c, hrun, rfl⟩
  have hphases := (compileAll_ok_iff.1 hrun).1
  obtain ⟨w, hcat, -⟩ := exists_mapOfLists hphases
    (show sortEntries petHomes.definitions =
      petHomes.definitions.take 2 ++ ("Homes", _) :: petHomes.definitions.drop 3 from rfl)
    (by decide) (by decide +kernel)
  obtain ⟨w', hdog, -⟩ := exists_mapOfLists hphases
    (show sortEntries petHomes.definitions =
      petHomes.definitions.take 3 ++ ("Kennels", _) :: petHomes.definitions.drop 4 from rfl)
    (by decide) (by decide +kernel)
  have hcatRefers : RefersTo ⟨⟨false, false, false, false, "pet"⟩, petHomes⟩ c.graph
      "#/definitions/Cat" (.node 2) := refersTo_of_lookup hphases hresolved (by decide +kernel)
  have hdogRefers : RefersTo ⟨⟨false, false, false, false, "pet"⟩, petHomes⟩ c.graph
      "#/definitions/Dog" (.node 3) := refersTo_of_lookup hphases hresolved (by decide +kernel)
  have htell : NamesTell ⟨⟨false, false, false, false, "pet"⟩, petHomes⟩ c.graph := by
    have hlisted : ∀ ref ∈ petHomes.listedReferences,
        ref = "#/definitions/Cat" ∨ ref = "#/definitions/Dog" := by decide
    intro ref href ref' href' t t' ht ht'
    rcases hlisted ref href with rfl | rfl <;> rcases hlisted ref' href' with rfl | rfl
    · exact iff_of_true rfl (RefersTo.unique ht ht')
    · rw [RefersTo.unique ht hcatRefers, RefersTo.unique ht' hdogRefers]
      exact iff_of_false (by decide +kernel) (by decide)
    · rw [RefersTo.unique ht hdogRefers, RefersTo.unique ht' hcatRefers]
      exact iff_of_false (by decide +kernel) (by decide)
    · exact iff_of_true rfl (RefersTo.unique ht ht')
  obtain ⟨-, hwrapper, hsame, hshare⟩ := maps_share_wrappers hcompile
  obtain ⟨listed, name, item, hbase, hmade⟩ := hwrapper _ _ hcat
  refine ⟨_, w, w', listed, name, item, hcompile, hcat, hdog, htell, fun heq => ?_,
    fun w₁ hmap => (hsame _ _ _ _ hcat hmap).2 rfl, hbase.trans (by decide +kernel), hmade⟩
  exact absurd (((hshare htell _ _ _ hcat hcatRefers).2 _ _ _ hdog hdogRefers).1 heq) (by decide)

/-- Names and sizes in lists, under types whose names differ in their spelling alone. -/
def spelledLists : Spec := .ofDefinitions [
  ("aB", .scalar "integer"),
  ("a_b", .scalar "string"),
  ("names", .map (.array (.reference "#/definitions/a_b"))),
  ("sizes", .map (.array (.reference "#/definitions/aB"))),
  ("zoo", .object [("names", .reference "#/definitions/names"),
    ("sizes", .reference "#/definitions/sizes")])]

/-- Lists of different types share a wrapper, which lists only one of them. -/
theorem shared_by_types_spelledLists : ∃ o w,
    compile ⟨false, false, false, false, "pet"⟩ spelledLists = .ok o ∧
    MapOfLists ⟨⟨false, false, false, false, "pet"⟩, spelledLists⟩ o.graph "#/definitions/a_b" w ∧
    MapOfLists ⟨⟨false, false, false, false, "pet"⟩, spelledLists⟩ o.graph "#/definitions/aB" w ∧
    RefersTo ⟨⟨false, false, false, false, "pet"⟩, spelledLists⟩ o.graph "#/definitions/a_b"
      (.builtin .string) ∧
    RefersTo ⟨⟨false, false, false, false, "pet"⟩, spelledLists⟩ o.graph "#/definitions/aB"
      (.builtin .int32) ∧
    (o.graph.message? w).map (fun m => m.fields.map (·.type)) = some [.builtin .string] := by
  obtain ⟨c, hrun, htest⟩ := compileAll_of_compilesTo
    (show compilesTo ⟨false, false, false, false, "pet"⟩ spelledLists (fun c =>
      c.graph.isResolved && decide (c.wrappers = [("AB", 2)] ∧
        (c.graph.message? 2).map (fun m => m.fields.map (·.type)) = some [.builtin .string])) =
          true by decide +kernel)
  have hcompile := compile_ok_iff.2 ⟨c, hrun, rfl⟩
  have hphases := (compileAll_ok_iff.1 hrun).1
  obtain ⟨hresolved, htest⟩ := Bool.and_eq_true_iff.1 htest
  obtain ⟨hwrappers, hfields⟩ := of_decide_eq_true htest
  have hnode : ∀ {base w}, (base, w) ∈ c.wrappers → w = 2 := fun hentry =>
    (Prod.mk.inj (List.mem_singleton.1 (hwrappers ▸ hentry))).2
  obtain ⟨w, hnames, hentry⟩ := exists_mapOfLists hphases
    (show sortEntries spelledLists.definitions =
      spelledLists.definitions.take 2 ++ ("names", _) :: spelledLists.definitions.drop 3 from rfl)
    (by decide) (by decide +kernel)
  obtain ⟨w', hsizes, hentry'⟩ := exists_mapOfLists hphases
    (show sortEntries spelledLists.definitions =
      spelledLists.definitions.take 3 ++ ("sizes", _) :: spelledLists.definitions.drop 4 from rfl)
    (by decide) (by decide +kernel)
  obtain rfl := hnode hentry
  obtain rfl := hnode hentry'
  exact ⟨_, 2, hcompile, hnames, hsizes,
    refersTo_of_lookup hphases hresolved (by decide +kernel),
    refersTo_of_lookup hphases hresolved (by decide +kernel), hfields⟩

end ApiProto.Compile
