import ApiProto.Proofs.SchemaMaps

/-!
# Where maps come to stand

No field that is a map is repeated, and no map is the value of a map, as long as the description
does not ask for that.

* `AllAllowMaps` — the descriptions in which no list holds maps, and no map refers to maps for its
  values.
* `compile_placesMaps` — compiling such a description places maps where they can stand.
* `compile_misplaces_maps` — what becomes of another one.
-/

namespace ApiProto.Compile

open Proto Document CompileM

/-! ## Compiling descriptions -/

/-- The schema of a place. -/
inductive Place.Holds (spec : Spec) : Place → Schema → Prop
  | definition (name : String) (s : Schema) : Place.Holds spec (.definition name s) s
  | parameter {name : String} {p : Parameter} {s : Schema} : CompiledAs p s →
      Place.Holds spec (.parameter name p) s
  | request {path : String} {item : PathItem} {e : Endpoint} {s : Schema} {c : Compilation} :
      requestSchema (item.parameters ++ e.parameters) c = .ok (s, c) →
      Place.Holds spec (.request path item e) s
  | response {path : String} {item : PathItem} {e : Endpoint} {s : Schema} :
      responseSchema? e = some s → arrayItems spec s = .ok none →
      Place.Holds spec (.response path item e) s
  | responseItems {path : String} {item : PathItem} {e : Endpoint} {s i : Schema} :
      responseSchema? e = some s → arrayItems spec s = .ok (some i) →
      Place.Holds spec (.response path item e) i

/-- A description in which no list holds maps, and no map refers to maps for its values. -/
structure AllAllowMaps (env : Environment) : Prop where
  inside : ∀ place : Place, place.In env → ∀ root, place.Holds env.spec root →
    ∀ s, Inside s root → AllowsMaps env.spec s
  parameters : ∀ name p s, (name, p) ∈ env.spec.parameters → p.isArray = true → CompiledAs p s →
    ¬ GivesMap env.spec s
  responses : ∀ path item e s i, (Place.response path item e).In env → responseSchema? e = some s →
    arrayItems env.spec s = .ok (some i) → ¬ GivesMap env.spec i

section Descriptions

variable {env : Environment} {scope : Scope} {c c₁ c' : Compilation} {t : TypeRef}

theorem start_placesMaps (maps : String → Prop) (packageName serviceName : String)
    (options : List (String × String)) :
    (start packageName serviceName options).PlacesMaps maps where
  graph id n hn := by rcases start_node? hn with ⟨-, rfl⟩ | ⟨-, rfl⟩ <;> trivial
  definitions := nofun
  lists := nofun
  wrappers := nofun
  declared := nofun

theorem announced_placesMaps (env : Environment) (maps : String → Prop) :
    (announced env).PlacesMaps maps := by
  obtain ⟨packageName, serviceName, options, heq⟩ := startOf_is_start env
  have hstart : (startOf env).PlacesMaps maps := heq ▸ start_placesMaps ..
  unfold announced
  split
  · exact (hstart.importFile _).placesMaps
  · exact hstart

/-- The schema of a place, and what is inside it, places maps where they can stand. -/
theorem AllAllowMaps.part (hall : AllAllowMaps env) (place : Place) {s : Schema}
    (hplace : place.In env) (hs : place.Holds env.spec s) :
    ActionPlacesMaps env.spec s (compileSchema env s) :=
  (compileSchema_placesMaps env env.spec s (hall.inside place hplace s hs)).whole

theorem compileDefinition_placesMaps (hall : AllAllowMaps env) {entry : String × Schema}
    (hentry : entry ∈ env.spec.definitions)
    (h : compileDefinition env scope entry c = .ok ((), c'))
    (hc : c.PlacesMaps (NamesMap env.spec)) : c'.PlacesMaps (NamesMap env.spec) := by
  obtain ⟨name, s⟩ := entry
  obtain ⟨d, c₁, hd, rfl⟩ := compileDefinition_ok h
  obtain ⟨hgoes, hyields⟩ := hall.part (.definition name s) hentry (.definition name s)
    _ _ _ _ _ _ hd hc
  exact (hgoes.placesMaps.defining _ (hyields.imp (.definition hentry))).placesMaps

/-- The fields of a shared parameter are repeated only if its type is no map. -/
theorem compileParameter_placesMaps (hall : AllAllowMaps env) {entry : String × Parameter}
    (hentry : entry ∈ env.spec.parameters)
    (h : compileParameter env scope entry c = .ok ((), c'))
    (hc : c.PlacesMaps (NamesMap env.spec)) : c'.PlacesMaps (NamesMap env.spec) := by
  obtain ⟨name, p⟩ := entry
  obtain ⟨key, s, d, c₁, fieldName, hs, hd, rfl⟩ := compileParameter_ok h
  have hs : CompiledAs p s := ⟨key, c, hs⟩
  obtain ⟨hgoes, hyields⟩ := hall.part (.parameter name p) hentry (.parameter hs)
    _ _ _ _ _ _ hd hc
  refine (hgoes.placesMaps.defining _ ⟨fun hno => ?_, fun hlist => ?_⟩).placesMaps
  · exact hyields.noMap fun hgives => hno (.parameter hentry hs hgives)
  · exact hyields.noMap (hall.parameters name p s hentry hlist hs)

theorem compileNamed_placesMaps (hall : AllAllowMaps env)
    (h : compileNamed env (startOf env) = .ok ((), c)) : c.PlacesMaps (NamesMap env.spec) := by
  obtain ⟨c₀, hdefinitions, hparameters⟩ := compileNamed_states h
  rw [compileDefinitions_eq] at hdefinitions
  rw [compileParameters_eq] at hparameters
  have hc₀ : c₀.PlacesMaps (NamesMap env.spec) :=
    forM_ok_induct (fun entry hentry _ _ =>
      compileDefinition_placesMaps hall (mem_sortEntries.1 hentry)) hdefinitions
      (announced_placesMaps env _)
  exact forM_ok_induct (fun entry hentry _ _ =>
    compileParameter_placesMaps hall (mem_sortEntries.1 hentry)) hparameters hc₀

theorem compileRequest_placesMaps (hall : AllAllowMaps env) {path name : String} {item : PathItem}
    {e : Endpoint} (hskip : env.options.skipRpcs = false) (hitem : (path, item) ∈ env.spec.paths)
    (he : e ∈ item.endpoints)
    (h : compileRequest env scope name (item.parameters ++ e.parameters) c = .ok (t, c'))
    (hc : c.PlacesMaps (NamesMap env.spec)) : c'.PlacesMaps (NamesMap env.spec) := by
  rcases hsome : (item.parameters ++ e.parameters).isEmpty with _ | _
  · obtain ⟨s, d, c₁, hs, hd, rfl, rfl⟩ := compileRequest_ok hsome h
    obtain ⟨hgoes, -⟩ := hall.part (.request path item e) ⟨hskip, hitem, he, hsome⟩
      (.request hs) _ _ _ _ _ _ hd hc
    exact (hgoes.placesMaps.declareHere _ _).placesMaps
  · obtain ⟨rfl, rfl⟩ := compileRequest_none hsome h
    exact hc

/-- The items of a response that is an array are repeated. -/
theorem compileResponse_placesMaps (hall : AllAllowMaps env) {path name : String} {item : PathItem}
    {e : Endpoint} (hskip : env.options.skipRpcs = false) (hitem : (path, item) ∈ env.spec.paths)
    (he : e ∈ item.endpoints) (h : compileResponse env scope name e c = .ok (t, c'))
    (hc : c.PlacesMaps (NamesMap env.spec)) : c'.PlacesMaps (NamesMap env.spec) := by
  rcases hs : responseSchema? e with _ | s
  · obtain ⟨rfl, rfl⟩ := compileResponse_none hs h
    exact hc
  · have hplace : (Place.response path item e).In env := ⟨hskip, hitem, he, by rw [hs]; rfl⟩
    rcases compileResponse_ok hs h with ⟨i, c₁, hi, ht, rfl⟩ | ⟨d, c₁, hi, hd, rfl, rfl⟩
    · obtain ⟨d, c₂, hd, rfl, rfl⟩ := compileArrayResponse_ok ht
      obtain ⟨hgoes, hyields⟩ := hall.part _ hplace (.responseItems hs hi) _ _ _ _ _ _ hd hc
      have hnoMap := hyields.noMap (hall.responses path item e s i hplace hs hi)
      have hmessage : c₂.GoesOn (NamesMap env.spec)
          (c₂.withNode (.message (arrayMessage (name ++ "Response") d.unwrap))) :=
        hgoes.placesMaps.withNode fun f hf _ => by rwa [List.mem_singleton.1 hf]
      exact ((hmessage.placesMaps.importing _).placesMaps.declareHere _ _).placesMaps
    · obtain ⟨hgoes, -⟩ := hall.part _ hplace (.response hs hi) _ _ _ _ _ _ hd hc
      exact (hgoes.placesMaps.declareHere _ _).placesMaps

theorem compileOperation_placesMaps (hall : AllAllowMaps env) {path : String} {item : PathItem}
    {e : Endpoint} (hskip : env.options.skipRpcs = false) (hitem : (path, item) ∈ env.spec.paths)
    (he : e ∈ item.endpoints)
    (h : compileOperation env scope path item.parameters e c = .ok ((), c'))
    (hc : c.PlacesMaps (NamesMap env.spec)) : c'.PlacesMaps (NamesMap env.spec) := by
  obtain ⟨_, request, c₁, response, c₂, rpc, -, hrequest, hresponse, -, -, rfl⟩ :=
    compileOperation_ok h
  have hc₁ := compileRequest_placesMaps hall hskip hitem he hrequest hc
  exact ((compileResponse_placesMaps hall hskip hitem he hresponse hc₁).serving rpc).placesMaps

theorem compilePhases_placesMaps (hall : AllAllowMaps env)
    (h : compilePhases env (startOf env) = .ok ((), c)) : c.PlacesMaps (NamesMap env.spec) := by
  obtain ⟨c₀, c₁, c₂, hnamed, hresolve, hextensions, hpaths⟩ := compilePhases_states h
  have hc₁ := resolveAll_placesMaps (compileNamed_placesMaps hall hnamed) hresolve
  have hstart : Compilation.PlacesMaps (NamesMap env.spec) { c₁ with deferring := false } :=
    ⟨hc₁.graph, hc₁.definitions, hc₁.lists, hc₁.wrappers, hc₁.declared⟩
  have hc₂ : c₂.PlacesMaps (NamesMap env.spec) := by
    refine forM_ok_induct (fun e _ c c' hstep hc => ?_) hextensions hstart
    obtain ⟨e', rfl⟩ := compileExtension_ok hstep
    exact ((hc.importingAll _).placesMaps.extending e').placesMaps
  split at hpaths
  · exact hpaths ▸ hc₂
  · next hskip =>
    rw [compilePaths_eq] at hpaths
    refine forM_ok_induct (fun entry hentry c c' hstep hc => ?_) hpaths hc₂
    obtain ⟨path, item⟩ := entry
    exact forM_ok_induct (fun e he _ _ => compileOperation_placesMaps hall
      (Bool.eq_false_iff.2 hskip) (mem_sortEntries.1 hentry) he) (compilePathEntry_ok hstep) hc

end Descriptions

/-! ## The result -/

/-- No field that is a map is repeated, and no map is the value of a map. -/
structure MapsStand (g : Graph) : Prop where
  fields : ∀ id m f, g.message? id = some m → f ∈ m.fields → f.repeated = true → ¬ g.IsMap f.type
  values : ∀ id key value, g.node? id = some (.map key value) → ¬ g.IsMap value

/-- Where no list holds maps, and no map refers to maps for its values, maps come to stand only
where they can, wherever they have been written. -/
theorem compile_placesMaps {options : Options} {spec : Spec} {o : Output}
    (hall : AllAllowMaps ⟨options, spec⟩) (h : compile options spec = .ok o) :
    MapsStand o.graph := by
  obtain ⟨c, hrun, rfl⟩ := compile_ok_iff.1 h
  have hc := compilePhases_placesMaps hall (compileAll_ok_iff.1 hrun).1
  refine ⟨fun id m f hm hf hrepeated => ?_, fun id key value hn => ?_⟩
  · have hholds := hc.graph id _ (Graph.node?_of_message? hm)
    exact (hholds f hf hrepeated).not_isMap
  · have hholds : c.graph.NoMap (NamesMap spec) value := hc.graph id _ hn
    exact hholds.not_isMap

/-- What holds of a schema and of all that is inside its parts holds of all that is inside it. -/
theorem forall_inside {P : Schema → Prop} {s : Schema} (hself : P s)
    (hitems : ∀ i, s.items = some i → ∀ t, Inside t i → P t)
    (hadditional : ∀ p, s.additional = some p → ∀ t, Inside t p → P t)
    (hproperties : ∀ entry ∈ s.properties, ∀ t, Inside t entry.2 → P t) :
    ∀ t, Inside t s → P t := by
  intro t ht
  cases ht with
  | self => exact hself
  | items hi ht => exact hitems _ hi t ht
  | additional hp ht => exact hadditional _ hp t ht
  | property hentry ht => exact hproperties _ hentry t ht

/-- An object with a reference to a map, a list, and a map whose values are written out as maps. -/
def petSchema : Schema := .object [("labels", .reference "#/definitions/Labels"),
  ("names", .array (.scalar "string")), ("notes", .map (.map (.scalar "string")))]

/-- A named map, and an object that refers to it. -/
def labelSchemas : Spec :=
  .ofDefinitions [("Labels", .map (.scalar "string")), ("Pet", petSchema)]

theorem not_givesMap_scalar (spec : Spec) : ¬ GivesMap spec (.scalar "string") := by
  intro h
  cases h with
  | map _ _ hadditional => cases hadditional
  | items _ _ hitems => cases hitems
  | reference href => cases href

theorem inside_scalar_allowsMaps (spec : Spec) :
    ∀ t, Inside t (.scalar "string") → AllowsMaps spec t :=
  forall_inside ⟨nofun, nofun⟩ nofun nofun nofun

theorem inside_map_allowsMaps {spec : Spec} {p : Schema} (hp : AllowsValue spec p)
    (hinside : ∀ t, Inside t p → AllowsMaps spec t) :
    ∀ t, Inside t (.map p) → AllowsMaps spec t :=
  forall_inside ⟨nofun, fun _ h => Option.some.inj h ▸ hp⟩ nofun
    (fun _ h => Option.some.inj h ▸ hinside) nofun

theorem allowsValue_scalar (spec : Spec) : AllowsValue spec (.scalar "string") :=
  ⟨fun _ => not_givesMap_scalar spec, fun _ => nofun, fun _ _ => nofun⟩

theorem labelSchemas_allow (options : Options) : AllAllowMaps ⟨options, labelSchemas⟩ := by
  have hmap := inside_map_allowsMaps (allowsValue_scalar labelSchemas)
    (inside_scalar_allowsMaps labelSchemas)
  have hnested : AllowsValue labelSchemas (.map (.scalar "string")) :=
    ⟨nofun, fun _ => nofun, fun _ _ => nofun⟩
  have hproperties : ∀ entry ∈ petSchema.properties,
      entry = ("labels", .reference "#/definitions/Labels") ∨
        entry = ("names", .array (.scalar "string")) ∨
        entry = ("notes", .map (.map (.scalar "string"))) := by simp [petSchema, Schema.object]
  have hpet : AllowsMaps labelSchemas petSchema := by
    refine ⟨fun entry hentry _ i hi => ?_, nofun⟩
    rcases hproperties entry hentry with rfl | rfl | rfl
    · cases hi
    · obtain rfl := Option.some.inj hi
      exact not_givesMap_scalar _
    · cases hi
  refine ⟨fun place hplace root hroot => ?_, nofun, fun _ _ _ _ _ hplace => nomatch hplace.2.1⟩
  cases hroot with
  | parameter => cases hplace
  | request | response | responseItems => cases hplace.2.1
  | definition name =>
    rcases List.mem_cons.1 hplace with heq | hplace
    · obtain rfl := (Prod.mk.inj heq).2
      exact hmap
    · obtain rfl := (Prod.mk.inj (List.mem_singleton.1 hplace)).2
      refine forall_inside hpet nofun nofun fun entry hentry => ?_
      rcases hproperties entry hentry with rfl | rfl | rfl
      · exact forall_inside ⟨nofun, nofun⟩ nofun nofun nofun
      · exact forall_inside ⟨nofun, nofun⟩
          (fun _ h => Option.some.inj h ▸ inside_scalar_allowsMaps labelSchemas) nofun nofun
      · exact inside_map_allowsMaps hnested hmap

theorem compile_placesMaps_labelSchemas : ∃ o,
    compile ⟨false, false, false, false, "pet"⟩ labelSchemas = .ok o ∧ MapsStand o.graph := by
  obtain ⟨c, hcompile, -⟩ := compile_of_compilesTo
    (show compilesTo ⟨false, false, false, false, "pet"⟩ labelSchemas (fun _ => true) = true by
      decide +kernel)
  exact ⟨_, hcompile, compile_placesMaps (labelSchemas_allow _) hcompile⟩

/-- The field of a name, of the message of a name that is declared in a package. -/
def field? (o : Output) (message field : String) : Option (Proto.Field TypeRef Value) :=
  (o.graph.children o.package).findSome? fun t => match t with
    | .node id => (o.graph.message? id).bind fun m =>
        if m.name = message then m.fields.find? fun f => f.name == field else none
    | .builtin _ => none

/-- What a map maps to. -/
def mapValue? (g : Graph) : TypeRef → Option TypeRef
  | .node id => match g.node? id with
    | some (.map _ value) => some value
    | _ => none
  | .builtin _ => none

theorem isMap_of_mapValue? {g : Graph} {t : TypeRef} (h : (mapValue? g t).isSome = true) :
    g.IsMap t := by
  cases t with
  | builtin b => cases h
  | node id =>
    rcases hn : g.node? id with _ | n
    · simp [mapValue?, hn] at h
    · cases n with
      | map key value => exact ⟨id, key, value, rfl, hn⟩
      | _ => simp [mapValue?, hn] at h

/-- A list of maps, and a map that refers to a map for its values. -/
def gallerySchemas : Spec := .ofDefinitions [("Captions", .map (.scalar "string")),
  ("Gallery", .object [
    ("pages", .array (.map (.scalar "string"))),
    ("captions", .map (.reference "#/definitions/Captions"))])]

/-- Whether a field is repeated, and a map. -/
def isMapList (g : Graph) (f : Proto.Field TypeRef Value) : Bool :=
  f.repeated && (mapValue? g f.type).isSome

/-- Whether a field is a map of maps. -/
def isMapOfMaps (g : Graph) (f : Proto.Field TypeRef Value) : Bool :=
  (mapValue? g f.type).any fun value => (mapValue? g value).isSome

/-- A list of maps becomes a repeated map, and a reference to a map the value of a map. -/
theorem compile_misplaces_maps : ∃ o,
    compile ⟨false, false, false, false, "gallery"⟩ gallerySchemas = .ok o ∧
    (∃ f, field? o "Gallery" "pages" = some f ∧ f.repeated = true ∧ o.graph.IsMap f.type) ∧
    ∃ f value, field? o "Gallery" "captions" = some f ∧ mapValue? o.graph f.type = some value ∧
      o.graph.IsMap value := by
  obtain ⟨c, hcompile, htest⟩ := compile_of_compilesTo
    (show compilesTo ⟨false, false, false, false, "gallery"⟩ gallerySchemas (fun c =>
      (field? ⟨c.graph, c.package⟩ "Gallery" "pages").any (isMapList c.graph) &&
      (field? ⟨c.graph, c.package⟩ "Gallery" "captions").any (isMapOfMaps c.graph)) = true by
        decide +kernel)
  simp only [Bool.and_eq_true, Option.any_eq_true, isMapList, isMapOfMaps] at htest
  obtain ⟨⟨f, hf, hrepeated, hmap⟩, f', hf', value, hvalue, hmap'⟩ := htest
  exact ⟨_, hcompile, ⟨f, hf, hrepeated, isMap_of_mapValue? hmap⟩,
    f', value, hf', hvalue, isMap_of_mapValue? hmap'⟩

end ApiProto.Compile
