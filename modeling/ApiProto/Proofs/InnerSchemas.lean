import ApiProto.Proofs.PackageTranslation

/-!
# Schemas inside others

Schemas are compiled in the package, and inside of other schemas: the items of lists, the values of
maps and the properties of objects. Wherever a schema is compiled, what is complete after it stands
in the package that results.

* `CompilesWithin` — a schema that is compiled somewhere on the way of a compilation, with the state
  before, what comes out, and the state after.
* `Stands` — what is known of these states.
* `CompilesWithin.stands` — it is known of all of them.
* `Stands.message` — the message that is made for an object, and its fields in the end.
-/

namespace ApiProto.Proto

/-- A node that grows is a reference if it was one. -/
theorem Graph.Grows.isReference_iff {g g' : Graph} (h : g.Grows g') {t : TypeRef} (ht : g.Has t) :
    g'.IsReference t ↔ g.IsReference t := by
  constructor
  · rintro ⟨id, ref, rfl, hn'⟩
    obtain ⟨n, hn⟩ := Graph.node?_isSome ht
    obtain ⟨n', hn'', hgrow⟩ := h id n hn
    obtain rfl := Option.some.inj (hn'.symm.trans hn'')
    cases hgrow
    exact ⟨id, ref, rfl, hn⟩
  · rintro ⟨id, ref, rfl, hn⟩
    obtain ⟨n', hn', hgrow⟩ := h id _ hn
    cases hgrow
    exact ⟨id, ref, rfl, hn'⟩

end ApiProto.Proto

namespace ApiProto.Compile

open Proto Document CompileM

variable {env : Environment} {g : Graph} {opened : List Nat} {scope : Scope}
  {c c₁ c₂ c' : Compilation} {name : String} {comment : Value} {s : Schema} {d : Definition}

/-! ## Ways into a schema -/

/-- A schema that is compiled to a new type: it is no reference, and no type of its name is
visible. -/
structure Anew (scope : Scope) (rawName : String) (s : Schema) (c : Compilation) : Prop where
  ref : s.ref.isEmpty = true
  raw : c.registry.lookup c.graph rawName scope = none
  name : c.registry.lookup c.graph (Name.pascal rawName) scope = none

/-- The compilation of properties in a scope, from a state on, comes to a property in another
state. -/
inductive ComesToProperty (env : Environment) (scope : Scope) :
    List (String × Schema) → Compilation → String → Schema → Compilation → Prop
  | here {key : String} {p : Schema} {rest : List (String × Schema)} {c : Compilation} :
      ComesToProperty env scope ((key, p) :: rest) c key p c
  | there {key other : String} {p q : Schema} {rest : List (String × Schema)}
      {c c₁ c' : Compilation} {compiled : CompiledProperty} :
      compileProperty env scope other (part env q) c = .ok (compiled, c₁) →
      ComesToProperty env scope rest c₁ key p c' →
      ComesToProperty env scope ((other, q) :: rest) c key p c'

/-- The schema that is compiled for the type of a property: its own, unless it is a primitive type
or a list. -/
inductive HandsOn (c : Compilation) (scope : Scope) (p : Schema) : Schema → Prop
  | object : isObject p.denull → HandsOn c scope p p
  | unnamed {type : String} : p.denull.types = [type] → type ≠ "object" → type ≠ "array" →
      p.choices = [] → c.registry.lookup c.graph type scope = none → HandsOn c scope p p
  | items {items : Schema} : p.denull.types = ["array"] → p.items = some items →
      HandsOn c scope p items

/-- On the way of a compilation, a schema is compiled in a scope, under a name and with a comment:
the state before, what comes out, and the state after. -/
inductive CompilesWithin (env : Environment) :
    Scope → String → Value → Schema → Compilation → Definition → Compilation → Prop
  | place {place : Place} {name : String} {comment : Value} {s : Schema} {c c' : Compilation}
      {d : Definition} : Compiles env place name s c d c' →
      compileSchema env s [env.package] name comment c = .ok (d, c') →
      CompilesWithin env [env.package] name comment s c d c'
  | items {scope : Scope} {name : String} {comment : Value} {s items : Schema}
      {c c₁ c' : Compilation} {d d₁ : Definition} :
      CompilesWithin env scope name comment s c d c' → Anew scope name s c →
      s.denull.types = ["array"] → s.items = some items →
      compileSchema env items scope (Name.pascal name) (.text "") c = .ok (d₁, c₁) →
      CompilesWithin env scope (Name.pascal name) (.text "") items c d₁ c₁
  /-- The values of a map. -/
  | value {scope : Scope} {name : String} {comment : Value} {s p : Schema}
      {c c₁ c' : Compilation} {d d₁ : Definition} :
      CompilesWithin env scope name comment s c d c' → Anew scope name s c →
      isObject s.denull → s.additional = some p → isOpen p = false → p.ref.isEmpty = true →
      p.firstType ≠ "array" →
      compileSchema env p scope (Name.pascal name) p.description c = .ok (d₁, c₁) →
      CompilesWithin env scope (Name.pascal name) p.description p c d₁ c₁
  /-- The items of lists that are the values of a map. -/
  | listed {scope : Scope} {name : String} {comment : Value} {s p items : Schema}
      {c c₁ c' : Compilation} {d d₁ : Definition} :
      CompilesWithin env scope name comment s c d c' → Anew scope name s c →
      isObject s.denull → s.additional = some p → isOpen p = false → p.ref.isEmpty = true →
      p.firstType = "array" → p.items = some items → items.ref.isEmpty = true →
      items.properties ≠ [] →
      compileSchema env items scope (Name.pascal name) items.description c = .ok (d₁, c₁) →
      CompilesWithin env scope (Name.pascal name) items.description items c d₁ c₁
  | property {scope : Scope} {name key : String} {comment : Value} {s p q : Schema}
      {c c₁ c₂ c' : Compilation} {d d₁ : Definition} :
      CompilesWithin env scope name comment s c d c' → Anew scope name s c →
      isObject s.denull → s.additional = none →
      ComesToProperty env (c.graph.size :: scope) (sortEntries s.properties)
        (c.withNode (.message ⟨Name.pascal name, [], [], comment⟩)) key p c₁ →
      HandsOn c₁ (c.graph.size :: scope) p q →
      compileSchema env q (c.graph.size :: scope) (key ++ "Message") (.text "") c₁ =
        .ok (d₁, c₂) →
      CompilesWithin env (c.graph.size :: scope) (key ++ "Message") (.text "") q c₁ d₁ c₂

theorem CompilesWithin.run (h : CompilesWithin env scope name comment s c d c') :
    compileSchema env s scope name comment c = .ok (d, c') := by
  cases h <;> assumption

/-! ## Steps -/

/-- A schema that is compiled to a new type. -/
theorem compileSchema_anew (hs : Anew scope name s c)
    (h : compileSchema env s scope name comment c = .ok (d, c')) :
    compileNew env s.denull scope name (Name.pascal name) comment
      (s.items.map (compileSchema env)) (s.additional.map (part env)) (partList env s.properties) c =
        .ok (d, c') := by
  rcases compileSchema_cases h with href | ⟨-, ⟨found, t, hname, hfound, -⟩ | ⟨-, -, hnew⟩⟩
  · rw [hs.ref] at href
    cases href
  · rcases hname with rfl | rfl
    · cases hs.raw.symm.trans hfound
    · cases hs.name.symm.trans hfound
  · simpa using hnew

/-- An object without values under arbitrary keys becomes a message. -/
theorem compileNew_message {rawName typeName : String} {items : Option Action}
    {properties : List (String × Part)} (hobject : isObject s)
    (h : compileNew env s scope rawName typeName comment items none properties c = .ok (d, c')) :
    compileMessage env scope typeName comment properties c = .ok (d, c') := by
  unfold compileNew at h
  rw [if_neg (Nat.not_lt.2 hobject.1), if_pos (by simpa using hobject.2)] at h
  exact h

theorem compileNew_map {rawName typeName : String} {items : Option Action}
    {properties : List (String × Part)} {p : Part} (hobject : isObject s)
    (hopen : isOpen p.schema = false)
    (h : compileNew env s scope rawName typeName comment items (some p) properties c =
      .ok (d, c')) :
    ∃ t, d = .type t ∧
      compileMap env scope typeName (withoutMessage rawName) p c = .ok (t, c') := by
  unfold compileNew at h
  rw [if_neg (Nat.not_lt.2 hobject.1), if_pos (by simpa using hobject.2)] at h
  dsimp only at h
  rw [if_neg (by simp [hopen])] at h
  obtain ⟨t, c₁, ht, h⟩ := bind_ok_iff.1 h
  obtain ⟨rfl, rfl⟩ : .type t = d ∧ c₁ = c' := by simpa using h
  exact ⟨t, rfl, ht⟩

/-- A list declares the type of its items. -/
theorem compileNew_items {rawName typeName : String} {action : Action} {additional : Option Part}
    {properties : List (String × Part)} (harray : s.types = ["array"])
    (h : compileNew env s scope rawName typeName comment (some action) additional properties c =
      .ok (d, c')) :
    ∃ c₁, action scope typeName (.text "") c = .ok (d, c₁) ∧
      (c' = c₁ ∨ c' = c₁.declareHere scope d.unwrap) := by
  unfold compileNew at h
  rw [if_neg (by simp [harray]), if_neg (by simp [harray]), if_pos (by simp [harray])] at h
  obtain ⟨d', c₁, hd, h⟩ := bind_ok_iff.1 h
  cases d' with
  | parameter t given number repeated =>
    obtain ⟨rfl, rfl⟩ : .parameter t given number repeated = d ∧ c₁ = c' := by
      cases scope <;> simpa [declareDefinition] using h
    exact ⟨c₁, hd, .inl rfl⟩
  | type t =>
    simp only [declareDefinition_bind, pure_run, Except.ok.injEq, Prod.mk.injEq] at h
    obtain ⟨rfl, rfl⟩ := h
    exact ⟨c₁, hd, .inr rfl⟩

/-- What is made for a map after the schema of its values has been compiled. -/
theorem compileMap_value_grows {rawName rawField : String} {p : Schema} {t : TypeRef}
    {d₁ : Definition} (href : p.ref.isEmpty = true) (harray : p.firstType ≠ "array")
    (hd : compileSchema env p scope rawName p.description c = .ok (d₁, c₁))
    (hpackage : c₁.package ∈ opened)
    (h : compileMap env scope rawName rawField (part env p) c = .ok (t, c')) :
    c₁.Grows opened c' := by
  obtain ⟨value, c₂, hvalue, -, rfl⟩ := compileMap_ok h
  refine Compilation.Grows.trans ?_ (.withNode c₂ _)
  cases hvalue with
  | reference hne => cases href.symm.trans hne
  | listOfReference _ hlist | listOfObjects _ hlist | list _ hlist => exact absurd hlist harray
  | nested _ _ hd' =>
    obtain ⟨-, rfl⟩ := Prod.mk.inj (Except.ok.inj (hd.symm.trans hd'))
    exact .importing hpackage _
  | value _ _ hd' =>
    obtain ⟨-, rfl⟩ := Prod.mk.inj (Except.ok.inj (hd.symm.trans hd'))
    exact .refl c₁

/-- What is made for a map after the schema of the items of its values has been compiled. -/
theorem compileMap_listed_grows {rawName rawField : String} {p items : Schema} {t : TypeRef}
    {d₁ : Definition} (href : p.ref.isEmpty = true) (harray : p.firstType = "array")
    (hitems : p.items = some items) (hitemsRef : items.ref.isEmpty = true)
    (hproperties : items.properties ≠ [])
    (hd : compileSchema env items scope rawName items.description c = .ok (d₁, c₁))
    (hscope : scope ⊆ opened)
    (h : compileMap env scope rawName rawField (part env p) c = .ok (t, c')) :
    c₁.Grows opened c' := by
  obtain ⟨value, c₂, hvalue, -, rfl⟩ := compileMap_ok h
  refine Compilation.Grows.trans ?_ (.withNode c₂ _)
  cases hvalue with
  | reference hne => cases href.symm.trans hne
  | listOfReference _ _ hi _ hne =>
    obtain rfl := Option.some.inj (hitems.symm.trans hi)
    cases hitemsRef.symm.trans hne
  | listOfObjects _ _ hi haction _ _ hlist =>
    obtain rfl := Option.some.inj (hitems.symm.trans hi)
    obtain rfl := Option.some.inj ((part_items env hitems).symm.trans haction)
    obtain ⟨d₂, c₃, c₄, hd', rfl, -, rfl⟩ := objectListWrapper_ok hlist
    obtain ⟨rfl, rfl⟩ := Prod.mk.inj (Except.ok.inj (hd.symm.trans hd'))
    exact ((Compilation.Grows.declareHere hscope _).trans (.withNode _ _)).trans
      (.declareHere hscope _)
  | list _ _ hlist => exact absurd (hlist items _ hitems (part_items env hitems)).2 hproperties
  | nested _ hne | value _ hne => exact absurd harray hne

/-- The type of a property is that of the schema that is compiled for it, in the same state. -/
theorem compilePropertyType_handsOn {key : String} {p q : Schema} (hq : HandsOn c scope p q)
    (h : compilePropertyType env scope key (part env p) c = .ok (d, c')) :
    ∃ d₁, compileSchema env q scope (key ++ "Message") (.text "") c = .ok (d₁, c') := by
  unfold compilePropertyType at h
  dsimp only at h
  rw [show (part env p).schema = p from rfl] at h
  cases hq with
  | object hobject =>
    rw [if_neg (Nat.not_lt.2 hobject.1), if_pos (by simpa using hobject.2)] at h
    exact ⟨d, h⟩
  | @unnamed type htypes hobject harray hchoices hnone =>
    rw [if_neg (by simp [htypes]), if_neg (by simp [htypes, hobject.symm]),
      if_neg (by simp [htypes, harray.symm]),
      if_pos (by simp [hchoices]), lookupType_bind,
      show p.denull.firstType = type by rw [Schema.firstType, htypes]; rfl, hnone] at h
    obtain ⟨d', c₁, hd, h⟩ := bind_ok_iff.1 h
    obtain ⟨-, rfl⟩ : _ = d ∧ c₁ = c' := by simpa using h
    exact ⟨d', hd⟩
  | items htypes hitems =>
    rw [if_neg (by simp [htypes]), if_neg (by simp [htypes]), if_pos (by simp [htypes]),
      show (part env p).items = some (compileSchema env q) by
        rw [part, compileItems_eq_map, hitems, Option.map_some]] at h
    obtain ⟨d', c₁, hd, h⟩ := bind_ok_iff.1 h
    obtain ⟨-, rfl⟩ : _ = d ∧ c₁ = c' := by simpa using h
    exact ⟨d', hd⟩

/-- The property to which a compilation of properties comes is compiled next, and then the
others. -/
theorem ComesToProperty.rest {key : String} {p : Schema} {properties : List (String × Schema)}
    {compiled : List CompiledProperty} (hp : ComesToProperty env scope properties c key p c₁)
    (h : ((partList env properties).mapM fun (key, p) =>
      within ("failed to compile property " ++ key) (compileProperty env scope key p)) c =
        .ok (compiled, c')) :
    (∃ ts, Runs env scope c ts c₁) ∧ ∃ property c₂ ts,
      compileProperty env scope key (part env p) c₁ = .ok (property, c₂) ∧ Runs env scope c₂ ts c' := by
  induction hp generalizing compiled with
  | here =>
    rw [partList, List.mapM_cons] at h
    obtain ⟨property, c₂, hfirst, h⟩ := bind_ok_iff.1 h
    obtain ⟨others, c₃, hrest, h⟩ := bind_ok_iff.1 h
    obtain ⟨-, rfl⟩ : property :: others = compiled ∧ c₃ = c' := by simpa using h
    exact ⟨⟨[], .nil⟩, property, c₂, _, within_ok_iff.1 hfirst,
      mapM_compileProperty_runs (partList_runs env _) hrest⟩
  | there hother _ ih =>
    rw [partList, List.mapM_cons] at h
    obtain ⟨property, c₂, hfirst, h⟩ := bind_ok_iff.1 h
    obtain ⟨others, c₃, hrest, h⟩ := bind_ok_iff.1 h
    obtain ⟨-, rfl⟩ : property :: others = compiled ∧ c₃ = c' := by simpa using h
    obtain ⟨-, rfl⟩ :=
      Prod.mk.inj (Except.ok.inj (hother.symm.trans (within_ok_iff.1 hfirst)))
    obtain ⟨⟨ts, hbefore⟩, hafter⟩ := ih hrest
    exact ⟨⟨_, .cons (compileProperty_runs (part_runs env _) hother) hbefore⟩, hafter⟩

/-! ## What follows inside a schema -/

namespace Opening

variable (h : Opening opened scope c)
include h

theorem package_mem {ts : List TypeRef} (hruns : Runs env scope c ts c₁) : c₁.package ∈ opened :=
  h.scope (h.of_runs hruns).package

/-- After the items of a list, what is compiled for the list only adds something. -/
theorem items_grows {items : Schema} {d₁ : Definition}
    (hrun : compileSchema env s scope name comment c = .ok (d, c')) (hs : Anew scope name s c)
    (htypes : s.denull.types = ["array"]) (hitems : s.items = some items)
    (hd : compileSchema env items scope (Name.pascal name) (.text "") c = .ok (d₁, c₁)) :
    c₁.Grows opened c' := by
  have hnew := compileSchema_anew hs hrun
  rw [hitems, Option.map_some] at hnew
  obtain ⟨c₂, hd', hafter⟩ := compileNew_items htypes hnew
  obtain ⟨rfl, rfl⟩ := Prod.mk.inj (Except.ok.inj (hd.symm.trans hd'))
  rcases hafter with rfl | rfl
  · exact .refl _
  · exact .declareHere h.scope _

theorem value_grows {p : Schema} {d₁ : Definition}
    (hrun : compileSchema env s scope name comment c = .ok (d, c')) (hs : Anew scope name s c)
    (hobject : isObject s.denull) (hadditional : s.additional = some p) (hopen : isOpen p = false)
    (href : p.ref.isEmpty = true) (harray : p.firstType ≠ "array")
    (hd : compileSchema env p scope (Name.pascal name) p.description c = .ok (d₁, c₁)) :
    c₁.Grows opened c' := by
  have hnew := compileSchema_anew hs hrun
  rw [hadditional, Option.map_some] at hnew
  obtain ⟨t, -, hmap⟩ := compileNew_map hobject hopen hnew
  exact compileMap_value_grows href harray hd
    (h.package_mem (compileSchema_runs env p _ _ _ _ _ _ hd)) hmap

theorem listed_grows {p items : Schema} {d₁ : Definition}
    (hrun : compileSchema env s scope name comment c = .ok (d, c')) (hs : Anew scope name s c)
    (hobject : isObject s.denull) (hadditional : s.additional = some p) (hopen : isOpen p = false)
    (href : p.ref.isEmpty = true) (harray : p.firstType = "array") (hitems : p.items = some items)
    (hitemsRef : items.ref.isEmpty = true) (hproperties : items.properties ≠ [])
    (hd : compileSchema env items scope (Name.pascal name) items.description c = .ok (d₁, c₁)) :
    c₁.Grows opened c' := by
  have hnew := compileSchema_anew hs hrun
  rw [hadditional, Option.map_some] at hnew
  obtain ⟨t, -, hmap⟩ := compileNew_map hobject hopen hnew
  exact compileMap_listed_grows href harray hitems hitemsRef hproperties hd h.scope hmap

/-- After a property of an object, the other properties and the fields of its message follow. -/
theorem property_grows {key : String} {p q : Schema} {d₁ : Definition}
    (hrun : compileSchema env s scope name comment c = .ok (d, c')) (hs : Anew scope name s c)
    (hobject : isObject s.denull) (hadditional : s.additional = none)
    (hp : ComesToProperty env (c.graph.size :: scope) (sortEntries s.properties)
      (c.withNode (.message ⟨Name.pascal name, [], [], comment⟩)) key p c₁)
    (hq : HandsOn c₁ (c.graph.size :: scope) p q)
    (hd : compileSchema env q (c.graph.size :: scope) (key ++ "Message") (.text "") c₁ =
      .ok (d₁, c₂)) : c₂.Grows (c.graph.size :: opened) c' := by
  have hnew := compileSchema_anew hs hrun
  rw [hadditional, Option.map_none] at hnew
  obtain ⟨-, compiled, c₃, numbers, c₄, hcompiled, -, hadd, rfl⟩ :=
    compileMessage_ok (compileNew_message hobject hnew)
  obtain ⟨⟨ts, hbefore⟩, property, c₅, ts', hproperty, hafter⟩ := hp.rest hcompiled
  obtain ⟨d', c₆, hd', -, rfl, -⟩ := compileProperty_ok hproperty
  obtain ⟨d₂, hd₂⟩ := compilePropertyType_handsOn hq hd'
  obtain ⟨-, rfl⟩ := Prod.mk.inj (Except.ok.inj (hd.symm.trans hd₂))
  have hinside := h.enter (Name.pascal name) comment
  have hproperty' := (hinside.of_runs hbefore).of_runs
    (compileProperty_runs (part_runs env p) hproperty)
  refine Compilation.Grows.trans (.declareHere hinside.scope _)
    (Compilation.Grows.trans ((hafter.grows hproperty'.package).mono hinside.scope) ?_)
  exact Compilation.Grows.trans (addFields_grows (hproperty'.package_mem hafter)
    (List.mem_cons_self ..) hadd)
    (.declareHere (fun _ hx => List.mem_cons_of_mem _ (h.scope hx)) _)

end Opening

/-! ## States -/

/-- A state in which a schema is compiled, and the one after, seen from the package that results:
what is complete stands there, and no node that is still open becomes a reference. -/
structure Stands (g : Graph) (opened : List Nat) (scope : Scope) (c c' : Compilation) : Prop where
  opening : Opening opened scope c
  ready : c.Ready scope
  settles : c'.graph.Settles opened g
  kept : ∀ id ∈ opened, ¬ g.IsReference (.node id)

namespace Stands

variable (h : Stands g opened scope c c')
include h

/-- A part of what is compiled in a state. -/
theorem inner (hgrows : c₁.Grows opened c') : Stands g opened scope c c₁ :=
  ⟨h.opening, h.ready, settles_of_grows hgrows h.settles, h.kept⟩

/-- No node becomes a reference. -/
theorem isReference {t : TypeRef} (ht : c'.graph.Has t) (href : g.IsReference t) :
    c'.graph.IsReference t := by
  obtain ⟨id, ref, rfl, hn'⟩ := href
  have hid : id ∉ opened := fun hmem => h.kept id hmem ⟨id, ref, rfl, hn'⟩
  obtain ⟨n, hn⟩ := Graph.node?_isSome ht
  obtain ⟨n', hn'', hresolved⟩ := h.settles.complete id n hn hid
  obtain rfl := Option.some.inj (hn'.symm.trans hn'')
  cases hresolved
  exact ⟨id, ref, rfl, hn⟩

theorem items {items : Schema} {d₁ : Definition}
    (hrun : compileSchema env s scope name comment c = .ok (d, c')) (hs : Anew scope name s c)
    (htypes : s.denull.types = ["array"]) (hitems : s.items = some items)
    (hd : compileSchema env items scope (Name.pascal name) (.text "") c = .ok (d₁, c₁)) :
    Stands g opened scope c c₁ :=
  h.inner (h.opening.items_grows hrun hs htypes hitems hd)

theorem value {p : Schema} {d₁ : Definition}
    (hrun : compileSchema env s scope name comment c = .ok (d, c')) (hs : Anew scope name s c)
    (hobject : isObject s.denull) (hadditional : s.additional = some p) (hopen : isOpen p = false)
    (href : p.ref.isEmpty = true) (harray : p.firstType ≠ "array")
    (hd : compileSchema env p scope (Name.pascal name) p.description c = .ok (d₁, c₁)) :
    Stands g opened scope c c₁ :=
  h.inner (h.opening.value_grows hrun hs hobject hadditional hopen href harray hd)

theorem listed {p items : Schema} {d₁ : Definition}
    (hrun : compileSchema env s scope name comment c = .ok (d, c')) (hs : Anew scope name s c)
    (hobject : isObject s.denull) (hadditional : s.additional = some p) (hopen : isOpen p = false)
    (href : p.ref.isEmpty = true) (harray : p.firstType = "array") (hitems : p.items = some items)
    (hitemsRef : items.ref.isEmpty = true) (hproperties : items.properties ≠ [])
    (hd : compileSchema env items scope (Name.pascal name) items.description c = .ok (d₁, c₁)) :
    Stands g opened scope c c₁ :=
  h.inner (h.opening.listed_grows hrun hs hobject hadditional hopen href harray hitems hitemsRef
    hproperties hd)

/-- The message of an object, and the compilation of its properties inside it. -/
theorem message (hrun : compileSchema env s scope name comment c = .ok (d, c'))
    (hs : Anew scope name s c) (hobject : isObject s.denull) (hadditional : s.additional = none) :
    d = .type (.node c.graph.size) ∧ ∃ compiled c₁ numbers m,
      ((partList env (sortEntries s.properties)).mapM fun (key, p) =>
        within ("failed to compile property " ++ key)
          (compileProperty env (c.graph.size :: scope) key p))
        (c.withNode (.message ⟨Name.pascal name, [], [], comment⟩)) = .ok (compiled, c₁) ∧
      Stands g (c.graph.size :: opened) (c.graph.size :: scope)
        (c.withNode (.message ⟨Name.pascal name, [], [], comment⟩)) c₁ ∧
      numbers.length = compiled.length ∧ g.message? c.graph.size = some m ∧
      List.Forall₂ (Field.Becomes g)
        ((compiled.zip numbers).map fun (p, number) => p.field number) m.fields := by
  have hnew := compileSchema_anew hs hrun
  rw [hadditional, Option.map_none] at hnew
  have hmessage := compileNew_message hobject hnew
  obtain ⟨compiled, c₁, numbers, m, hcompiled, hsettles, hnumbers, hm, -, hfields⟩ :=
    compileMessage_fields hmessage h.opening h.settles
  refine ⟨compileMessage_type hmessage, compiled, c₁, numbers, m, hcompiled, ?_,
    (assignNumbers_length hnumbers).trans (List.length_map ..), Graph.message?_of_node? hm, hfields⟩
  refine ⟨h.opening.enter _ _, h.ready.enter _, hsettles, fun id hid => ?_⟩
  rcases List.mem_cons.1 hid with rfl | hid
  · rintro ⟨_, ref, heq, hn⟩
    obtain rfl := TypeRef.node.inj heq
    cases hm.symm.trans hn
  · exact h.kept id hid

/-- A property of an object. -/
theorem property {properties : List (String × Schema)} {compiled : List CompiledProperty}
    {key : String} {p q : Schema} {d₁ : Definition}
    (hcompiled : ((partList env properties).mapM fun (key, p) =>
      within ("failed to compile property " ++ key) (compileProperty env scope key p)) c =
        .ok (compiled, c')) (hp : ComesToProperty env scope properties c key p c₁)
    (hq : HandsOn c₁ scope p q)
    (hd : compileSchema env q scope (key ++ "Message") (.text "") c₁ = .ok (d₁, c₂)) :
    Stands g opened scope c₁ c₂ := by
  obtain ⟨⟨ts, hbefore⟩, property, c₃, ts', hproperty, hafter⟩ := hp.rest hcompiled
  obtain ⟨d', c₄, hd', -, rfl, -⟩ := compileProperty_ok hproperty
  obtain ⟨d₂, hd₂⟩ := compilePropertyType_handsOn hq hd'
  obtain ⟨-, rfl⟩ := Prod.mk.inj (Except.ok.inj (hd.symm.trans hd₂))
  have hopen := h.opening.of_runs hbefore
  have hruns := compileProperty_runs (part_runs env p) hproperty
  refine ⟨hopen, hbefore.ready h.ready, ?_, h.kept⟩
  exact settles_of_declareHere h.opening.scope
    ((hopen.of_runs hruns).settles_of_runs hafter h.settles)

end Stands

/-! ## Places -/

theorem Builds.ready {package : Nat} (h : Builds env package c c') (hc : c.Ready [package]) :
    c'.Ready [package] := by
  induction h with
  | refl => exact hc
  | importFile file _ ih => exact ih.importFile file
  | define ref d _ hruns ih => exact (hruns.ready ih).defining ref d
  | @extension c₁ e _ ih =>
    have himports := importingAll_grows ih.package (e.fields.map (·.type) ++ [e.base])
    have hready := ih.of_changesGraph himports (.importingAll _ _)
    exact hready.of_changesGraph (extending_grows hready.package e) (.extending _ e)
  | @procedure c₁ c₂ rpc _ hruns ih =>
    have hready := hruns.ready ih
    have hgrows : c₂.Grows (c₂.service :: [package]) (c₂.serving rpc) :=
      serving_grows (List.mem_cons_of_mem _ hready.package) (List.mem_cons_self ..) rpc
    exact hready.of_changesGraph hgrows (.serving c₂ rpc)

theorem ReachesOperation.ready {path : String} {item : PathItem} {e : Endpoint}
    (h : ReachesOperation env path item e c) : c.Ready [env.package] := by
  obtain ⟨c₀, c₁, hnamed, hresolve, hbuilds⟩ := h.builds
  have hresolved := resolveAll_ok hresolve
  have hready := ((compileNamed_builds hnamed).ready (startOf_ready env)).resolved hresolved
  exact hbuilds.ready { hready with }

theorem Compiles.ready {place : Place} (h : Compiles env place name s c d c') :
    c.Ready [env.package] := by
  have hstart := (announced_builds env).ready (startOf_ready env)
  cases h with
  | definition hcomes =>
    exact (hcomes.builds fun _ _ _ => compileDefinition_builds).ready hstart
  | parameter hdefinitions hcomes =>
    have hbuilds := (compileDefinitions_builds hdefinitions).trans
      (hcomes.builds fun _ _ _ => compileParameter_builds)
    exact hbuilds.ready hstart
  | request hreaches => exact hreaches.ready
  | response hreaches _ hrequest => exact (compileRequest_runs hrequest).ready hreaches.ready
  | responseItems hreaches _ hrequest => exact (compileRequest_runs hrequest).ready hreaches.ready

/-- The package and its service stay what they are. -/
theorem not_isReference_of_opened (hrun : compilePhases env (startOf env) = .ok ((), c'))
    {id : Nat} (hid : id ∈ env.opened) : ¬ c'.graph.IsReference (.node id) := by
  obtain ⟨c₀, c₁, hnamed, hresolve, hrest⟩ := compilePhases_ok hrun
  have hnamed := compileNamed_builds hnamed
  have hresolved := resolveAll_ok hresolve
  have hstart := (Underway.start env).builds hnamed
  have hgrows := (hstart.resolved hresolved).builds_grows hrest
  have hhas : (startOf env).graph.Has (.node id) := (Underway.start env).opening.old id hid
  have hhas₁ : c₁.graph.Has (.node id) := by
    have hle := ((Underway.start env).builds_grows hnamed).size_le
    rw [← hresolved.graph.size] at hle
    exact hhas.mono hle
  rw [hgrows.nodes.isReference_iff hhas₁, hresolved.graph.isReference_iff,
    ((Underway.start env).builds_grows hnamed).nodes.isReference_iff hhas]
  obtain ⟨packageName, serviceName, options, heq⟩ := startOf_is_start env
  unfold Environment.opened Environment.package at hid
  rw [heq] at hid ⊢
  rintro ⟨k, ref, hk, hn⟩
  obtain rfl := TypeRef.node.inj hk
  rcases List.mem_cons.1 hid with rfl | hid
  · cases hn
  · obtain rfl := List.mem_singleton.1 hid
    cases hn

theorem Compiles.stands {place : Place} (h : Compiles env place name s c d c')
    (hrun : compilePhases env (startOf env) = .ok ((), c₂)) :
    Stands c₂.graph env.opened [env.package] c c' := by
  obtain ⟨hunderway, hsettles⟩ := h.settles hrun
  exact ⟨hunderway.opening, h.ready, hsettles, fun id hid => not_isReference_of_opened hrun hid⟩

/-- The schema of every place is compiled. -/
theorem Compiles.within {place : Place} (h : Compiles env place name s c d c') :
    ∃ comment, CompilesWithin env [env.package] name comment s c d c' := by
  have hplace := h
  cases h with
  | definition _ hd => exact ⟨_, .place hplace hd⟩
  | parameter _ _ _ hd => exact ⟨_, .place hplace hd⟩
  | request _ _ _ _ hd => exact ⟨_, .place hplace hd⟩
  | response _ _ _ _ _ hd => exact ⟨_, .place hplace hd⟩
  | responseItems _ _ _ _ _ hd => exact ⟨_, .place hplace hd⟩

/-- What is known of the states in which schemas are compiled is known wherever one is compiled. -/
theorem CompilesWithin.stands (h : CompilesWithin env scope name comment s c d c')
    (hrun : compilePhases env (startOf env) = .ok ((), c₂)) :
    ∃ opened, Stands c₂.graph opened scope c c' := by
  induction h with
  | place hplace _ => exact ⟨_, hplace.stands hrun⟩
  | items hs hanew htypes hitems hd ih =>
    obtain ⟨opened, hstands⟩ := ih
    exact ⟨opened, hstands.items hs.run hanew htypes hitems hd⟩
  | value hs hanew hobject hadditional hopen href harray hd ih =>
    obtain ⟨opened, hstands⟩ := ih
    exact ⟨opened, hstands.value hs.run hanew hobject hadditional hopen href harray hd⟩
  | listed hs hanew hobject hadditional hopen href harray hitems hitemsRef hproperties hd ih =>
    obtain ⟨opened, hstands⟩ := ih
    exact ⟨opened, hstands.listed hs.run hanew hobject hadditional hopen href harray hitems
      hitemsRef hproperties hd⟩
  | property hs hanew hobject hadditional hp hq hd ih =>
    obtain ⟨opened, hstands⟩ := ih
    obtain ⟨-, compiled, c₁, numbers, m, hcompiled, hinside, -⟩ :=
      hstands.message hs.run hanew hobject hadditional
    exact ⟨_, hinside.property hcompiled hp hq hd⟩

end ApiProto.Compile
