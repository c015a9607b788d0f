import ApiProto.Proofs.Placeholders
import ApiProto.Proofs.Requests
import ApiProto.Proofs.Sources

/-!
# Packages and what they are made from

All schemas that are compiled on the way to a package are those of the description, or made from its
parameters. So all that is built comes from the description.

* `DrawsAll` — what the phases before and after resolution do, in runs with sources.
* `parameterSchema_drawn`, `requestSchema_drawn`, `arrayItems_drawn` — the schemas that are compiled
  without standing in the description as they are.
* `compilePhases_draws` — a successful compilation builds in runs with sources.
-/

namespace ApiProto.Name

theorem pascalFrom_append (fresh : Bool) (cs ds : List Char) :
    ∃ fresh', pascalFrom fresh (cs ++ ds) = pascalFrom fresh cs ++ pascalFrom fresh' ds := by
  induction cs generalizing fresh with
  | nil => exact ⟨fresh, rfl⟩
  | cons c rest ih =>
    rw [List.cons_append, pascalFrom, pascalFrom]
    split
    · exact (ih false).imp fun _ h => by rw [h, List.cons_append]
    · exact ih true

/-- A capitalized word at the end of a name stays there in Pascal case. -/
theorem pascal_append {word : String} (hword : ∀ fresh, pascalFrom fresh word.toList = word.toList)
    (s : String) : ∃ start, pascal (s ++ word) = start ++ word := by
  obtain ⟨fresh, h⟩ := pascalFrom_append true s.toList word.toList
  refine ⟨String.ofList (pascalFrom true s.toList), ?_⟩
  unfold pascal pascalChars
  rw [String.toList_append, h, hword, String.ofList_append, String.ofList_toList]

end ApiProto.Name

namespace ApiProto.Compile

open Proto Document CompileM

/-- What is built in a package, from one state to another, in runs with sources. -/
inductive DrawsAll (env : Environment) (package : Nat) : Compilation → Compilation → Prop
  | refl {c : Compilation} : DrawsAll env package c c
  | importFile {c c₁ : Compilation} (file : String) :
      DrawsAll env package c c₁ → DrawsAll env package c (c₁.importFile file)
  | define {c c₁ c₂ : Compilation} (ref : String) (d : Definition) :
      DrawsAll env package c c₁ → Draws env [package] c₁ [d.unwrap] c₂ →
      DrawsAll env package c (c₂.defining ref d)
  | extension {c c₁ : Compilation} (e : Proto.Extension) :
      DrawsAll env package c c₁ →
      DrawsAll env package c ((c₁.importingAll (e.fields.map (·.type) ++ [e.base])).extending e)
  | procedure {c c₁ c₂ : Compilation} (rpc : Rpc TypeRef) :
      DrawsAll env package c c₁ → Draws env [package] c₁ [rpc.parameter, rpc.response] c₂ →
      DrawsAll env package c (c₂.serving rpc)

variable {env : Environment} {package : Nat} {c c₁ c' : Compilation} {spec : Spec}
  {s : Schema} {t : TypeRef} {name : String}

namespace DrawsAll

/-- Without the sources it is what is built. -/
theorem builds (h : DrawsAll env package c c') : Builds env package c c' := by
  induction h with
  | refl => exact .refl
  | importFile file _ ih => exact .importFile file ih
  | define ref d _ hdraws ih => exact .define ref d ih hdraws.runs
  | extension e _ ih => exact .extension e ih
  | procedure rpc _ hdraws ih => exact .procedure rpc ih hdraws.runs

theorem trans (h : DrawsAll env package c c₁) (h' : DrawsAll env package c₁ c') :
    DrawsAll env package c c' := by
  induction h' with
  | refl => exact h
  | importFile file _ ih => exact .importFile file ih
  | define ref d _ hdraws ih => exact .define ref d ih hdraws
  | extension e _ ih => exact .extension e ih
  | procedure rpc _ hdraws ih => exact .procedure rpc ih hdraws

theorem of_forM {α : Type} {f : α → CompileM Unit} {l : List α}
    (step : ∀ a ∈ l, ∀ c c', f a c = .ok ((), c') → DrawsAll env package c c')
    (h : l.forM f c = .ok ((), c')) : DrawsAll env package c c' :=
  forM_ok_induct (P := DrawsAll env package c)
    (fun a ha c₁ c₂ hstep hc => hc.trans (step a ha c₁ c₂ hstep)) h .refl

end DrawsAll

/-! ## Names in the package -/

theorem Placed.definition (hname : Name.pascal name ∈ reservedNames env.spec) :
    Placed env.spec [package] (Name.pascal name) where
  within := List.cons_ne_nil package []
  name _ := .inr (by rwa [Name.pascal_pascal])

/-- The names of requests and responses do not end in `Message`. -/
theorem Placed.of_word {word : String}
    (hword : ∀ fresh, Name.pascalFrom fresh word.toList = word.toList)
    (hmessage : ∀ rest, Text.dropStart? "Message".toList.reverse (word.toList.reverse ++ rest) = none)
    (name : String) : Placed spec [package] (name ++ word) where
  within := List.cons_ne_nil package []
  name _ := by
    obtain ⟨start, h⟩ := Name.pascal_append hword name
    refine .inl ?_
    unfold withoutMessage Text.withoutEnd Text.dropEnd
    rw [h, String.toList_append, List.reverse_append, hmessage, ← String.toList_append,
      String.ofList_toList]

/-! ## Schemas of parameters and responses -/

namespace Schema.DrawnFrom

/-- An object without listed values. -/
theorem of_properties {properties : List (String × Schema)}
    (h : ∀ entry ∈ properties, spec.HasKey entry.1 ∧ DrawnFrom spec entry.2) :
    DrawnFrom spec { Schema.blank with properties := properties } where
  keys t ht := by
    cases ht with
    | self => exact fun entry hentry => (h entry hentry).1
    | items hi | additional ha => cases ‹_ = some _›
    | property he ht => exact (h _ he).2.keys t ht
  choices t ht := by
    cases ht with
    | self => exact fun hne => absurd rfl hne
    | items hi | additional ha => cases ‹_ = some _›
    | property he ht => exact (h _ he).2.choices t ht
  listed t ht := by
    cases ht with
    | self => exact fun _ href => nomatch href
    | items hi | additional ha => cases ‹_ = some _›
    | property he ht => exact (h _ he).2.listed t ht

end Schema.DrawnFrom

/-- A parameter is a property under its name in snake case. -/
theorem parameterSchema_drawn {p : Parameter} {key : String}
    (hp : Schema.DrawnFrom spec p.described) (h : parameterSchema p c = .ok ((key, s), c')) :
    spec.HasKey key ∧ Schema.DrawnFrom spec s := by
  have hblank : Schema.DrawnFrom spec Schema.blank := .of_properties nofun
  have hsnake : ∀ given, spec.HasKey (Name.snake given) := fun given => .inr ⟨given, rfl⟩
  unfold parameterSchema at h
  split at h
  · obtain ⟨ref, _, -, h⟩ := bind_ok_iff.1 h
    rw [get_bind] at h
    split at h
    · simp [bind_ok_iff] at h
    · split at h
      all_goals
        obtain ⟨given, _, -, h⟩ := bind_ok_iff.1 h
        obtain ⟨hentry, -⟩ := Prod.mk.inj (Except.ok.inj h)
        obtain ⟨rfl, rfl⟩ := Prod.mk.inj hentry
        exact ⟨hsnake _, hblank.of_same rfl rfl rfl rfl⟩
  · obtain ⟨given, _, -, h⟩ := bind_ok_iff.1 h
    unfold Parameter.described at hp
    rcases hs : p.schema with _ | s₀ <;> rw [hs] at h hp
    all_goals
      obtain ⟨hentry, -⟩ := Prod.mk.inj (Except.ok.inj h)
      obtain ⟨rfl, rfl⟩ := Prod.mk.inj hentry
      exact ⟨hsnake _, hp.of_same rfl rfl rfl rfl⟩

theorem requestSchema_drawn {parameters : List Parameter}
    (hp : ∀ p ∈ parameters, Schema.DrawnFrom spec p.described)
    (h : requestSchema parameters c = .ok (s, c')) : Schema.DrawnFrom spec s := by
  obtain ⟨properties, hproperties, rfl⟩ := requestSchema_properties h
  refine .of_properties fun entry hentry => ?_
  have hmem := (lastsBy_sublist _ _).subset ((collectEntries_perm properties).subset hentry)
  obtain ⟨p, hpmem, hschema⟩ := exists_of_mem_forall₂ hproperties.flip hmem
  exact parameterSchema_drawn (hp p hpmem) hschema

/-- The items of an array are its own, or those of a named schema. -/
theorem arrayItems_cases {i : Schema} (hi : arrayItems spec s = .ok (some i)) :
    s.items = some i ∨ ∃ target ∈ spec.roots, target.items = some i := by
  have hnamed : arrayItems.named spec s = .ok (some i) →
      ∃ target ∈ spec.roots, target.items = some i := by
    unfold arrayItems.named
    rcases s.ref.textWith "startswith" with e | ref
    · nofun
    · intro hnamed
      obtain ⟨name, -, hnamed⟩ := Option.bind_eq_some_iff.1 (Except.ok.inj hnamed)
      obtain ⟨target, htarget, hnamed⟩ := Option.bind_eq_some_iff.1 hnamed
      split at hnamed
      · exact ⟨target, Spec.definition_mem_roots (mem_of_lookup htarget), hnamed⟩
      · cases hnamed
  unfold arrayItems at hi
  rcases hitems : s.items with _ | items <;> rw [hitems] at hi
  · exact .inr (hnamed hi)
  · dsimp only at hi
    split at hi
    · exact .inl (Except.ok.inj hi)
    · exact .inr (hnamed hi)

theorem arrayItems_drawn {i : Schema} (hs : Schema.DrawnFrom spec s)
    (hi : arrayItems spec s = .ok (some i)) : Schema.DrawnFrom spec i := by
  rcases arrayItems_cases hi with hitems | ⟨target, hroot, hitems⟩
  · exact hs.items hitems
  · exact (Schema.DrawnFrom.of_mem_roots hroot).items hitems

/-! ## Phases -/

theorem compileDefinition_draws {entry : String × Schema} (hentry : entry ∈ env.spec.definitions)
    (h : compileDefinition env [package] entry c = .ok ((), c')) : DrawsAll env package c c' := by
  obtain ⟨name, s⟩ := entry
  obtain ⟨d, c₁, hd, rfl⟩ := compileDefinition_ok h
  have hname : Name.pascal name ∈ reservedNames env.spec :=
    List.mem_append_left _ (List.mem_map.2 ⟨_, hentry, rfl⟩)
  exact .define _ d .refl (compileSchema_draws (.of_mem_roots (Spec.definition_mem_roots hentry))
    _ _ _ _ _ _ (.definition hname) hd)

theorem compileParameter_draws {entry : String × Parameter} (hentry : entry ∈ env.spec.parameters)
    (h : compileParameter env [package] entry c = .ok ((), c')) : DrawsAll env package c c' := by
  obtain ⟨name, p⟩ := entry
  obtain ⟨key, s, d, c₁, fieldName, hs, hd, rfl⟩ := compileParameter_ok h
  have hroot : p.described ∈ env.spec.roots := Spec.parameter_mem_roots hentry
  have hname : Name.pascal name ∈ reservedNames env.spec :=
    List.mem_append_right _ (List.mem_map.2 ⟨_, hentry, rfl⟩)
  have hplaced : Placed env.spec [package] (Name.pascal name) := .definition hname
  have hdraws := compileSchema_draws (parameterSchema_drawn (.of_mem_roots hroot) hs).2 _ _ _ _ _ _
    hplaced hd
  exact .define _ (.parameter d.unwrap _ _ _) .refl hdraws

section Operations

variable {path : String} {item : PathItem} {e : Endpoint} (hitem : (path, item) ∈ env.spec.paths)
  (he : e ∈ item.endpoints)
include hitem

theorem described_mem_roots {p : Parameter} (he : e ∈ item.endpoints)
    (hp : p ∈ item.parameters ++ e.parameters) : p.described ∈ env.spec.roots := by
  refine Spec.path_mem_roots hitem ?_
  rcases List.mem_append.1 hp with hp | hp
  · exact List.mem_append_left _ (List.mem_map.2 ⟨p, hp, rfl⟩)
  · exact List.mem_append_right _ (List.mem_flatMap.2
      ⟨e, he, List.mem_append_left _ (List.mem_map.2 ⟨p, hp, rfl⟩)⟩)

theorem Schema.DrawnFrom.of_parameter {p : Parameter} (he : e ∈ item.endpoints)
    (hp : p ∈ item.parameters ++ e.parameters) : Schema.DrawnFrom env.spec p.described :=
  .of_mem_roots (described_mem_roots hitem he hp)

include he

theorem response_mem_roots (hs : responseSchema? e = some s) : s ∈ env.spec.roots := by
  obtain ⟨code, -, hcode⟩ := List.exists_of_findSome?_eq_some hs
  obtain ⟨response, hresponse, hschema⟩ := Option.bind_eq_some_iff.1 hcode
  refine Spec.path_mem_roots hitem (List.mem_append_right _ (List.mem_flatMap.2 ⟨e, he, ?_⟩))
  exact List.mem_append_right _ (List.mem_filterMap.2 ⟨_, mem_of_lookup hresponse, hschema⟩)

theorem Schema.DrawnFrom.of_response (hs : responseSchema? e = some s) :
    Schema.DrawnFrom env.spec s :=
  .of_mem_roots (response_mem_roots hitem he hs)

theorem compileRequest_draws
    (h : compileRequest env [package] name (item.parameters ++ e.parameters) c = .ok (t, c')) :
    Draws env [package] c [t] c' := by
  rcases hsome : (item.parameters ++ e.parameters).isEmpty with _ | _
  · obtain ⟨s, d, c₁, hs, hd, rfl, rfl⟩ := compileRequest_ok hsome h
    have hdrawn := requestSchema_drawn (fun p hp => .of_parameter hitem he hp) hs
    refine .declared (compileSchema_draws hdrawn _ _ _ _ _ _ (.of_word ?_ (fun _ => rfl) name) hd)
    rintro (_ | _) <;> rfl
  · obtain ⟨rfl, rfl⟩ := compileRequest_none hsome h
    exact .builtin _ .nil

theorem compileResponse_draws (plain : Name.IsPlain name)
    (h : compileResponse env [package] name e c = .ok (t, c')) : Draws env [package] c [t] c' := by
  rcases hs : responseSchema? e with _ | s
  · obtain ⟨rfl, rfl⟩ := compileResponse_none hs h
    exact .builtin _ .nil
  · have hdrawn := Schema.DrawnFrom.of_response hitem he hs
    rcases compileResponse_ok hs h with ⟨i, c₁, hi, ht, rfl⟩ | ⟨d, c₁, -, hd, rfl, rfl⟩
    · obtain ⟨d, c₂, hd, rfl, rfl⟩ := compileArrayResponse_ok ht
      refine .arrayResponse _ (plain.append (by decide)) (compileSchema_draws
        (arrayItems_drawn hdrawn hi) _ _ _ _ _ _ (.of_word ?_ (fun _ => rfl) _) hd)
      rintro (_ | _) <;> rfl
    · refine .declared (compileSchema_draws hdrawn _ _ _ _ _ _
        (.of_word ?_ (fun _ => rfl) name) hd)
      rintro (_ | _) <;> rfl

theorem compileOperation_draws
    (h : compileOperation env [package] path item.parameters e c = .ok ((), c')) :
    DrawsAll env package c c' := by
  obtain ⟨identifier, request, c₁, response, c₂, rpc, -, hrequest, hresponse, rfl, rfl, rfl⟩ :=
    compileOperation_ok h
  exact .procedure rpc .refl (.cons (compileRequest_draws hitem he hrequest)
    (compileResponse_draws hitem he (Name.endpointName_plain _ _ _) hresponse))

end Operations

theorem compilePaths_draws (h : compilePaths env [package] c = .ok ((), c')) :
    DrawsAll env package c c' := by
  rw [compilePaths_eq] at h
  refine .of_forM (fun entry hentry c c' hstep => ?_) h
  obtain ⟨path, item⟩ := entry
  exact .of_forM (fun e he _ _ => compileOperation_draws (mem_sortEntries.1 hentry) he)
    (compilePathEntry_ok hstep)

theorem compileNamed_draws (h : compileNamed env (startOf env) = .ok ((), c)) :
    DrawsAll env env.package (startOf env) c := by
  obtain ⟨c₀, hdefinitions, hparameters⟩ := compileNamed_states h
  rw [compileDefinitions_eq] at hdefinitions
  rw [compileParameters_eq] at hparameters
  have hannounced : DrawsAll env env.package (startOf env) (announced env) := by
    unfold announced
    split
    · exact .importFile _ .refl
    · exact .refl
  have hdefined : DrawsAll env env.package (announced env) c₀ :=
    .of_forM (fun _ hentry _ _ => compileDefinition_draws (mem_sortEntries.1 hentry)) hdefinitions
  exact (hannounced.trans hdefined).trans
    (.of_forM (fun _ hentry _ _ => compileParameter_draws (mem_sortEntries.1 hentry)) hparameters)

/-- A successful compilation builds in runs with sources, resolves, and builds again. -/
theorem compilePhases_draws (h : compilePhases env (startOf env) = .ok ((), c')) :
    ∃ c₀ c₁, compileNamed env (startOf env) = .ok ((), c₀) ∧
      DrawsAll env env.package (startOf env) c₀ ∧ resolveAll c₀ = .ok ((), c₁) ∧
      DrawsAll env env.package { c₁ with deferring := false } c' := by
  obtain ⟨c₀, c₁, c₂, hnamed, hresolve, hextensions, hpaths⟩ := compilePhases_states h
  have hextended : DrawsAll env env.package { c₁ with deferring := false } c₂ := by
    refine .of_forM (fun e _ c c' hstep => ?_) hextensions
    obtain ⟨e', rfl⟩ := compileExtension_ok hstep
    exact .extension e' .refl
  refine ⟨c₀, c₁, hnamed, compileNamed_draws hnamed, hresolve, ?_⟩
  split at hpaths
  · exact hpaths ▸ hextended
  · exact hextended.trans (compilePaths_draws hpaths)

end ApiProto.Compile
