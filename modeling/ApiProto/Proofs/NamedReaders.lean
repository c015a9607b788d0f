import ApiProto.Proofs.PercentText
import ApiProto.Proofs.PointerText
import ApiProto.Proofs.ResolvedReferences
import ApiProto.Proofs.UrlText
import ApiProto.Proofs.VersionIndependence
import ApiProto.Source.Inline

/-!
# Readers of references to named schemas

A reference to a named schema is read in three places: a schema with a reference is compiled, a
reference from another document is loaded, and a reference that stands for a response or a body is
followed. They do not expect the same spelling. From another document the fragment is decoded and is
then a pointer; for a response or a body it is a pointer as it is written; and the reference of a
schema is compared, as it is written, with what stands before names and the name.

* `named?`, `namedPointer` — the node of a named schema in a document, and the pointer to it.
* `Spec.read_named` — a named schema is read from its node.
* `exists_definition` — what is defined for a named schema when references are resolved.
* `Selects` — a reference stands for a named schema wherever schemas are compiled.
* `readers_select` — all three readers come to the node, if the reference is written for them;
  `escaped_reference_missing` shows a name for which no reference is written for all.
-/

namespace ApiProto.Document

/-! ## The nodes of named schemas -/

/-- The keys under which the named schemas of a document stand. -/
def Version.definitionsKeys : Version → List String
  | .swagger2 => ["definitions"]
  | .openapi3 => ["components", "schemas"]

theorem Version.definitionsPrefix_eq (version : Version) :
    version.definitionsPrefix.toList = '#' :: (pointerOf version.definitionsKeys ++ ['/']) := by
  cases version <;> rfl

/-- The node that is stored under the name of a schema. -/
def named? (doc : Value) (name : String) : Option Value :=
  doc.memberAt? ((versionOf doc).definitionsKeys ++ [name])

/-- The pointer to the node of a named schema. -/
def namedPointer (doc : Value) (name : String) : List Char :=
  pointerOf ((versionOf doc).definitionsKeys ++ [name])

theorem lookup_of_entriesWith {member key : String} {value : Option Value} {v : Value}
    {entries : List (String × Value)} (h : entriesWith member value = .ok entries)
    (hv : entries.lookup key = some v) : (value.bind fun w => w.member? key) = some v := by
  cases value with
  | none =>
    obtain rfl := Except.ok.inj h
    cases hv
  | some w => exact (member?_of_entriesWith h key).symm.trans hv

/-- What is read from a table entry by entry stands under the keys of the table. -/
theorem lookup_of_mapM {α : Type} {read : Value → Except Error α} {entries : List (String × Value)}
    {l : List (String × α)} {key : String} {a : α}
    (h : (entries.mapM fun (name, v) => (read v).map fun a => (name, a)) = .ok l)
    (ha : l.lookup key = some a) : ∃ v, entries.lookup key = some v ∧ read v = .ok a := by
  induction entries generalizing l with
  | nil =>
    obtain rfl := Except.ok.inj h
    cases ha
  | cons entry entries ih =>
    obtain ⟨name, v⟩ := entry
    rw [List.mapM_cons] at h
    obtain ⟨first, hfirst, h⟩ := bind_eq_ok_iff.1 h
    obtain ⟨rest, hrest, h⟩ := bind_eq_ok_iff.1 h
    obtain rfl := Except.ok.inj h
    obtain ⟨b, hb, rfl⟩ := map_eq_ok_iff.1 hfirst
    rw [List.lookup_cons] at ha ⊢
    cases hkey : key == name with
    | true =>
      rw [hkey] at ha
      obtain rfl := Option.some.inj ha
      exact ⟨v, rfl, hb⟩
    | false =>
      rw [hkey] at ha
      exact ih hrest ha

/-- The schema of a name is read from the node that is stored under it. -/
theorem Spec.read_named {doc : Value} {spec : Spec} {name : String} {s : Schema}
    (h : Spec.read doc = .ok spec) (hs : spec.definitions.lookup name = some s) :
    ∃ node, named? doc name = some node ∧ Schema.read node = .ok s := by
  have hdoc : doc.entries?.isNone = false := by
    rcases hdoc : doc.entries?.isNone with _ | _
    · rfl
    · unfold Spec.read at h
      rw [if_pos hdoc] at h
      cases h
  rw [Spec.read_eq hdoc] at h
  obtain ⟨info, -, h⟩ := bind_eq_ok_iff.1 h
  obtain ⟨holder, hholder, h⟩ := bind_eq_ok_iff.1 h
  obtain ⟨basePath, -, h⟩ := bind_eq_ok_iff.1 h
  obtain ⟨shared, hshared, h⟩ := bind_eq_ok_iff.1 h
  obtain ⟨globalOptions, -, h⟩ := bind_eq_ok_iff.1 h
  obtain ⟨list, -, h⟩ := bind_eq_ok_iff.1 h
  obtain ⟨extensions, -, h⟩ := bind_eq_ok_iff.1 h
  obtain ⟨paths, -, h⟩ := bind_eq_ok_iff.1 h
  obtain rfl := Except.ok.inj h
  obtain ⟨entries, hentries, hshared⟩ := bind_eq_ok_iff.1 (framed_ok_iff.1 hshared)
  obtain ⟨definitions, hdefinitions, hshared⟩ := bind_eq_ok_iff.1 hshared
  obtain ⟨list', -, hshared⟩ := bind_eq_ok_iff.1 hshared
  obtain ⟨parameters, -, hshared⟩ := bind_eq_ok_iff.1 hshared
  obtain rfl := Except.ok.inj hshared
  obtain ⟨node, hnode, hread⟩ := lookup_of_mapM hdefinitions hs
  have hmember := lookup_of_entriesWith hentries hnode
  refine ⟨node, ?_, hread⟩
  unfold named?
  cases hversion : versionOf doc with
  | swagger2 =>
    rw [hversion] at hholder
    obtain rfl := Except.ok.inj hholder
    show (doc.member? "definitions").bind (fun w => (w.member? name).bind some) = some node
    simpa using hmember
  | openapi3 =>
    rw [hversion] at hholder
    obtain ⟨components, hcomponents, rfl⟩ := map_eq_ok_iff.1 hholder
    obtain ⟨schemas, hschemas, hmember⟩ := Option.bind_eq_some_iff.1 hmember
    have hstored := lookup_of_entriesWith hcomponents hschemas
    show (doc.member? "components").bind (fun w => (w.member? "schemas").bind
      fun w => (w.member? name).bind some) = some node
    simp only [Option.bind_fun_some]
    rw [← Option.bind_assoc, hstored]
    exact hmember

/-- A pointer to a named schema is not empty, however it is written. -/
theorem ne_nil_of_encodes_namedPointer {doc : Value} {name : String} {fragment : List Char}
    (h : Uri.Encodes (namedPointer doc name) fragment) : fragment ≠ [] := by
  rintro rfl
  have hlength : (namedPointer doc name).length ≤ 0 := h.length_le.1
  unfold namedPointer at hlength
  cases hversion : versionOf doc <;> rw [hversion] at hlength <;>
    exact Nat.not_succ_le_zero _ hlength

/-- A reference into the document itself leads to the node of a named schema, if it is written
without percent signs. -/
theorem target_namedPointer {doc node : Value} {name fragment : String}
    (hnode : named? doc name = some node) (h : fragment.toList = namedPointer doc name) :
    target doc ("#" ++ fragment) = .ok node := by
  have hdrop : ("#" ++ fragment).toList.drop 1 = namedPointer doc name := by
    rw [String.toList_append, h]
    rfl
  unfold target
  have hfound : Libraries.lookUp doc (namedPointer doc name) = .ok node := Value.at_pointerOf hnode
  rw [hdrop, hfound]

/-- A reference is followed to the node that it leads to, if that is no reference in turn. -/
theorem dereference_of_target {doc node v : Value} {ref : String} (hv : localRef? v = some ref)
    (h : target doc ref = .ok node) (hnode : localRef? node = none) :
    dereference doc v = .ok node := by
  have hend : ∀ steps seen, dereferenceWithin doc steps seen node = .ok node := fun steps seen => by
    rw [dereferenceWithin.eq_def]
    dsimp only
    rw [hnode]
  unfold dereference
  rw [dereferenceWithin, hv]
  show (target doc ref >>= fun next => dereferenceWithin doc doc.objectCount [ref] next) = _
  rw [h]
  exact hend _ _

end ApiProto.Document

namespace ApiProto.Source

open Uri Text Document

/-- A reference is cut at its first number sign. -/
theorem Target.ofReference_append {base location fragment uri : String}
    (hlocation : '#' ∉ location.toList) (huri : composeUri base location = .ok uri) :
    Target.ofReference base (location ++ "#" ++ fragment) = .ok ⟨uri, fragment⟩ := by
  have hcut : cutFirst '#' (location ++ "#" ++ fragment).toList =
      some (location.toList, fragment.toList) := by
    rw [String.toList_append, String.toList_append, List.append_assoc]
    exact cutFirst_append hlocation _
  unfold Target.ofReference
  rw [hcut]
  show (composeUri base (String.ofList location.toList) >>= fun uri =>
    .ok (⟨uri, String.ofList fragment.toList⟩ : Target)) = _
  rw [String.ofList_toList, String.ofList_toList, huri]
  rfl

/-- A reference into a document leads to the node of a named schema, however it is written. -/
theorem Target.find_namedPointer {doc node : Value} {name fragment uri : String}
    (hnode : named? doc name = some node)
    (h : Encodes (namedPointer doc name) fragment.toList) :
    (⟨uri, fragment⟩ : Target).find doc = .ok node := by
  have hne : fragment.isEmpty = false := by
    rw [Bool.eq_false_iff]
    intro hempty
    rw [String.isEmpty_iff] at hempty
    exact ne_nil_of_encodes_namedPointer h (by rw [hempty]; rfl)
  have hfound : Libraries.lookUp doc (namedPointer doc name) = .ok node := Value.at_pointerOf hnode
  unfold Target.find
  rw [if_neg (by simp [hne]), percentDecode_of_encodes h, hfound]

end ApiProto.Source

namespace ApiProto.Compile

open Proto Document CompileM

variable {env : Environment} {c c₀ c₁ c₂ c' : Compilation}

/-! ## What is defined for named schemas -/

/-- Only names of schemas are defined at first. -/
theorem reference_of_mem_definitions {before : List (String × Schema)}
    (h : before.forM (compileDefinition env [env.package]) (announced env) = .ok ((), c)) :
    ∀ ref ∈ c.definitions.map Prod.fst, ∃ name ∈ before.map Prod.fst,
      ref = env.spec.reference name := by
  refine forM_ok_prefix (P := fun done c => ∀ ref ∈ c.definitions.map Prod.fst,
    ∃ name ∈ done.map Prod.fst, ref = env.spec.reference name) h ?_ fun done a c c' _ hstep hc => ?_
  · rw [announced_definitions]
    nofun
  · obtain ⟨name, s⟩ := a
    obtain ⟨d, c₁, hd, rfl⟩ := compileDefinition_ok hstep
    have hsame := (compileSchema_runs env _ _ _ _ _ _ _ hd).definitions_eq
    intro ref href
    obtain ⟨entry, hentry, rfl⟩ := List.mem_map.1 href
    rcases mem_defining hentry with hold | ⟨rfl, -⟩
    · obtain ⟨name', hname', hkey⟩ := hc _ (List.mem_map_of_mem (hsame ▸ hold))
      exact ⟨name', List.map_subset _ (List.subset_append_left ..) hname', hkey⟩
    · exact ⟨name, by simp, rfl⟩

theorem lookup_defining_self {ref : String} {d : Definition}
    (h : ref ∉ c.definitions.map Prod.fst) :
    (c.defining ref d).definitions.lookup ref = some d := by
  have hnone : c.definitions.lookup ref = none := by
    rw [← Option.not_isSome_iff_eq_none, isSome_lookup_iff]
    exact h
  unfold Compilation.defining
  rw [if_neg (by rw [hnone]; nofun), List.lookup_append, hnone]
  simp

/-- The reference of a named schema stands for what the first schema of that name has been compiled
to. -/
theorem exists_definition {name : String} {s : Schema}
    (hnamed : compileNamed env (startOf env) = .ok ((), c₀))
    (hs : env.spec.definitions.lookup name = some s) : ∃ c₁ d c₂,
      Compiles env (.definition name s) (Name.pascal name) s c₁ d c₂ ∧
        c₀.definitions.lookup (env.spec.reference name) = some d := by
  obtain ⟨c₃, hdefinitions, hparameters⟩ := compileNamed_states hnamed
  rw [compileDefinitions_eq] at hdefinitions
  obtain ⟨before, after, heq, hfirst⟩ :=
    List.lookup_eq_some_iff.1 ((lookup_sortEntries _ _).trans hs)
  have hrest := hdefinitions
  rw [heq] at hrest
  obtain ⟨c₁, hbefore, hrest⟩ := forM_ok_append.1 hrest
  obtain ⟨c₂, hstep, hafter⟩ := forM_ok_cons.1 hrest
  have hkeys := reference_of_mem_definitions hbefore
  obtain ⟨d, c₄, hd, rfl⟩ := compileDefinition_ok hstep
  refine ⟨c₁, d, c₄, .definition ⟨before, after, heq, hbefore⟩ hd, ?_⟩
  have hnew : env.spec.reference name ∉ c₄.definitions.map Prod.fst := by
    rw [(compileSchema_runs env _ _ _ _ _ _ _ hd).definitions_eq]
    intro hmem
    obtain ⟨name', hname', hkey⟩ := hkeys _ hmem
    obtain rfl : name = name' := (String.append_right_inj _).1 hkey
    obtain ⟨entry, hentry, rfl⟩ := List.mem_map.1 hname'
    simpa using hfirst entry hentry
  have hunderway := ((Underway.start env).builds (announced_builds env)).builds
    (Builds.of_forM (fun _ _ _ => compileDefinition_builds) hbefore)
  have hgrows := (hunderway.builds (compileDefinition_builds hstep)).builds_grows
    ((Builds.of_forM (fun _ _ _ => compileDefinition_builds) hafter).trans
      (compileParameters_builds hparameters))
  obtain ⟨added, hadded⟩ := hgrows.definitions
  have hdefined := lookup_defining_self (d := d) hnew
  rw [← hadded, List.lookup_append]
  unfold Spec.reference at hdefined ⊢
  rw [hdefined, Option.some_or]

/-- Where a reference is known, it can be compiled. -/
theorem Compilation.Knows.exists_compileReference (h : Compilation.Knows c₀ c) {ref : String}
    {d₀ : Definition} (hd₀ : c₀.definition? ref = some d₀) :
    ∃ d c', compileReference ref c = .ok (d, c') := by
  unfold compileReference
  rw [get_bind]
  cases hd : c.definition? ref with
  | some d => exact ⟨d, c, rfl⟩
  | none =>
    dsimp only
    rw [get_bind]
    cases h with
    | awaiting hdefer =>
      rw [if_pos hdefer]
      exact ⟨_, _, rfl⟩
    | resolved _ hresolves =>
      exfalso
      unfold Compilation.definition? at hd hd₀
      rcases hknown : knownDefinition? ref with _ | b <;> rw [hknown] at hd hd₀
      · obtain ⟨hnone, -⟩ | ⟨_, d, -, hsome, -⟩ := hresolves.lookup_cases ref
        · exact nomatch hnone.symm.trans hd₀
        · exact nomatch hsome.symm.trans hd
      · cases hd

/-! ## The three readers -/

/-- A reference selects a named schema in a package: wherever a schema is compiled the reference can
be, and what is compiled from it is in the end the type that the named schema has been compiled
to. -/
structure Selects (env : Environment) (g : Graph) (ref name : String) (s : Schema) : Prop where
  found : ∀ scope rawName comment s' c d c', CompilesWithin env scope rawName comment s' c d c' →
    ∃ d₁ c₁, compileReference ref c = .ok (d₁, c₁)
  type : ∃ c d c' t, Compiles env (.definition name s) (Name.pascal name) s c d c' ∧
    StandsFor env g d.unwrap t ∧ RefersTo env g ref t ∧
    ∀ scope rawName comment s' c₁ d₁ c₂,
      CompilesWithin env scope rawName comment s' c₁ d₁ c₂ → s'.ref = .text ref →
      StandsFor env g d₁.unwrap t

/-- The reference of a named schema selects that schema. -/
theorem selects_reference {name : String} {s : Schema}
    (hknown : knownDefinition? (env.spec.reference name) = none) (hne : env.spec.reference name ≠ "")
    (hrun : compilePhases env (startOf env) = .ok ((), c₂))
    (hs : env.spec.definitions.lookup name = some s) :
    Selects env c₂.graph (env.spec.reference name) name s := by
  obtain ⟨c₀, _, hnamed, -⟩ := compilePhases_ok hrun
  obtain ⟨c, d, c', hcompiles, hlookup⟩ := exists_definition hnamed hs
  have hd : c₀.definition? (env.spec.reference name) = some d := by
    unfold Compilation.definition?
    rw [hknown]
    exact hlookup
  obtain ⟨t, ht⟩ := exists_refersTo hrun hnamed hd
  have hstands : StandsFor env c₂.graph d.unwrap t := by
    obtain ⟨c₀', hnamed', hleads⟩ := ht
    obtain ⟨-, rfl⟩ := Prod.mk.inj (Except.ok.inj (hnamed.symm.trans hnamed'))
    exact ⟨c₀, hnamed, (Graph.leadsTo_iff_yields (resolve_table hd)).1 hleads⟩
  exact ⟨fun _ _ _ _ _ _ _ hwithin => (hwithin.knows hrun hnamed).exists_compileReference hd,
    c, d, c', t, hcompiles, hstands, ht,
    fun _ _ _ _ _ _ _ hwithin href => (hwithin.refersTo_iff hrun href hne).1 ht⟩

/-- The reference of a schema in a document starts like a pointer into it. -/
theorem reference_eq {doc : Value} {spec : Spec} (hread : Spec.read doc = .ok spec) {name : String}
    (htilde : '~' ∉ name.toList) (hslash : '/' ∉ name.toList) :
    (spec.reference name).toList = '#' :: namedPointer doc name := by
  unfold Spec.reference namedPointer
  rw [(Spec.read_paths hread).2.1, String.toList_append, Version.definitionsPrefix_eq, pointerOf,
    pointerOf, List.flatMap_append, List.flatMap_singleton, escapePart_of_plain htilde hslash]
  simp

theorem knownDefinition?_reference {doc : Value} {spec : Spec} (hread : Spec.read doc = .ok spec)
    (name : String) : knownDefinition? (spec.reference name) = none := by
  have hsplit : ∀ start name : String, ("#/" ++ start) ++ name = "#/" ++ (start ++ name) :=
    fun _ _ => String.append_assoc ..
  unfold Spec.reference
  rw [(Spec.read_paths hread).2.1]
  cases versionOf doc with
  | swagger2 => exact (congrArg _ (hsplit "definitions/" name)).trans (knownDefinition?_fragment _)
  | openapi3 =>
    exact (congrArg _ (hsplit "components/schemas/" name)).trans (knownDefinition?_fragment _)

/-- The node that a named schema is read from is found by all references to it that are written as
the reader expects them: a reference from another document in any way, a reference to a response or
a body with nothing percent-encoded, and the reference of a schema with nothing escaped either. -/
theorem readers_select {doc : Value} {spec : Spec} {name : String} {s : Schema}
    (hread : Spec.read doc = .ok spec) (hs : spec.definitions.lookup name = some s) :
    ∃ node, named? doc name = some node ∧ Schema.read node = .ok s ∧
      ∀ fragment : String, Uri.Encodes (namedPointer doc name) fragment.toList →
        (∀ base location uri, '#' ∉ location.toList → Uri.composeUri base location = .ok uri →
          Source.Target.ofReference base (location ++ "#" ++ fragment) = .ok ⟨uri, fragment⟩ ∧
            (⟨uri, fragment⟩ : Source.Target).find doc = .ok node) ∧
        (fragment.toList = namedPointer doc name →
          target doc ("#" ++ fragment) = .ok node ∧
          (∀ v, localRef? v = some ("#" ++ fragment) → localRef? node = none →
            dereference doc v = .ok node) ∧
          ('~' ∉ name.toList → '/' ∉ name.toList → ∀ options o, compile options spec = .ok o →
            Selects ⟨options, spec⟩ o.graph ("#" ++ fragment) name s)) := by
  obtain ⟨node, hnode, hschema⟩ := Spec.read_named hread hs
  refine ⟨node, hnode, hschema, fun fragment hfragment => ⟨?_, fun hplain => ?_⟩⟩
  · intro base location uri hlocation huri
    exact ⟨Source.Target.ofReference_append hlocation huri,
      Source.Target.find_namedPointer hnode hfragment⟩
  · have htarget := target_namedPointer hnode hplain
    refine ⟨htarget, fun v hv hend => dereference_of_target hv htarget hend, ?_⟩
    intro htilde hslash options o hcompile
    have href : "#" ++ fragment = spec.reference name := by
      rw [← String.toList_inj, String.toList_append, hplain, reference_eq hread htilde hslash]
      rfl
    obtain ⟨c₂, hrun, rfl⟩ := compile_ok_iff.1 hcompile
    rw [href]
    refine @selects_reference ⟨options, spec⟩ _ _ _ (knownDefinition?_reference hread name) ?_
      (compileAll_ok_iff.1 hrun).1 hs
    rw [← href]
    simp

/-- A zoo with a pet, whose name has a space. -/
def spacedPets : Value := .object [("swagger", .text "2.0"), ("definitions", .object [
  ("My Pet", writtenObject [("name", single "type" (.text "string"))]),
  ("Zoo", writtenObject [("pet", writtenReference "#/definitions/My Pet")])])]

theorem readers_select_spacedPets : ∃ spec s node o,
    Spec.read spacedPets = .ok spec ∧ spec.definitions.lookup "My Pet" = some s ∧
    named? spacedPets "My Pet" = some node ∧
    Uri.Encodes (namedPointer spacedPets "My Pet") "/definitions/My%20Pet".toList ∧
    (⟨"file:///zoo.json", "/definitions/My%20Pet"⟩ : Source.Target).find spacedPets = .ok node ∧
    target spacedPets ("#" ++ "/definitions/My Pet") = .ok node ∧
    compile ⟨false, false, false, false, "pet"⟩ spec = .ok o ∧
    Selects ⟨⟨false, false, false, false, "pet"⟩, spec⟩ o.graph ("#" ++ "/definitions/My Pet") "My Pet"
      s := by
  have hread : readsTo spacedPets (fun spec => (spec.definitions.lookup "My Pet").isSome &&
      compilesTo ⟨false, false, false, false, "pet"⟩ spec fun _ => true) = true := by
    decide +kernel
  rcases hspec : Spec.read spacedPets with e | spec
  · rw [readsTo, hspec] at hread
    cases hread
  obtain ⟨hsome, hcompiles⟩ := Bool.and_eq_true_iff.1 (test_of_readsTo hread hspec)
  obtain ⟨s, hs⟩ := Option.isSome_iff_exists.1 hsome
  obtain ⟨c, hcompile, -⟩ := compile_of_compilesTo hcompiles
  have hpointer : namedPointer spacedPets "My Pet" = "/definitions/My Pet".toList := by
    decide +kernel
  have hencodes : Uri.Encodes (namedPointer spacedPets "My Pet") "/definitions/My%20Pet".toList := by
    rw [hpointer]
    have hspace : Uri.Encodes [' '] "%20".toList :=
      show Uri.Encodes [' '] ("%20".toList ++ []) from .encoded (.cons (by decide) .nil) .nil
    have hstart : Uri.Encodes "/definitions/My".toList "/definitions/My".toList :=
      .refl (by decide)
    have hend : Uri.Encodes "Pet".toList "Pet".toList := .refl (by decide)
    exact hstart.append (hspace.append hend)
  obtain ⟨node, hnode, -, hall⟩ := readers_select hspec hs
  have hplain := hall "/definitions/My Pet" (hpointer ▸ .refl (by decide))
  have hfound := hall "/definitions/My%20Pet" hencodes
  obtain ⟨htarget, -, hselects⟩ := hplain.2 hpointer.symm
  refine ⟨spec, s, node, _, rfl, hs, hnode, hencodes, ?_, htarget, hcompile,
    hselects (by decide) (by decide) _ _ hcompile⟩
  exact (hfound.1 "file:///zoo.json" "" "file:///zoo.json" (by decide) (by decide +kernel)).2

/-- A zoo with a pet, whose name has a slash. -/
def slashedPets : Value := .object [("swagger", .text "2.0"), ("definitions", .object [
  ("a/b", writtenObject [("name", single "type" (.text "string"))]),
  ("Zoo", writtenObject [("pet", writtenReference "#/definitions/a~1b")])])]

/-- The reference of a schema is compared as it is written: a named schema with a slash in its name
is found by the other readers under the reference in which the slash is escaped, and is missing for
the schema with that reference. -/
theorem escaped_reference_missing : ∃ spec node e,
    Spec.read slashedPets = .ok spec ∧ named? slashedPets "a/b" = some node ∧
    (⟨"file:///zoo.json", "/definitions/a~1b"⟩ : Source.Target).find slashedPets = .ok node ∧
    target slashedPets "#/definitions/a~1b" = .ok node ∧
    compile ⟨false, false, false, false, "pet"⟩ spec = .error e ∧
    e.cause = .unresolved "#/definitions/a~1b" := by
  have hread : readsTo slashedPets (fun spec =>
      match compilePhases ⟨⟨false, false, false, false, "pet"⟩, spec⟩
        (startOf ⟨⟨false, false, false, false, "pet"⟩, spec⟩) with
      | .ok _ => false
      | .error e => e.cause = .unresolved "#/definitions/a~1b") = true := by decide +kernel
  rcases hspec : Spec.read slashedPets with e | spec
  · rw [readsTo, hspec] at hread
    cases hread
  have hphases := test_of_readsTo hread hspec
  split at hphases
  · cases hphases
  · next e herror =>
    have hnode : named? slashedPets "a/b" =
        some (writtenObject [("name", single "type" (.text "string"))]) := rfl
    have hpointer : "/definitions/a~1b".toList = namedPointer slashedPets "a/b" := by decide +kernel
    refine ⟨spec, _, e, rfl, hnode,
      Source.Target.find_namedPointer hnode (hpointer ▸ .refl (by decide)),
      target_namedPointer hnode hpointer, ?_, by simpa using hphases⟩
    show (compileAll ⟨⟨false, false, false, false, "pet"⟩, spec⟩ _ >>= _) = _
    rw [compileAll_eq]
    show ((compilePhases ⟨⟨false, false, false, false, "pet"⟩, spec⟩ _ >>= _) >>= _) = _
    rw [herror]
    rfl

end ApiProto.Compile
