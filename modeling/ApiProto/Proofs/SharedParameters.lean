import ApiProto.Proofs.Leftovers
import ApiProto.Proofs.Requests

/-!
# Shared parameters

A reference to a shared parameter stands for a type and for a field: the name, the number and
whether the field is repeated are those of the shared parameter that the reference names, not of one
that it refers to in turn. Shared parameters are compiled in the order of their names, and one that
refers to another must come after it.

* `Spec.SharesApart` — shared parameters have references of their own.
* `Compilation.Shares` — what stands for the shared parameters that have been compiled;
  `Shares.compile` is the step for one more.
* `ReachesOperation.shared` — what stands for them when operations are compiled.
* `shared_parameter_field` — the field of a reference to a shared parameter.
-/

namespace ApiProto.Document

/-- Shared parameters have references of their own. -/
structure Spec.SharesApart (spec : Spec) : Prop where
  nonempty : spec.parametersPrefix ≠ ""
  known : ∀ name, Proto.knownDefinition? (spec.parametersPrefix ++ name) = none
  named : ∀ name name', spec.definitionsPrefix ++ name ≠ spec.parametersPrefix ++ name'

theorem knownDefinition?_fragment (rest : String) : Proto.knownDefinition? ("#/" ++ rest) = none := by
  have hfiles : ∀ entry ∈ Proto.knownImports, entry.2.toList.head?.any (· ≠ '#') = true := by
    decide +kernel
  rcases hlookup : Proto.knownDefinition? ("#/" ++ rest) with _ | b
  · rfl
  · obtain ⟨before, after, heq, -⟩ := List.lookup_eq_some_iff.1 hlookup
    obtain ⟨⟨name, file⟩, hentry, hknown⟩ := List.mem_map.1
      (show ("#/" ++ rest, b) ∈ Proto.knownDefinitions by simp [heq])
    -- The reference of a well-known type starts with a file, and no file starts so.
    have hchars := congrArg String.toList (Prod.mk.inj hknown).1
    have hfile := hfiles _ hentry
    rw [String.toList_append, String.toList_append, String.toList_append,
      show "#/".toList = ['#', '/'] from rfl] at hchars
    rcases hcs : file.toList with _ | ⟨first, cs⟩ <;> rw [hcs] at hfile hchars
    · cases hfile
    · exact absurd (List.cons.inj hchars).1 (by simpa using hfile)

theorem Spec.sharesApart_of_version {spec : Spec} (version : Version)
    (hdefinitions : spec.definitionsPrefix = version.definitionsPrefix)
    (hparameters : spec.parametersPrefix = version.parametersPrefix) : spec.SharesApart := by
  have hsplit : ∀ start name : String, ("#/" ++ start) ++ name = "#/" ++ (start ++ name) :=
    fun _ _ => String.append_assoc ..
  cases version with
  | swagger2 =>
    refine ⟨by simp [hparameters, Version.parametersPrefix], fun name => ?_, fun name name' heq => ?_⟩
    · rw [hparameters]
      exact (congrArg _ (hsplit "parameters/" name)).trans (knownDefinition?_fragment _)
    · rw [hdefinitions, hparameters] at heq
      simpa [Version.definitionsPrefix, Version.parametersPrefix] using congrArg String.toList heq
  | openapi3 =>
    refine ⟨by simp [hparameters, Version.parametersPrefix], fun name => ?_, fun name name' heq => ?_⟩
    · rw [hparameters]
      exact (congrArg _ (hsplit "components/parameters/" name)).trans (knownDefinition?_fragment _)
    · rw [hdefinitions, hparameters] at heq
      simpa [Version.definitionsPrefix, Version.parametersPrefix] using congrArg String.toList heq

/-- In descriptions that have been read, shared parameters have references of their own. -/
theorem Spec.read_sharesApart {doc : Value} {spec : Spec} (h : Spec.read doc = .ok spec) :
    spec.SharesApart :=
  have ⟨_, hdefinitions, hparameters⟩ := Spec.read_paths h
  Spec.sharesApart_of_version (versionOf doc) hdefinitions hparameters

end ApiProto.Document

namespace ApiProto.Proto

/-- What has become a reference was one. -/
theorem Graph.Grows.isReference_of {g g' : Graph} (h : g.Grows g') {t : TypeRef} (hhas : g.Has t)
    (ht : g'.IsReference t) : g.IsReference t := by
  obtain ⟨id, ref, rfl, hid⟩ := ht
  obtain ⟨n, hn⟩ := Graph.node?_isSome hhas
  obtain ⟨n', hn', hgrow⟩ := h id n hn
  obtain rfl := Option.some.inj (hid.symm.trans hn')
  cases hgrow
  exact ⟨id, ref, rfl, hn⟩

end ApiProto.Proto

namespace ApiProto.Compile

open Proto Document CompileM

variable {env : Environment} {c c₀ c₁ c₂ c' : Compilation}

/-! ## Tables of definitions -/

theorem nodup_defining {ref : String} {d : Definition} (h : (c.definitions.map Prod.fst).Nodup) :
    ((c.defining ref d).definitions.map Prod.fst).Nodup := by
  unfold Compilation.defining
  split
  · exact h
  · next hnone =>
    rw [List.map_append, List.nodup_append]
    refine ⟨h, List.nodup_singleton _, fun k hk k' hk' heq => hnone ?_⟩
    obtain rfl := List.mem_singleton.1 hk'
    exact isSome_lookup_iff.2 (heq ▸ hk)

/-- A reference without definition gets the one that is given. -/
theorem mem_defining_self {ref : String} {d : Definition} (h : ref ∉ c.definitions.map Prod.fst) :
    (ref, d) ∈ (c.defining ref d).definitions := by
  unfold Compilation.defining
  rw [if_neg (mt isSome_lookup_iff.1 h)]
  exact List.mem_append_right _ (List.mem_singleton.2 rfl)

theorem defining_subset (ref : String) (d : Definition) :
    c.definitions ⊆ (c.defining ref d).definitions :=
  (@defining_grows [] c ref d).definitions.subset

theorem lookup_of_mem {α : Type} {l : List (String × α)} {entry : String × α}
    (h : (l.map Prod.fst).Nodup) (hentry : entry ∈ l) : l.lookup entry.1 = some entry.2 := by
  obtain ⟨before, after, rfl⟩ := List.append_of_mem hentry
  refine List.lookup_eq_some_iff.2 ⟨before, after, rfl, fun e he => ?_⟩
  rw [List.map_append, List.nodup_append] at h
  simpa using fun heq => h.2.2 _ (List.mem_map_of_mem he) _ (List.mem_cons_self ..) heq.symm

/-! ## Shared parameters one after the other -/

/-- What a shared parameter that has been compiled stands for: its type, and the field that it
determines. -/
def SharedAs (env : Environment) (name : String) (p : Parameter) (d : Definition) : Prop :=
  ∃ s c₁ d₁ c₂ given, Compiles env (.parameter name p) (Name.pascal name) s c₁ d₁ c₂ ∧
    (p.name.isEmpty = false → p.name.wordText = .ok given) ∧
    d = .parameter d₁.unwrap given p.tag p.isArray

/-- What references stand for when some shared parameters have been compiled. -/
structure Compilation.Shares (env : Environment) (done : List (String × Parameter))
    (c : Compilation) : Prop where
  entries : ∀ entry ∈ c.definitions,
    (∃ name t, entry = (env.spec.definitionsPrefix ++ name, .type t)) ∨
      ∃ name ∈ done.map Prod.fst, entry.1 = env.spec.parametersPrefix ++ name
  nodup : (c.definitions.map Prod.fst).Nodup
  shared : ∀ name p, done.lookup name = some p →
    ∃ d, SharedAs env name p d ∧ (env.spec.parametersPrefix ++ name, d) ∈ c.definitions

/-- Before all shared parameters, references stand for types. -/
theorem compileDefinitions_shares
    (h : compileDefinitions env [env.package] (announced env) = .ok ((), c)) : c.Shares env [] := by
  rw [compileDefinitions_eq] at h
  have hstart : (announced env).Shares env [] := by
    refine ⟨?_, ?_, nofun⟩ <;> rw [announced_definitions]
    · nofun
    · exact List.nodup_nil
  refine forM_ok_induct (P := fun c => c.Shares env []) (fun entry _ c c' hstep hc => ?_) h hstart
  obtain ⟨d, c₁, hd, rfl⟩ := compileDefinition_ok hstep
  have htypes : c.DefinesTypes := by
    intro entry hentry
    rcases hc.entries entry hentry with ⟨name, t, rfl⟩ | ⟨_, hnone, -⟩
    · exact ⟨t, rfl⟩
    · cases hnone
  obtain ⟨t, rfl⟩ := compileSchema_type_of_definesTypes htypes hd
  have hsame := (compileSchema_runs env _ _ _ _ _ _ _ hd).definitions_eq
  refine ⟨fun entry hentry => ?_, nodup_defining (hsame ▸ hc.nodup), nofun⟩
  rcases mem_defining hentry with hold | ⟨rfl, -⟩
  · exact hc.entries entry (hsame ▸ hold)
  · exact .inl ⟨_, t, rfl⟩

/-- What has been compiled so far has no definition for a shared parameter that is still to come. -/
theorem Compilation.Shares.not_mem (hspec : env.spec.SharesApart)
    {done : List (String × Parameter)} (h : c.Shares env done) {name : String}
    (hname : name ∉ done.map Prod.fst) :
    env.spec.parametersPrefix ++ name ∉ c.definitions.map Prod.fst := by
  intro hmem
  obtain ⟨entry, hentry, hkey⟩ := List.mem_map.1 hmem
  rcases h.entries entry hentry with ⟨name', t, rfl⟩ | ⟨name', hdone, hkey'⟩
  · exact hspec.named _ _ hkey
  · obtain rfl : name = name' := (String.append_right_inj _).1 (hkey.symm.trans hkey')
    exact hname hdone

/-- One more shared parameter is compiled. -/
theorem Compilation.Shares.compile (hspec : env.spec.SharesApart)
    {done : List (String × Parameter)} {name : String} {p : Parameter} (h : c.Shares env done)
    (hstart : compileDefinitions env [env.package] (announced env) = .ok ((), c₀))
    (hcomes : ComesTo (compileParameter env [env.package]) (sortEntries env.spec.parameters) c₀
      (name, p) c) (hstep : compileParameter env [env.package] (name, p) c = .ok ((), c')) :
    c'.Shares env (done ++ [(name, p)]) := by
  obtain ⟨key, s, d, c₁, given, hs, hd, hgiven, rfl⟩ := compileParameter_given hstep
  have hsame := (compileSchema_runs env _ _ _ _ _ _ _ hd).definitions_eq
  have hcompiled : SharedAs env name p (.parameter d.unwrap given p.tag p.isArray) :=
    ⟨s, c, d, c₁, given, .parameter hstart hcomes hs hd, hgiven, rfl⟩
  refine ⟨fun entry hentry => ?_, nodup_defining (hsame ▸ h.nodup), fun name' p' hp => ?_⟩
  · rcases mem_defining hentry with hold | ⟨rfl, -⟩
    · refine (h.entries entry (hsame ▸ hold)).imp_right fun ⟨name', hdone, hkey⟩ => ?_
      exact ⟨name', List.map_subset _ (List.subset_append_left ..) hdone, hkey⟩
    · exact .inr ⟨name, by simp, rfl⟩
  · rw [List.lookup_append] at hp
    rcases hold : done.lookup name' with _ | p₀ <;> rw [hold] at hp
    · have hp : [(name, p)].lookup name' = some p' := hp
      obtain ⟨before, after, heq, hfirst⟩ := List.lookup_eq_some_iff.1 hp
      obtain ⟨rfl, rfl⟩ : name = name' ∧ p = p' := by
        rcases before with _ | ⟨_, _⟩ <;> simp_all
      refine ⟨_, hcompiled, mem_defining_self ?_⟩
      rw [hsame]
      exact h.not_mem hspec fun hmem => absurd (isSome_lookup_iff.2 hmem) (by simp [hold])
    · obtain rfl : p₀ = p' := by simpa using hp
      obtain ⟨d', hd', hmem⟩ := h.shared name' p₀ hold
      exact ⟨d', hd', defining_subset _ _ (hsame ▸ hmem)⟩

/-! ## Resolved definitions -/

theorem resolveDefinitions_keys {l : List (String × Definition)} {visited : List Nat}
    (h : resolveDefinitions l visited c = .ok ((), c')) :
    c'.definitions.map Prod.fst = c.definitions.map Prod.fst := by
  induction l generalizing c visited with
  | nil =>
    obtain rfl := (Prod.mk.inj (Except.ok.inj h)).2
    rfl
  | cons entry rest ih =>
    obtain ⟨ref, d⟩ := entry
    obtain ⟨⟨t, visited'⟩, c₁, hfirst, h⟩ := bind_ok_iff.1 h
    obtain ⟨-, hc₁⟩ := resolving_ok (within_ok_iff.1 hfirst)
    have hrest := ih (c := c₁.redefining ref (d.withType t)) h
    rw [hrest, hc₁]
    simp [Compilation.redefining]

theorem resolveAll_keys (h : resolveAll c = .ok ((), c')) :
    c'.definitions.map Prod.fst = c.definitions.map Prod.fst := by
  unfold resolveAll at h
  rw [get_bind] at h
  obtain ⟨⟨⟨⟩, visited⟩, c₁, hpackage, h⟩ := bind_ok_iff.1 h
  obtain ⟨-, hc₁⟩ := resolving_ok hpackage
  rw [resolveDefinitions_keys h, hc₁]

/-- What references stand for when operations are compiled: the definitions of shared parameters are
those that they were compiled to, with references put in their places. -/
structure Compilation.Shared (env : Environment) (c : Compilation) : Prop where
  entries : ∀ entry ∈ c.definitions, (∃ t, entry.2 = .type t) ∨
    ∃ name ∈ env.spec.parameters.map Prod.fst, entry.1 = env.spec.parametersPrefix ++ name
  shared : ∀ name p, env.spec.parameters.lookup name = some p →
    ∃ s c₁ d c₂ given t, Compiles env (.parameter name p) (Name.pascal name) s c₁ d c₂ ∧
      (p.name.isEmpty = false → p.name.wordText = .ok given) ∧
      c.definition? (env.spec.parametersPrefix ++ name) =
        some (.parameter t given p.tag p.isArray) ∧
      c.graph.Becomes d.unwrap t ∧ ¬ c.graph.IsReference t

/-- Entries of one key keep their order. -/
theorem lookup_sortEntries {α : Type} (l : List (String × α)) (key : String) :
    (sortEntries l).lookup key = l.lookup key := by
  have hinsert : ∀ (entry : String × α) (l : List (String × α)),
      (insertBy (fun a b => a.1 ≤ b.1) entry l).lookup key = (entry :: l).lookup key := by
    intro entry l
    induction l with
    | nil => rfl
    | cons first rest ih =>
      rw [insertBy]
      split
      · rfl
      · next hnot =>
        have hne : entry.1 ≠ first.1 := fun heq => hnot (decide_eq_true (heq ▸ String.le_refl _))
        rw [List.lookup_cons, ih, List.lookup_cons, List.lookup_cons, List.lookup_cons]
        by_cases hkey : key = first.1
        · rw [beq_iff_eq.2 hkey, beq_eq_false_iff_ne.2 fun heq => hne (heq.symm.trans hkey)]
        · rw [beq_eq_false_iff_ne.2 hkey]
  induction l with
  | nil => rfl
  | cons entry rest ih =>
    have hsort : sortEntries (entry :: rest) =
        insertBy (fun a b => a.1 ≤ b.1) entry (sortEntries rest) := rfl
    rw [hsort, hinsert, List.lookup_cons, List.lookup_cons, ih]

/-- Resolution puts references in their places, and leaves the rest of what shared parameters stand
for. -/
theorem Compilation.Shares.resolved (hspec : env.spec.SharesApart)
    (h : c.Shares env (sortEntries env.spec.parameters)) (hresolve : resolveAll c = .ok ((), c'))
    {scope : Scope} (hc : c.Awaiting scope) : c'.Shared env := by
  have hresolved := resolveAll_ok hresolve
  obtain ⟨visited, hw⟩ := resolveAll_walked hresolve hc
  have hkeys := resolveAll_keys hresolve
  refine ⟨fun entry hentry => ?_, fun name p hp => ?_⟩
  · obtain ⟨d, hd, t, hbecome, -⟩ := hresolved.definitions entry hentry
    rcases h.entries _ hd with ⟨name, t₀, heq⟩ | ⟨name, hname, hkey⟩
    · obtain ⟨-, rfl⟩ := Prod.mk.inj heq
      exact .inl ⟨t, hbecome⟩
    · obtain ⟨entry', hentry', rfl⟩ := List.mem_map.1 hname
      exact .inr ⟨_, List.mem_map_of_mem (mem_sortEntries.1 hentry'), hkey⟩
  · obtain ⟨d, hd, hmem⟩ := h.shared name p ((lookup_sortEntries _ _).trans hp)
    have hkey : env.spec.parametersPrefix ++ name ∈ c'.definitions.map Prod.fst :=
      hkeys ▸ List.mem_map_of_mem hmem
    obtain ⟨entry, hentry, heq⟩ := List.mem_map.1 hkey
    obtain ⟨d', hd', t, hbecome, ht⟩ := hresolved.definitions entry hentry
    -- No reference has two definitions, so this is the one that the shared parameter was given.
    rw [heq] at hd'
    obtain rfl : d = d' :=
      Option.some.inj ((lookup_of_mem h.nodup hmem).symm.trans (lookup_of_mem h.nodup hd'))
    have hlookup := lookup_of_mem (hkeys ▸ h.nodup) hentry
    obtain ⟨s, c₁, d₁, c₂, given, hplace, hgiven, rfl⟩ := hd
    refine ⟨s, c₁, d₁, c₂, given, t, hplace, hgiven, ?_, ?_, ?_⟩
    · unfold Compilation.definition?
      rw [hspec.known, ← heq, hlookup, hbecome]
      rfl
    · exact ht.imp_right fun href => hresolved.graph.isReference_iff.2 href.1
    · have hcovers := hw.definitions entry hentry
      rw [hbecome] at hcovers
      exact hcovers.not_isReference

theorem Compilation.Shared.of_grows {opened : List Nat} (h : c.Shared env) (hc : c.Closed)
    (hsame : c'.definitions = c.definitions) (hgrows : c.Grows opened c') : c'.Shared env := by
  refine ⟨hsame ▸ h.entries, fun name p hp => ?_⟩
  obtain ⟨s, c₁, d, c₂, given, t, hplace, hgiven, hdefinition, hbecomes, ht⟩ := h.shared name p hp
  refine ⟨s, c₁, d, c₂, given, t, hplace, hgiven, (definition?_congr hsame _).trans hdefinition,
    hbecomes.imp_right hgrows.nodes.isReference, fun href => ht ?_⟩
  exact hgrows.nodes.isReference_of (hc.has_definition hdefinition) href

/-- Some shared parameters have been compiled one after the other. -/
theorem compileParameters_shares (hspec : env.spec.SharesApart)
    {before after : List (String × Parameter)} (heq : sortEntries env.spec.parameters = before ++ after)
    (hdefinitions : compileDefinitions env [env.package] (announced env) = .ok ((), c))
    (h : before.forM (compileParameter env [env.package]) c = .ok ((), c')) :
    c'.Shares env before := by
  refine forM_ok_prefix (P := Compilation.Shares env) h (compileDefinitions_shares hdefinitions)
    fun done entry c₁ c₂ hcomes hstep hdone => hdone.compile hspec hdefinitions ?_ hstep
  obtain ⟨earlier, later, hsplit, hrun⟩ := hcomes
  exact ⟨earlier, later ++ after, by simp [heq, hsplit], hrun⟩

theorem ReachesPaths.shared (hspec : env.spec.SharesApart) (h : ReachesPaths env c) :
    c.Shared env := by
  obtain ⟨c₀, c₁, hnamed, hresolve, hextensions⟩ := h
  obtain ⟨c₂, hdefinitions, hparameters⟩ := compileNamed_states hnamed
  have hshares := compileParameters_shares hspec (List.append_nil _).symm hdefinitions hparameters
  have hresolved := hshares.resolved hspec hresolve (compileNamed_awaiting hnamed)
  have hunderway := ((Underway.start env).builds (compileNamed_builds hnamed)).resolved
    (resolveAll_ok hresolve)
  have hbuilds : Builds env env.package { c₁ with deferring := false } c :=
    Builds.of_forM (fun _ _ _ => compileExtension_builds) hextensions
  have hstart : Compilation.Shared env { c₁ with deferring := false } :=
    ⟨hresolved.entries, hresolved.shared⟩
  exact hstart.of_grows hunderway.closed
    (forM_definitions (fun _ _ _ => compileExtension_definitions) hextensions)
    (hunderway.builds_grows hbuilds)

/-- What stands for shared parameters when an operation is compiled. -/
theorem ReachesOperation.shared (hspec : env.spec.SharesApart) {path : String} {item : PathItem}
    {e : Endpoint} (h : ReachesOperation env path item e c) : c.Shared env := by
  obtain ⟨c₀, hpaths, hbuilds, hsame⟩ := h.definitions_eq
  have hunderway := (ReachesPaths.serves hpaths).1
  exact (hpaths.shared hspec).of_grows hunderway.closed hsame (hunderway.builds_grows hbuilds)

/-! ## Fields of shared parameters -/

section Fields

variable {g : Graph} {q p : Parameter} {f : Proto.Field TypeRef Value} {ref : String}

theorem eq_of_protoName {key word : String}
    (h : if (Value.text key).isEmpty then word = key else (Value.text key).wordText = .ok word) :
    word = key := by
  by_cases hempty : (Value.text key).isEmpty = true
  · rwa [if_pos hempty] at h
  · rw [if_neg hempty] at h
    exact (Except.ok.inj h).symm

/-- The field of a reference is that of what the reference stands for. -/
theorem IsFieldOf.reference (hf : IsFieldOf env g c q f) (href : q.ref = .text ref)
    (hne : ref ≠ "") :
    ∃ d, c.definition? ref = some d ∧ g.Becomes d.unwrap f.type ∧
      match d with
      | .parameter _ given number repeated => f.name = Name.snake given ∧
          (number ≠ 0 → f.number = number) ∧ f.repeated = repeated
      | .type _ => q.key? = some f.name := by
  obtain ⟨key, s, hs, scope, c₁, c₂, p, number, hsame, hp, hnumber, t, rfl, ht⟩ := hf
  obtain ⟨hkey, ⟨-, ref', href', hdefined, rfl⟩ | ⟨hempty, -⟩⟩ := parameterSchema_cases hs
  swap
  · simp [href, Value.isEmpty, hne] at hempty
  obtain rfl : ref = ref' := by
    rw [href] at href'
    exact Except.ok.inj href'
  obtain ⟨d, hd⟩ := Option.isSome_iff_exists.1 hdefined
  obtain ⟨d', c₃, hd', -, hfield⟩ := compileProperty_cases hp
  have hvalue : compileReferenceValue (.text ref) c₁ = .ok (d', c₃) :=
    compilePropertyType_reference rfl (by simp [Value.isEmpty, hne]) hd'
  have hreference : compileReference ref c₁ = .ok (d', c₃) := hvalue
  have hd₁ := (definition?_congr hsame ref).trans hd
  obtain rfl : d = d' := by
    rcases compileReference_ok hreference with ⟨hsome, -⟩ | ⟨hnone, -⟩
    · exact Option.some.inj (hd₁.symm.trans hsome)
    · exact nomatch hnone.symm.trans hd₁
  refine ⟨d, hd, ?_⟩
  obtain ⟨t', given, number', repeated, rfl, rfl⟩ | ⟨t', word, rfl, hword, rfl⟩ := hfield
  · exact ⟨ht, Name.fieldName_eq_snake given, hnumber, rfl⟩
  · refine ⟨ht, ?_⟩
    have hname : Name.fieldName word = key := by
      rw [eq_of_protoName hword, Name.fieldName_eq_snake, q.snake_key? hkey]
    exact hkey.trans (congrArg some hname.symm)

/-- The field of a reference to a shared parameter is determined by that parameter. -/
theorem IsFieldOf.shared {name : String} (hf : IsFieldOf env g c q f) (hspec : env.spec.SharesApart)
    (hc : c.Shared env) (href : q.ref = .text (env.spec.parametersPrefix ++ name))
    (hp : env.spec.parameters.lookup name = some p) :
    ∃ s c₁ d c₂ given t, Compiles env (.parameter name p) (Name.pascal name) s c₁ d c₂ ∧
      (p.name.isEmpty = false → p.name.wordText = .ok given) ∧
      c.definition? (env.spec.parametersPrefix ++ name) =
        some (.parameter t given p.tag p.isArray) ∧
      c.graph.Becomes d.unwrap t ∧ ¬ c.graph.IsReference t ∧ g.Becomes t f.type ∧
      f.name = Name.snake given ∧ (p.tag ≠ 0 → f.number = p.tag) ∧ f.repeated = p.isArray := by
  have hne : env.spec.parametersPrefix ++ name ≠ "" := by
    simp [hspec.nonempty]
  obtain ⟨d, hd, ht, hfield⟩ := hf.reference href hne
  obtain ⟨s, c₁, d₁, c₂, given, t, hplace, hgiven, hdefinition, hbecomes, hend⟩ :=
    hc.shared name p hp
  obtain rfl := Option.some.inj (hd.symm.trans hdefinition)
  exact ⟨s, c₁, d₁, c₂, given, t, hplace, hgiven, hdefinition, hbecomes, hend, ht, hfield⟩

end Fields

/-! ## The field of a reference -/

/-- What comes before the first entry of a key in the order of keys has a smaller key. -/
theorem lt_of_before {α : Type} {l before after : List (String × α)} {name : String} {a : α}
    (heq : sortEntries l = before ++ (name, a) :: after)
    (hfirst : ∀ entry ∈ before, (name != entry.1) = true) {entry : String × α}
    (hentry : entry ∈ before) : entry.1 < name := by
  have hsorted := sortBy_pairwise keyOrder_trans keyOrder_total l
  rw [show sortBy _ l = sortEntries l from rfl, heq] at hsorted
  have hle : entry.1 ≤ name := of_decide_eq_true
    ((List.pairwise_append.1 hsorted).2.2 entry hentry (name, a) (List.mem_cons_self ..))
  have hne : name ≠ entry.1 := bne_iff_ne.1 (hfirst entry hentry)
  exact String.not_le.1 fun hge => hne (String.le_antisymm hge hle)

/-- A parameter that refers to a shared one can be compiled only when that one has been. -/
theorem Compilation.Shares.mem_of_alias (hspec : env.spec.SharesApart)
    {done : List (String × Parameter)} {name target : String} {p : Parameter}
    (h : c.Shares env done) (href : p.ref = .text (env.spec.parametersPrefix ++ target))
    (hstep : compileParameter env [env.package] (name, p) c = .ok ((), c')) :
    target ∈ done.map Prod.fst := by
  obtain ⟨key, s, d, c₁, given, hs, -⟩ := compileParameter_ok hstep
  have hne : env.spec.parametersPrefix ++ target ≠ "" := by
    simp [hspec.nonempty]
  obtain ⟨-, ⟨-, ref, hkey, hdefined, -⟩ | ⟨hempty, -⟩⟩ := parameterSchema_cases hs
  swap
  · simp [href, Value.isEmpty, hne] at hempty
  obtain rfl : env.spec.parametersPrefix ++ target = ref := by
    rw [href] at hkey
    exact Except.ok.inj hkey
  by_contra hnot
  unfold Compilation.definition? at hdefined
  rw [hspec.known] at hdefined
  exact h.not_mem hspec hnot (isSome_lookup_iff.1 hdefined)

/-- A shared parameter comes after the one that it refers to. -/
theorem alias_lt (env : Environment) (hspec : env.spec.SharesApart) {name target : String} {p : Parameter}
    (hrun : compilePhases env (startOf env) = .ok ((), c))
    (hp : env.spec.parameters.lookup name = some p)
    (href : p.ref = .text (env.spec.parametersPrefix ++ target)) : target < name := by
  obtain ⟨c₀, -, hnamed, -⟩ := compilePhases_ok hrun
  obtain ⟨c₁, hdefinitions, hparameters⟩ := compileNamed_states hnamed
  rw [compileParameters_eq] at hparameters
  obtain ⟨before, after, heq, hfirst⟩ :=
    List.lookup_eq_some_iff.1 ((lookup_sortEntries _ _).trans hp)
  have hrest := hparameters
  rw [heq] at hrest
  obtain ⟨c₂, hbefore, hrest⟩ := forM_ok_append.1 hrest
  obtain ⟨c₃, hstep, -⟩ := forM_ok_cons.1 hrest
  have htarget := (compileParameters_shares hspec heq hdefinitions hbefore).mem_of_alias hspec href
    hstep
  obtain ⟨entry, hentry, rfl⟩ := List.mem_map.1 htarget
  exact lt_of_before heq hfirst hentry

/-- A new request message has a field for a reference to a shared parameter, unless its key comes
again. The name, the number and whether the field is repeated are those of the shared parameter that
the reference names, and its type is the one that comes out for that parameter. If the parameter
refers to another one in turn, the other one comes before it. -/
theorem shared_parameter_field {options : Options} {spec : Spec} {o : Output}
    (h : compile options spec = .ok o) (hspec : spec.SharesApart) :
    (∀ name target p, spec.parameters.lookup name = some p →
      p.ref = .text (spec.parametersPrefix ++ target) → target < name) ∧
    ∀ path item e request s c d c',
      Compiles ⟨options, spec⟩ (.request path item e) request s c d c' →
      NewRequest ⟨options, spec⟩ ⟨path, item.parameters, e⟩ →
      ∀ q ∈ lastsBy Parameter.key? (item.parameters ++ e.parameters), ∀ name p given,
        q.ref = .text (spec.parametersPrefix ++ name) → spec.parameters.lookup name = some p →
        p.name = .text given → given ≠ "" →
        ∃ id m f, d.unwrap = .node id ∧ o.graph.message? id = some m ∧ f ∈ m.fields ∧
          f.name = Name.snake given ∧ (p.tag ≠ 0 → f.number = p.tag) ∧ f.repeated = p.isArray ∧
          ∃ s₁ c₁ d₁ c₂,
            Compiles ⟨options, spec⟩ (.parameter name p) (Name.pascal name) s₁ c₁ d₁ c₂ ∧
            (p.ref.isEmpty = true → ∃ key, s₁ = p.property key) ∧
            Fits ⟨options, spec⟩ o.graph [o.package] (Name.pascal name) s₁ c₁ d₁.unwrap ∧
            o.graph.Becomes d₁.unwrap f.type ∧ ¬ o.graph.IsReference f.type := by
  obtain ⟨c₀, hrun, rfl⟩ := compile_ok_iff.1 h
  have hphases := (compileAll_ok_iff.1 hrun).1
  refine ⟨fun name target p hp href => alias_lt ⟨options, spec⟩ hspec hphases hp href, ?_⟩
  intro path item e request s c d c' hplace hnew q hq name p given href hp hgiven hne
  obtain ⟨m, l, hnode, hm, -, hperm, hfields⟩ := hplace.request_fields (hnew.free hplace) hphases
  obtain ⟨f, hf, hfield⟩ := exists_of_mem_forall₂ hfields (hperm.mem_iff.2 hq)
  have hreaches : ReachesOperation ⟨options, spec⟩ path item e c := by
    cases hplace with
    | request hreaches => exact hreaches
  obtain ⟨s₁, c₁, d₁, c₂, word, t, hshared, hword, hdefinition, hbecomes, hend, ht, hname, hnumber,
    hrepeated⟩ := hfield.shared hspec (hreaches.shared hspec) href hp
  have hgrows := hreaches.grows_end hphases
  obtain rfl : given = word := by
    have hsome := hword (by simp [hgiven, Value.isEmpty, hne])
    rw [hgiven] at hsome
    exact Except.ok.inj hsome
  -- The type has been resolved, so it is still the same in the end.
  have hend' : ¬ c₀.graph.IsReference t := fun href =>
    hend (hgrows.nodes.isReference_of (hreaches.underway.closed.has_definition hdefinition) href)
  obtain rfl : f.type = t := ht.resolve_right hend'
  refine ⟨c.graph.size, m, f, hnode, hm, hf, hname, hnumber, hrepeated, s₁, c₁, d₁, c₂, hshared,
    fun hempty => ?_, ?_, hbecomes.imp_right hgrows.nodes.isReference, hend'⟩
  · cases hshared with
    | parameter _ _ hs _ =>
      obtain ⟨-, ⟨hsome, -⟩ | ⟨-, word, -, -, hproperty⟩⟩ := parameterSchema_cases hs
      · exact nomatch hempty.symm.trans hsome
      · exact ⟨_, hproperty⟩
  · have hfits := hshared.fits hphases
    rwa [← package_of_compileAll hrun] at hfits

/-- An operation with a reference to a shared parameter. -/
def pagedPets : Operation :=
  ⟨"/pets", [], .taking .get "listPets" [.reference "#/parameters/PageLimit"]⟩

/-- The shared parameter, and the operation. -/
def sharedLimits : Spec :=
  .ofOperation [("PageLimit", { Parameter.scalar "limit" "query" "integer" with tag := 3 })]
    pagedPets

theorem shared_parameter_field_sharedLimits : ∃ o request s c d c',
    compile ⟨false, false, false, false, "pet"⟩ sharedLimits = .ok o ∧ sharedLimits.SharesApart ∧
    Compiles ⟨⟨false, false, false, false, "pet"⟩, sharedLimits⟩
      (.request "/pets" (.single [] pagedPets.endpoint) pagedPets.endpoint) request s c d c' ∧
    NewRequest ⟨⟨false, false, false, false, "pet"⟩, sharedLimits⟩ pagedPets ∧
    ∃ id m f, d.unwrap = .node id ∧ o.graph.message? id = some m ∧ f ∈ m.fields ∧
      f.name = Name.snake "limit" ∧ f.number = 3 ∧ f.repeated = false := by
  obtain ⟨c₀, hrun, -⟩ := compileAll_of_compilesTo
    (show compilesTo ⟨false, false, false, false, "pet"⟩ sharedLimits (fun _ => true) = true by
      decide +kernel)
  have hcompile := compile_ok_iff.2 ⟨c₀, hrun, rfl⟩
  have hspec : sharedLimits.SharesApart := Spec.sharesApart_of_version .swagger2 rfl rfl
  obtain ⟨request, s, c, d, c', hplace⟩ := exists_compiles (compileAll_ok_iff.1 hrun).1
    (show Place.In _ (.request "/pets" (.single [] pagedPets.endpoint) pagedPets.endpoint) from
      ⟨rfl, List.mem_singleton.2 rfl, List.mem_singleton.2 rfl, rfl⟩)
  have hnew : NewRequest ⟨⟨false, false, false, false, "pet"⟩, sharedLimits⟩ pagedPets :=
    newRequest_of_only (by decide +kernel)
  obtain ⟨id, m, f, hnode, hm, hf, hname, hnumber, hrepeated, -⟩ :=
    (shared_parameter_field hcompile hspec).2 _ _ _ _ _ _ _ _ hplace hnew
      (.reference "#/parameters/PageLimit") (List.mem_singleton.2 rfl) "PageLimit"
      { Parameter.scalar "limit" "query" "integer" with tag := 3 } "limit" rfl rfl rfl (by decide)
  exact ⟨_, request, s, c, d, c', hcompile, hspec, hplace, hnew, id, m, f, hnode, hm, hf, hname,
    hnumber (by decide), hrepeated⟩

/-- An operation with a reference to a shared parameter that refers to another one in turn. -/
def limitAliases : Spec :=
  .ofOperation [("limit", { Parameter.scalar "limit" "query" "integer" with tag := 3 }),
      ("max", .reference "#/parameters/limit")]
    ⟨"/pets", [], .taking .get "listPets" [.reference "#/parameters/max"]⟩

/-- The field has neither the name nor the number of the parameter at the end of the references. -/
theorem not_dictated_limitAliases : ∃ o,
    compile ⟨false, false, false, false, "pet"⟩ limitAliases = .ok o ∧
    ∃ id m, .node id ∈ o.graph.children o.package ∧ o.graph.message? id = some m ∧
      m.name = "ListPetsRequest" ∧ m.fields.map (fun f => (f.name, f.number)) = [("int32", 1)] := by
  obtain ⟨c, hcompile, htest⟩ := compile_of_compilesTo
    (show compilesTo ⟨false, false, false, false, "pet"⟩ limitAliases
      (hasFields "ListPetsRequest" [("int32", 1)]) = true by decide +kernel)
  exact ⟨_, hcompile, exists_of_hasFields htest⟩

end ApiProto.Compile
