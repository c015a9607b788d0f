import ApiProto.Proofs.SharedParameters
import ApiProto.Value.Equality

/-!
# Merged parameters

An operation has the parameters of its path and its own. One of its own stands in for that of the
path with the same name and the same location; both are those of the parameter at the end of the
references to shared parameters. The request is made by the keys of parameters instead, so parameters
are lost where one key stands for several of them, and doubled where one of them has several keys.

* `Parameter.followed`, `Parameter.identity` — the name and the location of a parameter;
  `followed_end` says that all references have been followed.
* `Operation.merged` — the parameters of an operation.
* `Operation.KeysTell` — keys tell the parameters of an operation apart as names and locations do.
* `fields_of_merged` — the fields of the requests of a package.
-/

namespace ApiProto.Document

open Compile (sharedParameter?)

theorem sharedParameter?_eq_some {spec : Spec} {q p : Parameter} :
    sharedParameter? spec q = some p ↔
      ∃ name, q.ref = .text (spec.parametersPrefix ++ name) ∧ spec.parameters.lookup name = some p := by
  constructor
  · intro h
    obtain ⟨ref, href, h⟩ := Option.bind_eq_some_iff.1 h
    obtain ⟨name, hname, hp⟩ := Option.bind_eq_some_iff.1 h
    refine ⟨name, ?_, hp⟩
    rw [← Text.eq_append_of_stringAfter? hname]
    cases hq : q.ref <;> simp_all [Value.text?]
  · rintro ⟨name, href, hp⟩
    simp [sharedParameter?, href, Value.text?, Text.stringAfter?_append, hp]

/-! ## Names and locations -/

/-- The parameter that comes out when at most `n` references to shared parameters are followed. -/
def Parameter.followed (spec : Spec) : Nat → Parameter → Parameter
  | 0, q => q
  | n + 1, q => ((sharedParameter? spec q).map (followed spec n)).getD q

/-- The name and the location of the parameter at the end of references to shared parameters. -/
def Parameter.identity (spec : Spec) (q : Parameter) : Value × Value :=
  let target := q.followed spec spec.parameters.length
  (target.name, target.location)

section Following

variable {spec : Spec}

theorem Parameter.followed_of_none {q : Parameter} (h : sharedParameter? spec q = none) (n : Nat) :
    q.followed spec n = q := by
  cases n with
  | zero => rfl
  | succ n => simp [followed, h]

theorem Parameter.followed_succ {q p : Parameter} (h : sharedParameter? spec q = some p) (n : Nat) :
    q.followed spec (n + 1) = p.followed spec n := by
  simp [followed, h]

/-- The names of shared parameters that come before a given one. -/
def Spec.earlierParameters (spec : Spec) (name : String) : List String :=
  (spec.parameters.map Prod.fst).filter (· < name)

/-- One of the names that come before a given one has fewer names before it. -/
theorem Spec.earlierParameters_lt {name target : String} (hlt : target < name)
    (hmem : target ∈ spec.parameters.map Prod.fst) :
    (spec.earlierParameters target).length < (spec.earlierParameters name).length := by
  have hsub : spec.earlierParameters target =
      (spec.earlierParameters name).filter (· < target) := by
    rw [earlierParameters, earlierParameters, List.filter_filter]
    refine List.filter_congr fun other _ => ?_
    by_cases h : other < target
    · simp [h, String.lt_trans h hlt]
    · simp [h]
  rw [hsub]
  refine List.length_filter_lt_length_iff_exists.2 ⟨target, ?_, ?_⟩
  · exact List.mem_filter.2 ⟨hmem, decide_eq_true hlt⟩
  · simp

/-- All references are followed if shared parameters only refer to those before them. -/
theorem followed_end
    (hdown : ∀ name target p, spec.parameters.lookup name = some p →
      p.ref = .text (spec.parametersPrefix ++ target) → target < name) (q : Parameter) :
    sharedParameter? spec (q.followed spec spec.parameters.length) = none := by
  -- The names before the one that is referred to get fewer with each step.
  have hsteps : ∀ n (q : Parameter), (∀ name p, q.ref = .text (spec.parametersPrefix ++ name) →
      spec.parameters.lookup name = some p → (spec.earlierParameters name).length < n) →
      sharedParameter? spec (q.followed spec n) = none := by
    intro n
    induction n with
    | zero =>
      intro q hq
      rcases hnext : sharedParameter? spec q with _ | p
      · exact hnext
      · obtain ⟨name, href, hp⟩ := sharedParameter?_eq_some.1 hnext
        exact absurd (hq name p href hp) (Nat.not_lt_zero _)
    | succ n ih =>
      intro q hq
      rcases hnext : sharedParameter? spec q with _ | p
      · rwa [Parameter.followed_of_none hnext]
      · obtain ⟨name, href, hp⟩ := sharedParameter?_eq_some.1 hnext
        rw [Parameter.followed_succ hnext]
        refine ih p fun target p' href' hp' => ?_
        have hfewer := Spec.earlierParameters_lt (hdown _ _ _ hp href')
          (Compile.isSome_lookup_iff.1 (Option.isSome_of_eq_some hp'))
        exact Nat.lt_of_lt_of_le hfewer (Nat.le_of_lt_succ (hq name p href hp))
  refine hsteps _ q fun name p _ hp => ?_
  have hmem : name ∈ spec.parameters.map Prod.fst :=
    Compile.isSome_lookup_iff.1 (Option.isSome_of_eq_some hp)
  have hfewer := List.length_filter_lt_length_iff_exists (p := fun other => decide (other < name)).2
    ⟨name, hmem, by simp⟩
  rwa [List.length_map] at hfewer

end Following

/-! ## The parameters of an operation -/

namespace Operation

variable (spec : Spec) (op : Operation)

/-- The parameters of an operation. One of its own stands in for that of the path with the same name
and the same location. -/
def merged : List Parameter :=
  (op.shared.filter fun q => ∀ own ∈ op.endpoint.parameters, own.identity spec ≠ q.identity spec) ++
    op.endpoint.parameters

/-- Keys tell the parameters of an operation apart as names and locations do. -/
structure KeysTell : Prop where
  shared : (op.shared.map Parameter.key?).Nodup
  own : (op.endpoint.parameters.map Parameter.key?).Nodup
  across : ∀ q ∈ op.shared, ∀ own ∈ op.endpoint.parameters,
    own.key? = q.key? ↔ own.identity spec = q.identity spec

instance : Decidable (op.KeysTell spec) :=
  decidable_of_iff ((op.shared.map Parameter.key?).Nodup ∧
      (op.endpoint.parameters.map Parameter.key?).Nodup ∧
      ∀ q ∈ op.shared, ∀ own ∈ op.endpoint.parameters,
        own.key? = q.key? ↔ own.identity spec = q.identity spec)
    ⟨fun ⟨hshared, hown, hacross⟩ => ⟨hshared, hown, hacross⟩,
      fun ⟨hshared, hown, hacross⟩ => ⟨hshared, hown, hacross⟩⟩

variable {spec op}

/-- Where keys tell parameters apart, the last ones of each key are those of the operation. -/
theorem KeysTell.lastsBy_parameters (h : op.KeysTell spec) :
    lastsBy Parameter.key? op.parameters = op.merged spec := by
  unfold parameters merged
  rw [lastsBy_append, lastsBy_eq_self _ h.shared, lastsBy_eq_self _ h.own]
  congr 1
  refine List.filter_congr fun q hq => decide_eq_decide.2 ?_
  rw [List.mem_map, not_exists]
  refine forall_congr' fun own => ?_
  rw [not_and]
  exact forall_congr' fun hown => not_congr (h.across q hq own hown)

end Operation

end ApiProto.Document

namespace ApiProto.Compile

open Proto Document

/-- The parameter at the end of references to shared parameters refers to none, in a description
that compiles. -/
theorem followed_end_of_compile {options : Options} {spec : Spec} {o : Output}
    (h : compile options spec = .ok o) (hspec : spec.SharesApart) (q : Parameter) :
    sharedParameter? spec (q.followed spec spec.parameters.length) = none := by
  obtain ⟨c, hrun, -⟩ := compile_ok_iff.1 h
  exact followed_end (fun name target p hp href =>
    alias_lt ⟨options, spec⟩ hspec (compileAll_ok_iff.1 hrun).1 hp href) q

/-! ## The fields of requests -/

/-- The request of a procedure has exactly one field for each of some parameters. -/
def HasFieldsOf (env : Environment) (g : Graph) (op : Operation) (parameters : List Parameter)
    (rpc : Rpc TypeRef) : Prop :=
  ∃ item c l, op.shared = item.parameters ∧ ReachesOperation env op.path item op.endpoint c ∧
    l.Perm parameters ∧ List.Forall₂ (IsFieldOf env g c) l (fieldsOf g rpc.parameter)

/-- The new requests of a package have exactly one field for each key of the parameters, for the last
one of that key. These are the parameters of the operation if keys tell them apart as names and
locations do. -/
theorem fields_of_merged {options : Options} {spec : Spec} {o : Output}
    (h : compile options spec = .ok o) (hskip : options.skipRpcs = false) :
    ∃ s, o.service? = some s ∧ List.Forall₂ (fun op rpc => NewRequest ⟨options, spec⟩ op →
        HasFieldsOf ⟨options, spec⟩ o.graph op (lastsBy Parameter.key? op.parameters) rpc ∧
        (op.KeysTell spec → HasFieldsOf ⟨options, spec⟩ o.graph op (op.merged spec) rpc))
      (firstsBy Operation.name? spec.operations) s.rpcs := by
  obtain ⟨s, hs, hrpcs⟩ := exists_service h hskip
  obtain ⟨c, hrun, rfl⟩ := compile_ok_iff.1 h
  refine ⟨s, hs, hrpcs.imp fun op rpc hgives hnew => ?_⟩
  have hfields : HasFieldsOf ⟨options, spec⟩ c.graph op (lastsBy Parameter.key? op.parameters) rpc :=
    hgives.request_fields (compileAll_ok_iff.1 hrun).1 hnew
  exact ⟨hfields, fun htell => htell.lastsBy_parameters ▸ hfields⟩

/-- An operation with a parameter of its own in place of one of the path, and a shared one. -/
def petLogs : Operation :=
  ⟨"/pets/\x7bpetId\x7d", [.scalar "petId" "path" "string"],
    .taking .get "listLogs" [.scalar "petId" "path" "integer", .reference "#/parameters/PageLimit"]⟩

/-- Descriptions with one shared parameter, for the limit of a page. -/
def withLimit (op : Operation) : Spec :=
  .ofOperation [("PageLimit", { Parameter.scalar "limit" "query" "integer" with tag := 3 })] op

theorem fields_of_merged_petLogs : ∃ o rpc,
    compile ⟨false, false, false, false, "pet"⟩ (withLimit petLogs) = .ok o ∧
    NewRequest ⟨⟨false, false, false, false, "pet"⟩, withLimit petLogs⟩ petLogs ∧
    petLogs.KeysTell (withLimit petLogs) ∧
    HasFieldsOf ⟨⟨false, false, false, false, "pet"⟩, withLimit petLogs⟩ o.graph petLogs
      petLogs.endpoint.parameters rpc := by
  obtain ⟨c, hcompile, -⟩ := compile_of_compilesTo
    (show compilesTo ⟨false, false, false, false, "pet"⟩ (withLimit petLogs) (fun _ => true) = true by
      decide +kernel)
  have hnew : NewRequest ⟨⟨false, false, false, false, "pet"⟩, withLimit petLogs⟩ petLogs :=
    newRequest_of_only (by decide +kernel)
  have htell : petLogs.KeysTell (withLimit petLogs) := by decide +kernel
  have hmerged : petLogs.merged (withLimit petLogs) = petLogs.endpoint.parameters := rfl
  obtain ⟨s, -, hrpcs⟩ := fields_of_merged hcompile rfl
  have hops : firstsBy Operation.name? (withLimit petLogs).operations = [petLogs] := rfl
  rw [hops] at hrpcs
  obtain ⟨rpc, -, hfields, -, -⟩ := List.forall₂_cons_left_iff.1 hrpcs
  exact ⟨_, rpc, hcompile, hnew, htell, hmerged ▸ (hfields hnew).2 htell⟩

/-- An operation with a shared parameter in place of one of the path. -/
def doubledLimit : Operation :=
  ⟨"/pets", [.scalar "limit" "query" "integer"],
    .taking .get "listPets" [.reference "#/parameters/PageLimit"]⟩

/-- An operation with parameters of one name at two locations. -/
def lostId : Operation :=
  ⟨"/pets/\x7bid\x7d", [],
    .taking .get "findPets" [.scalar "id" "path" "integer", .scalar "id" "query" "string"]⟩

/-- There are two fields for one parameter, and one field for two parameters. -/
theorem not_one_for_each :
    ((doubledLimit.merged (withLimit doubledLimit)).length = 1 ∧
      ∃ o, compile ⟨false, false, false, false, "pet"⟩ (withLimit doubledLimit) = .ok o ∧
        ∃ id m, .node id ∈ o.graph.children o.package ∧ o.graph.message? id = some m ∧
          m.name = "ListPetsRequest" ∧
          m.fields.map (fun f => (f.name, f.number)) = [("limit", 1), ("limit", 3)]) ∧
    (lostId.merged (withLimit lostId)).length = 2 ∧
      ∃ o, compile ⟨false, false, false, false, "pet"⟩ (withLimit lostId) = .ok o ∧
        ∃ id m, .node id ∈ o.graph.children o.package ∧ o.graph.message? id = some m ∧
          m.name = "FindPetsRequest" ∧
          m.fields.map (fun f => (f.name, f.number)) = [("id", 1)] := by
  obtain ⟨c, hdoubled, htwice⟩ := compile_of_compilesTo
    (show compilesTo ⟨false, false, false, false, "pet"⟩ (withLimit doubledLimit)
      (hasFields "ListPetsRequest" [("limit", 1), ("limit", 3)]) = true by decide +kernel)
  obtain ⟨c', hlost, honce⟩ := compile_of_compilesTo
    (show compilesTo ⟨false, false, false, false, "pet"⟩ (withLimit lostId)
      (hasFields "FindPetsRequest" [("id", 1)]) = true by decide +kernel)
  exact ⟨⟨by decide +kernel, _, hdoubled, exists_of_hasFields htwice⟩, by decide +kernel, _, hlost,
    exists_of_hasFields honce⟩

end ApiProto.Compile
