import ApiProto.Proofs.Growth
import ApiProto.Proofs.Literals
import Mathlib.Data.List.Nodup
import Mathlib.Data.List.Perm.Subperm
import Mathlib.Data.Nat.Find

/-!
# Names of shared list wrappers

A shared list wrapper takes the first of its candidates that is free. A name is taken if a named
schema or a shared parameter will have it, whether it has been compiled or not, if it is reserved,
or if a type of that name is declared in the package. All candidates are different and finitely many
names are taken, so that the search comes to an end.

* `Compilation.IsFree`, `Compilation.takenNames` — the names that are free, and the others.
* `wrapperCandidate_injective` — all candidates are different.
* `exists_free_candidate` — among as many candidates as names are taken, and one more, one is free.
* `Searches` — the search, which goes on from candidate to candidate without a bound.
* `listWrapperName_first` — the name is the first free candidate.
-/

namespace ApiProto.Compile

open Proto Document

variable {spec : Spec} {c : Compilation} {free : String → Prop} {base name : String} {j k : Nat}

/-! ## Names that are taken -/

/-- A name that denotes nothing in the package and that nothing in the description will get. -/
structure Compilation.IsFree (c : Compilation) (spec : Spec) (name : String) : Prop where
  definitions : ∀ s ∈ spec.definitions, Name.pascal s.1 ≠ name
  parameters : ∀ p ∈ spec.parameters, Name.pascal p.1 ≠ name
  builtins : ∀ b ∈ reservedTypes, b.1 ≠ name
  declared : ∀ id ∈ c.registry.declaredIn c.package, c.graph.typeName (.node id) ≠ name

/-- The names that are not free. -/
def Compilation.takenNames (c : Compilation) (spec : Spec) : List String :=
  reservedNames spec ++ (reservedTypes.map Prod.fst ++
    (c.registry.declaredIn c.package).map fun id => c.graph.typeName (.node id))

theorem Compilation.isFree_iff_not_mem : c.IsFree spec name ↔ name ∉ c.takenNames spec := by
  simp only [takenNames, reservedNames, List.mem_append, List.mem_map, not_or, not_exists, not_and]
  constructor
  · intro h
    exact ⟨⟨h.definitions, h.parameters⟩, h.builtins, h.declared⟩
  · rintro ⟨⟨hdefinitions, hparameters⟩, hbuiltins, hdeclared⟩
    exact ⟨hdefinitions, hparameters, hbuiltins, hdeclared⟩

theorem Registry.lookup_eq_none_iff {g : Graph} {r : Registry} {container : Nat} :
    r.lookup g name [container] = none ↔ name ∉ reservedTypes.map Prod.fst ∧
      name ∉ (r.declaredIn container).map fun id => g.typeName (.node id) := by
  have hbuiltins : reservedTypes.lookup name = none ↔ name ∉ reservedTypes.map Prod.fst := by
    simp only [List.lookup_eq_none_iff, List.mem_map, not_exists, not_and, bne_iff_ne, ne_comm]
  unfold Registry.lookup
  rw [← hbuiltins]
  split
  · next b hb => simp [hb]
  · next hb => simp [hb, List.find?_eq_none]

/-- A name is free exactly if it is not kept back and does not denote a type of the package. -/
theorem Compilation.isFree_iff : c.IsFree spec name ↔ name ∉ reservedNames spec ∧
    c.registry.lookup c.graph name [c.package] = none := by
  rw [isFree_iff_not_mem, takenNames, List.mem_append, List.mem_append, not_or, not_or,
    Registry.lookup_eq_none_iff]

/-! ## Candidates -/

theorem wrapperCandidate_ne_of_lt (base : String) (h : j < k) :
    wrapperCandidate base j ≠ wrapperCandidate base k := by
  intro heq
  match j, k with
  | 0, 1 => exact absurd ((String.append_right_inj base).1 heq) (by decide)
  | 0, n + 2 =>
    -- the first candidate is shorter than all that have a number
    simp only [wrapperCandidate, String.append_assoc, String.append_right_inj] at heq
    have hlength := congrArg String.length heq
    have hlist : "List".length = 4 := by decide
    have hword : "ListWrapper".length = 11 := by decide
    rw [String.length_append] at hlength
    omega
  | 1, n + 2 =>
    have hempty : base ++ "ListWrapper" ++ "" = base ++ "ListWrapper" ++ toString (n + 2) := by
      rw [String.append_empty]
      exact heq
    have hdigits := (String.append_right_inj _).1 hempty
    rw [Nat.toString_eq_ofList_toDigits] at hdigits
    exact Nat.toDigits_ne_nil (String.ofList_inj.1 (hdigits.symm.trans rfl))
  | m + 2, n + 2 =>
    have hnumber := natural_injective ((String.append_right_inj _).1 heq)
    omega

theorem wrapperCandidate_injective (base : String) :
    Function.Injective (wrapperCandidate base) := by
  intro i j h
  rcases Nat.lt_trichotomy i j with hlt | heq | hlt
  · exact absurd h (wrapperCandidate_ne_of_lt base hlt)
  · exact heq
  · exact absurd h.symm (wrapperCandidate_ne_of_lt base hlt)

/-- Among as many candidates as names are taken, and one more, there is a free one. -/
theorem exists_free_candidate (c : Compilation) (spec : Spec) (base : String) :
    ∃ k ≤ (c.takenNames spec).length, c.IsFree spec (wrapperCandidate base k) := by
  by_contra hnone
  have hsubset : (List.range ((c.takenNames spec).length + 1)).map (wrapperCandidate base) ⊆
      c.takenNames spec := by
    intro name hname
    obtain ⟨k, hk, rfl⟩ := List.mem_map.1 hname
    have hle : k ≤ (c.takenNames spec).length := Nat.lt_succ_iff.1 (List.mem_range.1 hk)
    by_contra hfree
    exact hnone ⟨k, hle, Compilation.isFree_iff_not_mem.2 hfree⟩
  have hnodup := List.nodup_range (n := (c.takenNames spec).length + 1)
    |>.map (wrapperCandidate_injective base)
  have hlength := (hnodup.subperm hsubset).length_le
  rw [List.length_map, List.length_range] at hlength
  omega

/-- There is a first free candidate, with at most as many before it as names are taken. -/
theorem exists_first_candidate (c : Compilation) (spec : Spec) (base : String) :
    ∃ k ≤ (c.takenNames spec).length, c.IsFree spec (wrapperCandidate base k) ∧
      ∀ j < k, ¬ c.IsFree spec (wrapperCandidate base j) := by
  classical
  obtain ⟨m, hm, hfree⟩ := exists_free_candidate c spec base
  have hexists : ∃ k, c.IsFree spec (wrapperCandidate base k) := ⟨m, hfree⟩
  exact ⟨Nat.find hexists, Nat.le_trans (Nat.find_le hfree) hm, Nat.find_spec hexists,
    fun j hj => Nat.find_min hexists hj⟩

/-! ## The search -/

/-- The search for a free name, with the candidate at hand and the number of the next one: a
candidate that is not free gives way to the next one. -/
inductive Searches (free : String → Prop) (base : String) : String → Nat → String → Prop
  | found {candidate : String} {number : Nat} : free candidate →
      Searches free base candidate number candidate
  | next {candidate name : String} {number : Nat} : ¬ free candidate →
      Searches free base
        (base ++ "ListWrapper" ++ (if 1 < number then toString number else "")) (number + 1) name →
      Searches free base candidate number name

theorem wrapperCandidate_succ (base : String) (k : Nat) : wrapperCandidate base (k + 1) =
    base ++ "ListWrapper" ++ (if 1 < k + 1 then toString (k + 1) else "") := by
  cases k with
  | zero => simp [wrapperCandidate]
  | succ k => simp [wrapperCandidate]

/-- From each candidate before it, the search comes to the first free one. -/
theorem searches_of_first (hfree : free (wrapperCandidate base k))
    (hfirst : ∀ j < k, ¬ free (wrapperCandidate base j)) (hj : j ≤ k) :
    Searches free base (wrapperCandidate base j) (j + 1) (wrapperCandidate base k) := by
  obtain ⟨left, rfl⟩ := Nat.exists_eq_add_of_le hj
  induction left generalizing j with
  | zero => exact .found hfree
  | succ left ih =>
    refine .next (hfirst j (by omega)) ?_
    rw [← wrapperCandidate_succ]
    have hshift : j + 1 + left = j + (left + 1) := by omega
    have hrest := ih (j := j + 1) (by rwa [hshift]) (by rwa [hshift]) (by omega)
    rwa [hshift] at hrest

/-- The bounded search finds the first free candidate. -/
theorem listWrapperName_of_first (hfree : c.IsFree spec (wrapperCandidate base k))
    (hfirst : ∀ j < k, ¬ c.IsFree spec (wrapperCandidate base j))
    (hk : k ≤ (c.takenNames spec).length) :
    listWrapperName spec c base = wrapperCandidate base k := by
  have hdecide : ∀ name, ((!(reservedNames spec).contains name &&
      (c.registry.lookup c.graph name [c.package]).isNone) = true) ↔ c.IsFree spec name := by
    intro name
    simp [Compilation.isFree_iff]
  have htries : (c.takenNames spec).length ≤ (reservedNames spec).length + reservedTypes.length +
      c.registry.log.length := by
    have hdeclared : (c.registry.declaredIn c.package).length ≤ c.registry.log.length :=
      List.length_filterMap_le ..
    simp only [Compilation.takenNames, List.length_append, List.length_map]
    omega
  unfold listWrapperName
  dsimp only
  rw [List.find?_map, List.find?_range_eq_some.2 ⟨(hdecide _).2 hfree, ?_, ?_⟩]
  · rfl
  · rw [List.mem_range]
    omega
  · intro j hj
    rw [Bool.not_eq_true']
    exact Bool.eq_false_iff.2 fun h => hfirst j hj ((hdecide _).1 h)

/-- The name of a shared list wrapper is free: there is always a candidate left. -/
theorem listWrapperName_free (spec : Spec) (c : Compilation) (base : String) :
    listWrapperName spec c base ∉ reservedNames spec ∧
      c.registry.lookup c.graph (listWrapperName spec c base) [c.package] = none := by
  obtain ⟨k, hk, hfree, hfirst⟩ := exists_first_candidate c spec base
  rw [listWrapperName_of_first hfree hfirst hk]
  exact Compilation.isFree_iff.1 hfree

/-- The search for the name of a shared list wrapper ends, with at most one step for each name that
is taken, at the first candidate that is free. -/
theorem listWrapperName_first (spec : Spec) (c : Compilation) (base : String) :
    Searches (c.IsFree spec) base (base ++ "List") 1 (listWrapperName spec c base) ∧
    ∃ k ≤ (c.takenNames spec).length, listWrapperName spec c base = wrapperCandidate base k ∧
      c.IsFree spec (wrapperCandidate base k) ∧
      ∀ j < k, ¬ c.IsFree spec (wrapperCandidate base j) := by
  obtain ⟨k, hk, hfree, hfirst⟩ := exists_first_candidate c spec base
  have hname := listWrapperName_of_first hfree hfirst hk
  refine ⟨?_, k, hk, hname, hfree, hfirst⟩
  rw [hname]
  exact searches_of_first hfree hfirst (Nat.zero_le k)

end ApiProto.Compile
