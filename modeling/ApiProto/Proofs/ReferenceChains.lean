import ApiProto.Proofs.Chains
import ApiProto.Proofs.Splicing

/-!
# Chains of references in a graph

A reference stands for a type or for another reference, by a function that may also fail. If only
finitely many references stand for something, then a chain is followed in at most as many steps.

* `Lookup` — targets of finitely many references; `Lookup.ofTable`, those of a table of definitions.
* `follows_follow` — following a chain is what the function `follow` does.
* `mem_defined_of_next?` — where a chain goes on, its references are defined.
* `follow_ends_chain` — what is found at the end of a chain, and how it is given up.
-/

namespace ApiProto.Proto

/-- Targets of finitely many references: all others stand for errors. -/
structure Lookup extends Targets where
  /-- The references that stand for types are among these. -/
  defined : List String
  mem_defined : ∀ ref t, resolve ref = .ok t → ref ∈ defined

/-- The targets that a table of definitions gives. -/
def Lookup.ofTable (table : Definitions) : Lookup where
  toTargets := Targets.ofTable table
  defined := table.map Prod.fst
  mem_defined ref t h := by
    obtain ⟨before, after, rfl, -⟩ :=
      List.lookup_eq_some_iff.1 (Targets.resolve_ofTable_eq_ok.1 h)
    simp

variable {g : Graph} {l : Lookup} {start ref next last r : String} {k : Nat}

/-- What is found for references, if the references among the types of a graph are followed. -/
def Targets.links (targets : Targets) (g : Graph) : Links TypeRef :=
  ⟨targets.resolve, g.reference?⟩

theorem follows_followFrom (g : Graph) (targets : Targets) (start : String) (seen : List String)
    (ref : String) :
    (targets.links g).Follows (circularChain start) seen ref
      (followFrom g targets start seen ref) := by
  fun_induction followFrom g targets start seen ref with
  | case1 seen ref hs => exact .again (by simpa using hs)
  | case2 seen ref hs e he => exact .broken (by simpa using hs) he
  | case3 seen ref hs t ht next hnext ih => exact .next (by simpa using hs) ht hnext ih
  | case4 seen ref hs t ht hlast => exact .done (by simpa using hs) ht hlast

/-- Following a chain is what `follow` does. -/
theorem follows_follow (g : Graph) (targets : Targets) (start : String) :
    (targets.links g).Follows (circularChain start) [] start (follow g targets start) :=
  follows_followFrom g targets start [] start

/-! ## The number of steps -/

/-- Where a chain goes on, its references are defined. -/
theorem mem_defined_of_next? (h : ((l.links g).next? ref).isSome = true) : ref ∈ l.defined := by
  obtain ⟨next, hnext⟩ := Option.isSome_iff_exists.1 h
  obtain ⟨t, ht⟩ := Links.exists_find_of_next? hnext
  exact l.mem_defined ref t ht

theorem exists_defined_of_lt {i : Nat} (h : (l.links g).refAt start k = some r) (hlt : i < k) :
    ∃ ref ∈ l.defined, (l.links g).refAt start i = some ref := by
  obtain ⟨ref, href⟩ :=
    Option.isSome_iff_exists.1 (Links.refAt_isSome_of_le h (Nat.le_of_lt hlt))
  exact ⟨ref, mem_defined_of_next? (Links.next?_isSome_of_lt h hlt href), href⟩

/-- The last reference of a chain comes after defined ones only. -/
theorem le_defined_of_last (h : (l.links g).refAt start k = some last)
    (hlast : (l.links g).next? last = none) : k ≤ l.defined.length := by
  apply Links.le_length_of_distinct
  · intro i hi
    exact exists_defined_of_lt h hi
  · intro i hi j hj
    exact Links.ne_of_last h hlast (Nat.le_of_lt hi) hj

theorem le_defined_of_repeats (h : (l.links g).Repeats [] start k r) :
    k ≤ l.defined.length := by
  apply Links.le_length_of_distinct
  · intro i hi
    exact exists_defined_of_lt h.here hi
  · intro i hi j hj
    exact h.ne hi hj

/-! ## The end of a chain -/

/-- Following a chain ends after as many steps as there are defined references. A type is found if
it is the first one on the chain that is no reference. An error is that of the first reference on
the chain that stands for nothing; or the chain goes round in a circle after a tail, and then the
error is about the reference where the chain starts and names the first one that comes again, which
is that where the circle begins. A chain without an end goes round in a circle. -/
theorem follow_ends_chain (l : Lookup) (g : Graph) (start : String) :
    (∀ t, follow g l.toTargets start = .ok t ↔ ∃ k ≤ l.defined.length, ∃ ref,
      (l.links g).refAt start k = some ref ∧ l.resolve ref = .ok t ∧ ¬ g.IsReference t) ∧
    (∀ e, follow g l.toTargets start = .error e ↔
      (∃ k ≤ l.defined.length, ∃ ref,
        (l.links g).refAt start k = some ref ∧ l.resolve ref = .error e) ∨
      ∃ tail length ref, tail + length ≤ l.defined.length ∧
        (l.links g).Circles start tail length ∧ (l.links g).refAt start tail = some ref ∧
        e = ⟨["circular reference chain through " ++ ref], .unresolved start⟩) ∧
    ((∀ k, ((l.links g).refAt start k).isSome = true) ↔
      ∃ tail length, (l.links g).Circles start tail length) := by
  have hfollows := follows_follow g l.toTargets start
  refine ⟨fun t => ?_, fun e => ?_, ?_⟩
  · rw [hfollows.eq_ok_iff]
    constructor
    · rintro ⟨k, ref, hk, ht, hnone⟩
      have hlast := (Links.next?_of_ok ht).trans hnone
      exact ⟨k, le_defined_of_last hk hlast, ref, hk, ht, Graph.reference?_eq_none_iff.1 hnone⟩
    · rintro ⟨k, -, ref, hk, ht, hnone⟩
      exact ⟨k, ref, hk, ht, Graph.reference?_eq_none_iff.2 hnone⟩
  · rw [hfollows.eq_error_iff]
    apply or_congr
    · constructor
      · rintro ⟨k, ref, hk, he⟩
        exact ⟨k, le_defined_of_last hk (Links.next?_of_error he), ref, hk, he⟩
      · rintro ⟨k, -, ref, hk, he⟩
        exact ⟨k, ref, hk, he⟩
    · constructor
      · rintro ⟨k, ref, hrepeats, rfl⟩
        have hle := le_defined_of_repeats hrepeats
        obtain ⟨tail, length, rfl, hcircles, hr⟩ := Links.repeats_iff_circles.1 hrepeats
        exact ⟨tail, length, ref, hle, hcircles, hr, rfl⟩
      · rintro ⟨tail, length, ref, -, hcircles, hr, rfl⟩
        exact ⟨_, ref, Links.repeats_iff_circles.2 ⟨tail, length, rfl, hcircles, hr⟩, rfl⟩
  · rw [hfollows.endless_iff]
    constructor
    · rintro ⟨k, r, hrepeats⟩
      obtain ⟨tail, length, -, hcircles, -⟩ := Links.repeats_iff_circles.1 hrepeats
      exact ⟨tail, length, hcircles⟩
    · rintro ⟨tail, length, hcircles⟩
      obtain ⟨r, hr⟩ := Option.isSome_iff_exists.1 hcircles.isSome
      exact ⟨_, r, Links.repeats_iff_circles.2 ⟨tail, length, rfl, hcircles, hr⟩⟩

/-- Two references, which stand in a table of definitions. -/
def aliases : Graph := ((Graph.empty.add (.reference "#/definitions/Name")).1.add
  (.reference "#/definitions/Loop")).1

/-- A definition that stands for another one, and one that stands for itself. -/
def aliasTable : Definitions := [
  ("#/definitions/Alias", .node 0),
  ("#/definitions/Name", .builtin .string),
  ("#/definitions/Loop", .node 1)]

/-- In a table of definitions, chains come to a type, to a reference without a definition, or round in
a circle. -/
theorem follow_ends_chain_aliasTable :
    follow aliases aliasTable "#/definitions/Alias" = .ok (.builtin .string) ∧
    follow aliases aliasTable "#/definitions/Gone" =
      .error (.of (.unresolved "#/definitions/Gone")) ∧
    follow aliases aliasTable "#/definitions/Loop" =
      .error (circularChain "#/definitions/Loop" "#/definitions/Loop") := by
  refine ⟨?_, ?_, ?_⟩
  · refine ((follow_ends_chain (.ofTable aliasTable) aliases "#/definitions/Alias").1 _).2
      ⟨1, by decide, "#/definitions/Name", rfl, rfl, ?_⟩
    exact Graph.reference?_eq_none_iff.1 rfl
  · exact ((follow_ends_chain (.ofTable aliasTable) aliases "#/definitions/Gone").2.1 _).2
      (.inl ⟨0, by decide, "#/definitions/Gone", rfl, rfl⟩)
  · refine ((follow_ends_chain (.ofTable aliasTable) aliases "#/definitions/Loop").2.1 _).2
      (.inr ⟨0, 1, "#/definitions/Loop", by decide, ⟨by decide, rfl, ?_, ?_⟩, rfl, rfl⟩)
    · intro k hk j hj
      omega
    · have hback : ((Lookup.ofTable aliasTable).links aliases).refAt "#/definitions/Loop" 1 =
          ((Lookup.ofTable aliasTable).links aliases).refAt "#/definitions/Loop" 0 := rfl
      exact Links.refAt_add_eq hback

end ApiProto.Proto
