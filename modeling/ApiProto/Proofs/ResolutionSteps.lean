import ApiProto.Compile.Package

/-!
# Links, visits and steps

One link of a chain of references, one visit of a walk through a graph, and one step of resolution
after another.

* `followFrom_of_ok` — a chain goes on from what its reference stands for.
* `follow_mem` — what a chain ends at.
* `danglingFrom_of_some` — a walk goes on from what a node mentions.
* `ResolveM.run_bind` — steps of resolution in sequence.
-/

namespace ApiProto.Proto

section Chains

variable {g : Graph} {targets : Targets} {start ref : String} {seen : List String}

theorem followFrom_of_mem (hs : seen.contains ref = true) :
    followFrom g targets start seen ref = .error (circularChain start ref) := by
  rw [followFrom, dif_pos hs]

theorem followFrom_of_error {e : Error} (hs : ¬ seen.contains ref = true)
    (ht : targets.resolve ref = .error e) : followFrom g targets start seen ref = .error e := by
  rw [followFrom, dif_neg hs]
  split
  · next h => exact congrArg Except.error (Except.error.inj (h.symm.trans ht))
  · next h => cases ht.symm.trans h

/-- A chain goes on from what its reference stands for. -/
theorem followFrom_of_ok {t : TypeRef} (hs : ¬ seen.contains ref = true)
    (ht : targets.resolve ref = .ok t) : followFrom g targets start seen ref =
      match g.reference? t with
      | some next => followFrom g targets start (ref :: seen) next
      | none => .ok t := by
  rw [followFrom, dif_neg hs]
  split
  · next h => cases ht.symm.trans h
  · next h =>
    cases ht.symm.trans h
    split
    · next hnext => rw [hnext]
    · next hlast => rw [hlast]

/-- What a chain ends at is what a reference stands for. -/
theorem exists_resolve_of_followFrom {t : TypeRef}
    (h : followFrom g targets start seen ref = .ok t) : ∃ ref, targets.resolve ref = .ok t := by
  fun_induction followFrom g targets start seen ref with
  | case1 => cases h
  | case2 => cases h
  | case3 _ ref _ t' ht next _ ih => exact ih h
  | case4 _ ref _ t' ht =>
    obtain rfl := Except.ok.inj h
    exact ⟨ref, ht⟩

/-- What a chain ends at is in the table. -/
theorem follow_mem {table : Definitions} {t : TypeRef} (h : follow g table ref = .ok t) :
    ∃ ref, (ref, t) ∈ table := by
  obtain ⟨last, hlast⟩ := exists_resolve_of_followFrom h
  obtain ⟨before, after, rfl, -⟩ :=
    List.lookup_eq_some_iff.1 (Targets.resolve_ofTable_eq_ok.1 hlast)
  exact ⟨last, by simp⟩

end Chains

/-- The reference that a node is, if it is one. -/
def Node.pending : Node → List String
  | .reference ref => [ref]
  | _ => []

section Walk

variable {g : Graph} {visited : List Nat} {id : Nat} {todo : List TypeRef}

theorem danglingFrom_of_mem (hv : id ∈ visited) :
    danglingFrom g visited (.node id :: todo) = danglingFrom g visited todo := by
  rw [danglingFrom, dif_pos (by simpa using hv)]

theorem danglingFrom_of_none (hv : id ∉ visited) (hn : g.node? id = none) :
    danglingFrom g visited (.node id :: todo) = danglingFrom g visited todo := by
  rw [danglingFrom, dif_neg (by simpa using hv)]
  split
  · rfl
  · next n hn' => simp [hn] at hn'

/-- A walk goes on from what a node mentions. -/
theorem danglingFrom_of_some {n : Node} (hv : id ∉ visited) (hn : g.node? id = some n) :
    danglingFrom g visited (.node id :: todo) =
      n.pending ++ danglingFrom g (id :: visited) (n.mentions ++ todo) := by
  rw [danglingFrom, dif_neg (by simpa using hv)]
  split
  · next hn' => simp [hn] at hn'
  · next n' hn' =>
    obtain rfl : n = n' := by simpa [hn] using hn'
    cases n <;> rfl

end Walk

/-- A step of resolution goes on where the one before has ended, unless that has failed. -/
theorem ResolveM.run_bind {α β : Type} (m : ResolveM α) (f : α → ResolveM β) (r : Resolution) :
    (m >>= f).run.run r = match (m.run.run r).1 with
      | .ok a => (f a).run.run (m.run.run r).2
      | .error e => (.error e, (m.run.run r).2) := by
  show (ExceptT.bindCont f (m.run.run r).1 (m.run.run r).2) = _
  rcases (m.run.run r).1 with e | a <;> rfl

end ApiProto.Proto
