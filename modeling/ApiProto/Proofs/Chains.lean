import ApiProto.Error
import Mathlib.Data.List.Nodup
import Mathlib.Data.List.Perm.Subperm

/-!
# Chains of references

What is found at the place of a reference may be a reference again. A chain of references ends at
what is no reference, breaks off at a reference for which nothing is found, or comes back to one of
its own references and goes round from there.

* `Links` — what is found for references, and which of it are references again.
* `Links.refAt` — the references of a chain by their position.
* `Links.Repeats` — the first reference of a chain that has been there before.
* `Links.Circles` — how a chain goes on that comes back to one of its references.
* `Links.Follows` — how a chain is followed by one who remembers its references.
* `Links.Follows.eq_ok_iff`, `Links.Follows.eq_error_iff` — what is found in the end.
-/

namespace ApiProto

/-- What is found for references, and which of the things found are references again. -/
structure Links (α : Type) where
  find : String → Except Error α
  reference? : α → Option String

namespace Links

variable {α : Type} {l : Links α} {circular : String → Error} {seen refs : List String}
  {ref next last last' r r' : String} {a : α} {e : Error} {result : Except Error α} {i j k : Nat}

/-- The reference after a reference. -/
def next? (l : Links α) (ref : String) : Option String := (l.find ref).toOption.bind l.reference?

/-- The references of the chain from a reference. -/
def refAt (l : Links α) (ref : String) : Nat → Option String
  | 0 => some ref
  | k + 1 => (l.refAt ref k).bind l.next?

theorem next?_of_ok (h : l.find ref = .ok a) : l.next? ref = l.reference? a := by
  rw [next?, h]
  rfl

theorem next?_of_error (h : l.find ref = .error e) : l.next? ref = none := by
  rw [next?, h]
  rfl

/-- Where a chain goes on, something is found. -/
theorem exists_find_of_next? (h : l.next? ref = some next) : ∃ a, l.find ref = .ok a := by
  rcases hfind : l.find ref with e | a
  · cases (next?_of_error hfind).symm.trans h
  · exact ⟨a, rfl⟩

/-! ## References by position -/

theorem refAt_succ_of_next? (h : l.next? ref = some next) (k : Nat) :
    l.refAt ref (k + 1) = l.refAt next k := by
  induction k with
  | zero => exact h
  | succ k ih => rw [refAt, ih, refAt]

/-- A chain has references up to each of its references. -/
theorem refAt_isSome_of_le (h : l.refAt ref k = some r) (hle : j ≤ k) :
    (l.refAt ref j).isSome = true := by
  induction k generalizing r with
  | zero =>
    obtain rfl := Nat.le_zero.1 hle
    rfl
  | succ k ih =>
    rcases Nat.le_succ_iff.1 hle with hle | rfl
    · obtain ⟨r', hr', -⟩ := Option.bind_eq_some_iff.1 h
      exact ih hr' hle
    · rw [h]
      rfl

theorem next?_isSome_of_lt (h : l.refAt ref k = some r) (hlt : j < k)
    (hj : l.refAt ref j = some r') : (l.next? r').isSome = true := by
  have hsome := refAt_isSome_of_le h hlt
  rwa [refAt, hj, Option.bind_some] at hsome

/-- After equal references a chain goes on alike. -/
theorem refAt_add_eq (h : l.refAt ref j = l.refAt ref k) (i : Nat) :
    l.refAt ref (j + i) = l.refAt ref (k + i) := by
  induction i with
  | zero => exact h
  | succ i ih =>
    show (l.refAt ref (j + i)).bind l.next? = (l.refAt ref (k + i)).bind l.next?
    rw [ih]

/-- A chain in which a reference comes again has no end. -/
theorem endless_of_repeated (hlt : j < k) (hj : l.refAt ref j = some r)
    (hk : l.refAt ref k = some r) (i : Nat) : (l.refAt ref i).isSome = true := by
  induction i using Nat.strongRecOn with
  | ind i ih =>
    by_cases hi : i ≤ k
    · exact refAt_isSome_of_le hk hi
    · -- the place `i` is as far behind `k` as an earlier one is behind `j`
      obtain ⟨m, rfl⟩ := Nat.exists_eq_add_of_le (Nat.le_of_not_le hi)
      have hearlier := ih (j + m) (by omega)
      rwa [refAt_add_eq (hj.trans hk.symm) m] at hearlier

theorem not_endless (h : l.refAt ref k = some last) (hlast : l.next? last = none) :
    ¬ ∀ i, (l.refAt ref i).isSome = true := by
  intro hendless
  have hnext := hendless (k + 1)
  rw [refAt, h, Option.bind_some, hlast] at hnext
  cases hnext

/-- The references up to the last one are different. -/
theorem ne_of_last (h : l.refAt ref k = some last) (hlast : l.next? last = none) (hi : i ≤ k)
    (hj : j < i) : l.refAt ref j ≠ l.refAt ref i := by
  intro heq
  obtain ⟨r, hr⟩ := Option.isSome_iff_exists.1 (refAt_isSome_of_le h hi)
  exact not_endless h hlast (endless_of_repeated hj (heq.trans hr) hr)

/-- A chain has one last reference. -/
theorem last_unique (h : l.refAt ref k = some last) (hlast : l.next? last = none)
    (h' : l.refAt ref j = some last') (hlast' : l.next? last' = none) : last = last' := by
  rcases Nat.lt_trichotomy k j with hlt | rfl | hlt
  · have hsome := next?_isSome_of_lt h' hlt h
    rw [hlast] at hsome
    cases hsome
  · exact Option.some.inj (h.symm.trans h')
  · have hsome := next?_isSome_of_lt h hlt h'
    rw [hlast'] at hsome
    cases hsome

/-- A part of a chain without repetition is not longer than a list of all its references. -/
theorem le_length_of_distinct (hrefs : ∀ i < k, ∃ r ∈ refs, l.refAt ref i = some r)
    (hdistinct : ∀ i < k, ∀ j < i, l.refAt ref j ≠ l.refAt ref i) : k ≤ refs.length := by
  have hnodup : ((List.range k).map (l.refAt ref)).Nodup := by
    refine List.Nodup.map_on (fun i hi j hj heq => ?_) List.nodup_range
    rcases Nat.lt_trichotomy i j with hlt | rfl | hlt
    · exact absurd heq (hdistinct j (List.mem_range.1 hj) i hlt)
    · rfl
    · exact absurd heq.symm (hdistinct i (List.mem_range.1 hi) j hlt)
  have hsubset : (List.range k).map (l.refAt ref) ⊆ refs.map some := by
    intro found hfound
    obtain ⟨i, hi, rfl⟩ := List.mem_map.1 hfound
    obtain ⟨r, hr, href⟩ := hrefs i (List.mem_range.1 hi)
    rw [href]
    exact List.mem_map_of_mem hr
  simpa using (hnodup.subperm hsubset).length_le

/-! ## References that come again -/

/-- The reference at `k` is the first one that has been there before, in the chain or among those
in `seen`. -/
structure Repeats (l : Links α) (seen : List String) (ref : String) (k : Nat) (r : String) :
    Prop where
  here : l.refAt ref k = some r
  before : r ∈ seen ∨ ∃ j < k, l.refAt ref j = some r
  first : ∀ i < k, ∀ r', l.refAt ref i = some r' → r' ∉ seen ∧ ∀ j < i, l.refAt ref j ≠ some r'

theorem Repeats.exists_before (h : l.Repeats [] ref k r) : ∃ j < k, l.refAt ref j = some r :=
  h.before.resolve_left nofun

theorem Repeats.endless (h : l.Repeats [] ref k r) (i : Nat) : (l.refAt ref i).isSome = true := by
  obtain ⟨j, hj, hr⟩ := h.exists_before
  exact endless_of_repeated hj hr h.here i

/-- Before the first repetition all references are different. -/
theorem Repeats.ne (h : l.Repeats [] ref k r) (hi : i < k) (hj : j < i) :
    l.refAt ref j ≠ l.refAt ref i := by
  intro heq
  obtain ⟨r', hr'⟩ := Option.isSome_iff_exists.1 (h.endless i)
  exact (h.first i hi r' hr').2 j hj (heq.trans hr')

/-- There is one first reference that comes again. -/
theorem Repeats.unique (h : l.Repeats [] ref k r) (h' : l.Repeats [] ref j r') : r = r' := by
  obtain ⟨i, hi, hr⟩ := h.exists_before
  obtain ⟨i', hi', hr'⟩ := h'.exists_before
  rcases Nat.lt_trichotomy k j with hlt | rfl | hlt
  · exact absurd hr ((h'.first k hlt r h.here).2 i hi)
  · exact Option.some.inj (h.here.symm.trans h'.here)
  · exact absurd hr' ((h.first j hlt r' h'.here).2 i' hi')

theorem repeats_iff : l.Repeats [] ref k r ↔ l.refAt ref k = some r ∧
    (∃ j < k, l.refAt ref j = some r) ∧
      ∀ i < k, ∀ j < i, l.refAt ref j ≠ l.refAt ref i := by
  constructor
  · intro h
    exact ⟨h.here, h.exists_before, fun i hi j hj => h.ne hi hj⟩
  · rintro ⟨hhere, hbefore, hdistinct⟩
    exact ⟨hhere, .inr hbefore, fun i hi r' hr' =>
      ⟨nofun, fun j hj heq => hdistinct i hi j hj (heq.trans hr'.symm)⟩⟩

/-- After `tail` references a chain goes round in a circle of `length` references. -/
structure Circles (l : Links α) (ref : String) (tail length : Nat) : Prop where
  pos : 0 < length
  isSome : (l.refAt ref tail).isSome = true
  distinct : ∀ k < tail + length, ∀ j < k, l.refAt ref j ≠ l.refAt ref k
  round : ∀ i, l.refAt ref (tail + length + i) = l.refAt ref (tail + i)

/-- The first reference that comes again is the one where the circle begins. -/
theorem repeats_iff_circles : l.Repeats [] ref k r ↔
    ∃ tail length, tail + length = k ∧ l.Circles ref tail length ∧ l.refAt ref tail = some r := by
  constructor
  · intro h
    obtain ⟨tail, hlt, hr⟩ := h.exists_before
    obtain ⟨length, rfl⟩ := Nat.exists_eq_add_of_le (Nat.le_of_lt hlt)
    have hround := refAt_add_eq (h.here.trans hr.symm)
    exact ⟨tail, length, rfl, ⟨by omega, h.endless tail, fun i hi j hj => h.ne hi hj, hround⟩, hr⟩
  · rintro ⟨tail, length, rfl, ⟨hpos, -, hdistinct, hround⟩, hr⟩
    exact repeats_iff.2 ⟨(hround 0).trans hr, ⟨tail, by omega, hr⟩, hdistinct⟩

/-! ## Following chains -/

/-- A chain is followed from a reference, when the references in `seen` have been followed before.
It is given up at a reference that has been there, with an error that names it. -/
inductive Follows (l : Links α) (circular : String → Error) :
    List String → String → Except Error α → Prop
  | again {seen : List String} {ref : String} :
      ref ∈ seen → Follows l circular seen ref (.error (circular ref))
  | broken {seen : List String} {ref : String} {e : Error} :
      ref ∉ seen → l.find ref = .error e → Follows l circular seen ref (.error e)
  | done {seen : List String} {ref : String} {a : α} :
      ref ∉ seen → l.find ref = .ok a → l.reference? a = none →
      Follows l circular seen ref (.ok a)
  | next {seen : List String} {ref next : String} {a : α} {result : Except Error α} :
      ref ∉ seen → l.find ref = .ok a → l.reference? a = some next →
      Follows l circular (ref :: seen) next result → Follows l circular seen ref result

/-- Following a chain gives what is found at its last reference, or tells the first reference that
comes again. -/
theorem Follows.ends (h : l.Follows circular seen ref result) :
    (∃ k last, l.refAt ref k = some last ∧ l.next? last = none ∧ result = l.find last) ∨
      ∃ k r, l.Repeats seen ref k r ∧ result = .error (circular r) := by
  induction h with
  | again hmem => exact .inr ⟨0, _, ⟨rfl, .inl hmem, nofun⟩, rfl⟩
  | broken _ hfind => exact .inl ⟨0, _, rfl, next?_of_error hfind, hfind.symm⟩
  | done _ hfind hlast => exact .inl ⟨0, _, rfl, (next?_of_ok hfind).trans hlast, hfind.symm⟩
  | @next seen ref next a result hnew hfind href _ ih =>
    have hnext : l.next? ref = some next := (next?_of_ok hfind).trans href
    have hshift : ∀ k, l.refAt ref (k + 1) = l.refAt next k := refAt_succ_of_next? hnext
    rcases ih with ⟨k, last, hk, hlast, hresult⟩ | ⟨k, r, ⟨hhere, hbefore, hfirst⟩, hresult⟩
    · exact .inl ⟨k + 1, last, (hshift k).trans hk, hlast, hresult⟩
    · refine .inr ⟨k + 1, r, ⟨(hshift k).trans hhere, ?_, ?_⟩, hresult⟩
      · rcases hbefore with hmem | ⟨j, hj, hr⟩
        · rcases List.mem_cons.1 hmem with rfl | hmem
          · exact .inr ⟨0, Nat.succ_pos k, rfl⟩
          · exact .inl hmem
        · exact .inr ⟨j + 1, Nat.succ_lt_succ hj, (hshift j).trans hr⟩
      · intro i hi r' hr'
        cases i with
        | zero =>
          obtain rfl := Option.some.inj hr'
          exact ⟨hnew, nofun⟩
        | succ i =>
          obtain ⟨hfresh, hothers⟩ := hfirst i (Nat.lt_of_succ_lt_succ hi) r' ((hshift i).symm.trans hr')
          refine ⟨fun hmem => hfresh (List.mem_cons_of_mem _ hmem), fun j hj heq => ?_⟩
          cases j with
          | zero =>
            obtain rfl := Option.some.inj heq
            exact hfresh (List.mem_cons_self ..)
          | succ j => exact hothers j (Nat.lt_of_succ_lt_succ hj) ((hshift j).symm.trans heq)

theorem Follows.eq_find (h : l.Follows circular [] ref result) (hk : l.refAt ref k = some last)
    (hlast : l.next? last = none) : result = l.find last := by
  rcases h.ends with ⟨j, last', hj, hlast', hresult⟩ | ⟨_, _, hrepeats, -⟩
  · rw [hresult, last_unique hk hlast hj hlast']
  · exact absurd hrepeats.endless (not_endless hk hlast)

theorem Follows.eq_circular (h : l.Follows circular [] ref result)
    (hrepeats : l.Repeats [] ref k r) : result = .error (circular r) := by
  rcases h.ends with ⟨_, _, hj, hlast, -⟩ | ⟨_, _, hrepeats', hresult⟩
  · exact absurd hrepeats.endless (not_endless hj hlast)
  · rw [hresult, hrepeats.unique hrepeats']

/-- A chain that can be followed has no end exactly if some reference of it comes again. -/
theorem Follows.endless_iff (h : l.Follows circular [] ref result) :
    (∀ i, (l.refAt ref i).isSome = true) ↔ ∃ k r, l.Repeats [] ref k r := by
  constructor
  · intro hendless
    rcases h.ends with ⟨_, _, hj, hlast, -⟩ | ⟨k, r, hrepeats, -⟩
    · exact absurd hendless (not_endless hj hlast)
    · exact ⟨k, r, hrepeats⟩
  · rintro ⟨k, r, hrepeats⟩
    exact hrepeats.endless

/-- What is found is the first thing on the chain that is no reference. -/
theorem Follows.eq_ok_iff (h : l.Follows circular [] ref result) : result = .ok a ↔
    ∃ k last, l.refAt ref k = some last ∧ l.find last = .ok a ∧ l.reference? a = none := by
  constructor
  · intro hok
    rcases h.ends with ⟨k, last, hk, hlast, hresult⟩ | ⟨_, _, -, hresult⟩
    · have hfind := hresult.symm.trans hok
      exact ⟨k, last, hk, hfind, (next?_of_ok hfind).symm.trans hlast⟩
    · cases hok.symm.trans hresult
  · rintro ⟨k, last, hk, hfind, hnone⟩
    exact (h.eq_find hk ((next?_of_ok hfind).trans hnone)).trans hfind

/-- A chain is given up where nothing is found, or at the first reference that comes again. -/
theorem Follows.eq_error_iff (h : l.Follows circular [] ref result) : result = .error e ↔
    (∃ k last, l.refAt ref k = some last ∧ l.find last = .error e) ∨
      ∃ k r, l.Repeats [] ref k r ∧ e = circular r := by
  constructor
  · intro herror
    rcases h.ends with ⟨k, last, hk, -, hresult⟩ | ⟨k, r, hrepeats, hresult⟩
    · exact .inl ⟨k, last, hk, hresult.symm.trans herror⟩
    · exact .inr ⟨k, r, hrepeats, Except.error.inj (herror.symm.trans hresult)⟩
  · rintro (⟨k, last, hk, hfind⟩ | ⟨k, r, hrepeats, rfl⟩)
    · exact (h.eq_find hk (next?_of_error hfind)).trans hfind
    · exact h.eq_circular hrepeats

end Links

end ApiProto
