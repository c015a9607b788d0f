import ApiProto.Document.LocalReference
import ApiProto.Proofs.Chains
import ApiProto.Proofs.FiniteTargets

/-!
# Chains of references inside a document

A node that stands for another place of its document leads to the node there, which may again stand
for another one. Following such a chain ends: all references but the first are written in the
document, and no reference is followed twice.

* `Follows` — how a chain is followed, without a bound on the steps.
* `localRefs`, `follows_dereference` — the references of a document bound the steps.
* `chain` — the nodes of a chain by their position.
* `links`, `Follows.links` — chains as chains of references.
* `dereference_ends_chain` — what is found at the end, and when there is no end.
-/

namespace ApiProto.Document

variable {doc node next v w : Value} {ref start : String} {seen refs : List String}
  {result : Except Error Value} {e : Error} {i j k steps : Nat}

/-! ## Following references -/

/-- A chain is followed from a node, when the references in `seen` have been followed before. -/
inductive Follows [Libraries] (doc : Value) : List String → Value → Except Error Value → Prop
  | done {seen : List String} {node : Value} : localRef? node = none →
      Follows doc seen node (.ok node)
  | again {seen : List String} {node : Value} {ref : String} : localRef? node = some ref →
      ref ∈ seen → Follows doc seen node (.error (circularReference ref))
  | broken {seen : List String} {node : Value} {ref : String} {e : Error} :
      localRef? node = some ref → ref ∉ seen → target doc ref = .error e →
      Follows doc seen node (.error e)
  | next {seen : List String} {node next : Value} {ref : String} {result : Except Error Value} :
      localRef? node = some ref → ref ∉ seen → target doc ref = .ok next →
      Follows doc (ref :: seen) next result → Follows doc seen node result

/-! ## The references of a document -/

mutual

/-- The references inside a value for which objects of it stand. -/
def localRefs : Value → List String
  | .list items => localRefsOfItems items
  | .object entries => (localRef? (.object entries)).toList ++ localRefsOfEntries entries
  | _ => []

/-- The references inside the items of a list. -/
def localRefsOfItems : List Value → List String
  | [] => []
  | v :: rest => localRefs v ++ localRefsOfItems rest

/-- The references inside the values of an object. -/
def localRefsOfEntries : List (String × Value) → List String
  | [] => []
  | (_, v) :: rest => localRefs v ++ localRefsOfEntries rest

end

mutual

/-- Every object stands for at most one reference. -/
theorem length_localRefs : ∀ v : Value, (localRefs v).length ≤ v.objectCount
  | .list items => by
    rw [localRefs, Value.objectCount]
    exact length_localRefsOfItems items
  | .object entries => by
    have hentries := length_localRefsOfEntries entries
    have hown : (localRef? (.object entries)).toList.length ≤ 1 := by
      cases localRef? (.object entries) <;> simp
    rw [localRefs, Value.objectCount, List.length_append]
    omega
  | .null | .bool _ | .int _ | .float _ | .text _ | .date _ | .timestamp _ | .bytes _
  | .pastEnd _ => Nat.zero_le _

theorem length_localRefsOfItems : ∀ items : List Value,
    (localRefsOfItems items).length ≤ Value.objectCountList items
  | [] => Nat.le_refl _
  | v :: rest => by
    rw [localRefsOfItems, Value.objectCountList, List.length_append]
    exact Nat.add_le_add (length_localRefs v) (length_localRefsOfItems rest)

theorem length_localRefsOfEntries : ∀ entries : List (String × Value),
    (localRefsOfEntries entries).length ≤ Value.objectCountEntries entries
  | [] => Nat.le_refl _
  | (_, v) :: rest => by
    rw [localRefsOfEntries, Value.objectCountEntries, List.length_append]
    exact Nat.add_le_add (length_localRefs v) (length_localRefsOfEntries rest)

end

theorem localRefs_subset_of_mem {items : List Value} (h : v ∈ items) :
    localRefs v ⊆ localRefsOfItems items := by
  induction items with
  | nil => cases h
  | cons item rest ih =>
    rcases List.mem_cons.1 h with rfl | h
    · exact List.subset_append_left ..
    · exact List.Subset.trans (ih h) (List.subset_append_right ..)

theorem localRefs_subset_of_lookup {entries : List (String × Value)} {key : String}
    (h : entries.lookup key = some v) : localRefs v ⊆ localRefsOfEntries entries := by
  induction entries with
  | nil => cases h
  | cons entry rest ih =>
    obtain ⟨k, value⟩ := entry
    rw [List.lookup_cons] at h
    split at h
    · cases h
      exact List.subset_append_left ..
    · exact List.Subset.trans (ih h) (List.subset_append_right ..)

theorem localRefs_subset_of_below (h : v.Below w) : localRefs w ⊆ localRefs v := by
  cases h with
  | entry hlookup =>
    rw [localRefs]
    exact List.Subset.trans (localRefs_subset_of_lookup hlookup) (List.subset_append_right ..)
  | item hmem =>
    rw [localRefs]
    exact localRefs_subset_of_mem hmem
  | character => exact List.nil_subset _
  | byte => exact List.nil_subset _

theorem localRefs_subset_of_contains (h : v.Contains w) : localRefs w ⊆ localRefs v := by
  induction h with
  | self v => exact List.Subset.refl _
  | inner hbelow _ ih => exact List.Subset.trans ih (localRefs_subset_of_below hbelow)
  | pastEnd v => exact List.nil_subset _

theorem mem_localRefs (h : localRef? v = some ref) : ref ∈ localRefs v := by
  cases v with
  | object entries =>
    rw [localRefs, h]
    exact List.mem_append_left _ (List.mem_singleton.2 rfl)
  | _ => cases h

/-- The references that a chain from a node can have. -/
def refsFrom (doc node : Value) : List String := (localRef? node).toList ++ localRefs doc

theorem length_refsFrom (doc node : Value) :
    (refsFrom doc node).length ≤ doc.objectCount + 1 := by
  have hdoc := length_localRefs doc
  have hown : (localRef? node).toList.length ≤ 1 := by cases localRef? node <;> simp
  rw [refsFrom, List.length_append]
  omega

theorem mem_refsFrom (h : localRef? node = some ref) : ref ∈ refsFrom doc node := by
  simp [refsFrom, h]

section Looking

variable [Libraries]

/-- What a reference leads to is in the document. -/
theorem contains_of_target (h : target doc ref = .ok v) : doc.Contains v := by
  unfold target at h
  split at h
  · next hfound => exact Except.ok.inj h ▸ Libraries.contains_of_lookUp hfound
  all_goals cases h

/-- What a reference leads to stands for a reference of the document, if for any. -/
theorem mem_localRefs_of_target {ref' : String} (h : target doc ref = .ok next)
    (hnext : localRef? next = some ref') : ref' ∈ localRefs doc :=
  localRefs_subset_of_contains (contains_of_target h) (mem_localRefs hnext)

/-! ## Bounded steps -/

/-- Steps for all references that have not been followed are enough: no reference is followed again,
so those that have been followed leave room for others. -/
theorem follows_dereferenceWithin (hdoc : localRefs doc ⊆ refs)
    (hnode : ∀ ref, localRef? node = some ref → ref ∈ refs) (hseen : seen ⊆ refs)
    (hnodup : seen.Nodup) (hsteps : refs.length ≤ steps + seen.length) :
    Follows doc seen node (dereferenceWithin doc steps seen node) := by
  induction steps generalizing seen node with
  | zero =>
    rw [dereferenceWithin]
    split
    · next hnone => exact .done hnone
    · next ref href =>
      split
      · next h => exact .again href (List.contains_iff_mem.1 h)
      · next h =>
        -- All references have been followed, and so has this one.
        have hnew : ref ∉ seen := fun hmem => h (List.contains_iff_mem.2 hmem)
        have hroom : (ref :: seen).length ≤ refs.length :=
          ((List.nodup_cons.2 ⟨hnew, hnodup⟩).subperm
            (List.cons_subset.2 ⟨hnode ref href, hseen⟩)).length_le
        rw [List.length_cons] at hroom
        omega
  | succ steps ih =>
    rw [dereferenceWithin]
    split
    · next hnone => exact .done hnone
    · next ref href =>
      split
      · next h => exact .again href (List.contains_iff_mem.1 h)
      · next h =>
        have hnew : ref ∉ seen := fun hmem => h (List.contains_iff_mem.2 hmem)
        rcases htarget : target doc ref with e | next
        · exact .broken href hnew htarget
        · refine .next href hnew htarget (ih ?_ ?_ ?_ ?_)
          · exact fun ref' hnext => hdoc (mem_localRefs_of_target htarget hnext)
          · exact List.cons_subset.2 ⟨hnode ref href, hseen⟩
          · exact List.nodup_cons.2 ⟨hnew, hnodup⟩
          · rw [List.length_cons]
            omega

/-- Following references always ends, and the steps are enough to see the end. -/
theorem follows_dereference (doc node : Value) : Follows doc [] node (dereference doc node) :=
  follows_dereferenceWithin (List.subset_append_right ..) (fun _ href => mem_refsFrom href)
    (List.nil_subset _) List.nodup_nil (length_refsFrom doc node)

/-! ## Chains -/

/-- The node that a node stands for. -/
def follow (doc node : Value) : Option Value :=
  match localRef? node with
  | some ref => (target doc ref).toOption
  | none => none

/-- The nodes of the chain from a node. -/
def chain (doc node : Value) : Nat → Option Value
  | 0 => some node
  | k + 1 =>
    match follow doc node with
    | some next => chain doc next k
    | none => none

/-- The references of the chain from a node. -/
def chainRef (doc node : Value) (k : Nat) : Option String := (chain doc node k).bind localRef?

/-- The reference with index `k` is the first one that has been there before, in the chain or among
those in `seen`. -/
structure Repeats (doc : Value) (seen : List String) (node : Value) (k : Nat) (ref : String) :
    Prop where
  here : chainRef doc node k = some ref
  before : ref ∈ seen ∨ ∃ j < k, chainRef doc node j = some ref
  first : ∀ i < k, ∀ ref', chainRef doc node i = some ref' →
    ref' ∉ seen ∧ ∀ j < i, chainRef doc node j ≠ some ref'

/-! ## Chains by their references -/

/-- What is found in a document for the references of a chain. -/
def links (doc : Value) : Links Value := ⟨target doc, localRef?⟩

theorem chain_succ (doc node : Value) (k : Nat) :
    chain doc node (k + 1) = (chain doc node k).bind (follow doc) := by
  induction k generalizing node with
  | zero =>
    rw [chain, chain, Option.bind_some]
    cases follow doc node <;> rfl
  | succ k ih =>
    rw [chain, chain]
    cases follow doc node with
    | none => rfl
    | some next => exact ih next

/-- Each node of a chain but the first is what the reference before it leads to. -/
theorem chain_succ_eq (doc node : Value) (k : Nat) : chain doc node (k + 1) =
    (chainRef doc node k).bind fun ref => (target doc ref).toOption := by
  rw [chain_succ, chainRef, Option.bind_assoc]
  congr 1
  funext v
  rw [follow]
  cases localRef? v <;> rfl

/-- A chain with references starts at a node with a reference. -/
theorem exists_start (h : chainRef doc node k = some ref) : ∃ start, localRef? node = some start := by
  rcases hstart : localRef? node with _ | start
  · have hstop : follow doc node = none := by rw [follow, hstart]
    cases k with
    | zero => exact nomatch hstart.symm.trans h
    | succ k =>
      rw [chainRef, chain, hstop] at h
      cases h
  · exact ⟨start, rfl⟩

theorem chainRef_eq_refAt (hstart : localRef? node = some start) (k : Nat) :
    chainRef doc node k = (links doc).refAt start k := by
  induction k with
  | zero => exact hstart
  | succ k ih =>
    rw [chainRef, chain_succ_eq, ih, Option.bind_assoc]
    rfl

theorem repeats_iff_links (hstart : localRef? node = some start) :
    Repeats doc seen node k ref ↔ (links doc).Repeats seen start k ref := by
  have heq : ∀ i, chainRef doc node i = (links doc).refAt start i := chainRef_eq_refAt hstart
  constructor
  · rintro ⟨hhere, hbefore, hfirst⟩
    simp only [heq] at hhere hbefore hfirst
    exact ⟨hhere, hbefore, hfirst⟩
  · rintro ⟨hhere, hbefore, hfirst⟩
    simp only [← heq] at hhere hbefore hfirst
    exact ⟨hhere, hbefore, hfirst⟩

theorem repeats_iff : Repeats doc [] node k ref ↔ chainRef doc node k = some ref ∧
    (∃ j < k, chainRef doc node j = some ref) ∧
      ∀ i < k, ∀ j < i, chainRef doc node j ≠ chainRef doc node i := by
  rcases hstart : localRef? node with _ | start
  · have hnone : chainRef doc node k ≠ some ref := fun h =>
      nomatch hstart.symm.trans (exists_start h).choose_spec
    exact iff_of_false (fun h => hnone h.here) fun h => hnone h.1
  · simp only [repeats_iff_links hstart, Links.repeats_iff, chainRef_eq_refAt hstart]

theorem Repeats.endless (h : Repeats doc [] node k ref) (i : Nat) :
    (chainRef doc node i).isSome = true := by
  obtain ⟨start, hstart⟩ := exists_start h.here
  rw [chainRef_eq_refAt hstart]
  exact ((repeats_iff_links hstart).1 h).endless i

/-- A chain is followed by its references. -/
theorem Follows.links (h : Follows doc seen node result) (hstart : localRef? node = some start) :
    (links doc).Follows circularReference seen start result := by
  induction h generalizing start with
  | done hnone => cases hnone.symm.trans hstart
  | again href hmem =>
    obtain rfl := Option.some.inj (href.symm.trans hstart)
    exact .again hmem
  | broken href hnew htarget =>
    obtain rfl := Option.some.inj (href.symm.trans hstart)
    exact .broken hnew htarget
  | @next seen node next ref result href hnew htarget hrest ih =>
    obtain rfl := Option.some.inj (href.symm.trans hstart)
    rcases hnext : localRef? next with _ | ref'
    · cases hrest with
      | done _ => exact .done hnew htarget hnext
      | again href' _ | broken href' _ _ | next href' _ _ _ => cases hnext.symm.trans href'
    · exact .next hnew htarget hnext (ih hnext)

theorem dereference_of_none (hnone : localRef? node = none) : dereference doc node = .ok node := by
  rw [dereference, dereferenceWithin, hnone]

theorem links_follows_dereference (hstart : localRef? node = some start) :
    (links doc).Follows circularReference [] start (dereference doc node) :=
  (follows_dereference doc node).links hstart

theorem dereference_of_repeats (h : Repeats doc [] node k ref) :
    dereference doc node = .error (circularReference ref) := by
  obtain ⟨start, hstart⟩ := exists_start h.here
  exact (links_follows_dereference hstart).eq_circular ((repeats_iff_links hstart).1 h)

/-- In a chain without an end some reference comes again. -/
theorem exists_repeats (h : ∀ i, (chainRef doc node i).isSome = true) :
    ∃ k ref, Repeats doc [] node k ref := by
  obtain ⟨start, hstart⟩ := Option.isSome_iff_exists.1 (h 0)
  simp only [chainRef_eq_refAt hstart] at h
  obtain ⟨k, ref, hrepeats⟩ := (links_follows_dereference hstart).endless_iff.1 h
  exact ⟨k, ref, (repeats_iff_links hstart).2 hrepeats⟩

/-! ## The number of steps -/

theorem mem_refsFrom_of_chainRef (h : chainRef doc node k = some ref) :
    ref ∈ refsFrom doc node := by
  cases k with
  | zero => exact mem_refsFrom h
  | succ k =>
    rw [chainRef, chain_succ_eq, Option.bind_assoc] at h
    obtain ⟨ref', -, hnext⟩ := Option.bind_eq_some_iff.1 h
    obtain ⟨next, htarget, href⟩ := Option.bind_eq_some_iff.1 hnext
    rcases hfound : target doc ref' with e | v
    · rw [hfound] at htarget
      cases htarget
    · rw [hfound] at htarget
      obtain rfl := Option.some.inj htarget
      exact List.mem_append_right _ (mem_localRefs_of_target hfound href)

/-- A chain has no more different references than its document has objects, apart from that of the
node where it starts. -/
theorem le_of_distinct (hstart : localRef? node = some start)
    (hsome : ∀ i < k, ((links doc).refAt start i).isSome = true)
    (hdistinct : ∀ i < k, ∀ j < i, (links doc).refAt start j ≠ (links doc).refAt start i) :
    k ≤ doc.objectCount + 1 := by
  have hrefs : ∀ i < k, ∃ ref ∈ refsFrom doc node, (links doc).refAt start i = some ref := by
    intro i hi
    obtain ⟨ref, href⟩ := Option.isSome_iff_exists.1 (hsome i hi)
    exact ⟨ref, mem_refsFrom_of_chainRef ((chainRef_eq_refAt hstart i).trans href), href⟩
  exact Nat.le_trans (Links.le_length_of_distinct hrefs hdistinct) (length_refsFrom doc node)

theorem le_of_repeats (h : Repeats doc [] node k ref) : k ≤ doc.objectCount + 1 := by
  obtain ⟨start, hstart⟩ := exists_start h.here
  have hrepeats := (repeats_iff_links hstart).1 h
  exact le_of_distinct hstart (fun i _ => hrepeats.endless i) fun i hi j hj => hrepeats.ne hi hj

/-! ## What is found -/

/-- A reference is reported as unresolved exactly if there is nothing at its place. -/
theorem target_unresolved_iff : (∃ e ref', target doc ref = .error e ∧ e.cause = .unresolved ref') ↔
    Libraries.lookUp doc (ref.toList.drop 1) = .error .missing := by
  unfold target
  rcases Libraries.lookUp doc (ref.toList.drop 1) with (_ | _) | v
  · exact iff_of_true ⟨_, ref, rfl, rfl⟩ rfl
  · refine iff_of_false ?_ nofun
    rintro ⟨e, ref', heq, hcause⟩
    cases heq
    cases hcause
  · exact iff_of_false (fun ⟨_, _, heq, _⟩ => nomatch heq) nofun

/-- A value is found if it is the first node of the chain that stands for no other. -/
theorem dereference_eq_ok_iff : dereference doc node = .ok v ↔ ∃ k ≤ doc.objectCount + 1,
    chain doc node k = some v ∧ localRef? v = none ∧
      ∀ j < k, (chainRef doc node j).isSome = true := by
  rcases hstart : localRef? node with _ | start
  · rw [dereference_of_none hstart]
    constructor
    · intro h
      obtain rfl := Except.ok.inj h
      exact ⟨0, Nat.zero_le _, rfl, hstart, nofun⟩
    · rintro ⟨k, -, hv, -, hsome⟩
      cases k with
      | zero => rw [Option.some.inj hv]
      | succ k => exact nomatch (congrArg Option.isSome hstart).symm.trans (hsome 0 (Nat.succ_pos k))
  · rw [(links_follows_dereference hstart).eq_ok_iff]
    simp only [chainRef_eq_refAt hstart]
    constructor
    · rintro ⟨k, last, hk, hfind, hnone⟩
      have hlast := (Links.next?_of_ok hfind).trans hnone
      have hsome : ∀ j < k + 1, ((links doc).refAt start j).isSome = true := fun j hj =>
        Links.refAt_isSome_of_le hk (Nat.lt_succ_iff.1 hj)
      refine ⟨k + 1, le_of_distinct hstart hsome fun i hi j hj => ?_, ?_, hnone, hsome⟩
      · exact Links.ne_of_last hk hlast (Nat.lt_succ_iff.1 hi) hj
      · rw [chain_succ_eq, chainRef_eq_refAt hstart, hk, Option.bind_some]
        exact congrArg Except.toOption hfind
    · rintro ⟨k, -, hv, hnone, -⟩
      cases k with
      | zero =>
        obtain rfl := Option.some.inj hv
        cases hnone.symm.trans hstart
      | succ k =>
        rw [chain_succ_eq, chainRef_eq_refAt hstart] at hv
        obtain ⟨last, hk, htarget⟩ := Option.bind_eq_some_iff.1 hv
        refine ⟨k, last, hk, ?_, hnone⟩
        show target doc last = .ok v
        rcases hfound : target doc last with e | w
        · rw [hfound] at htarget
          cases htarget
        · rw [hfound] at htarget
          rw [Option.some.inj htarget]

/-- A chain is left at a place that cannot be looked up, or at a reference that comes again. -/
theorem dereference_eq_error_iff : dereference doc node = .error e ↔
    (∃ k ref, chainRef doc node k = some ref ∧ target doc ref = .error e) ∨
      ∃ k ref, Repeats doc [] node k ref ∧ e = circularReference ref := by
  rcases hstart : localRef? node with _ | start
  · have hnone : ∀ k ref, chainRef doc node k ≠ some ref := fun k ref h =>
      nomatch hstart.symm.trans (exists_start h).choose_spec
    rw [dereference_of_none hstart]
    refine iff_of_false nofun ?_
    rintro (⟨k, ref, hk, -⟩ | ⟨k, ref, hrepeats, -⟩)
    · exact hnone k ref hk
    · exact hnone k ref hrepeats.here
  · rw [(links_follows_dereference hstart).eq_error_iff]
    simp only [chainRef_eq_refAt hstart, repeats_iff_links hstart]
    rfl

/-- Following a chain ends. A value is found if it is the first node of the chain that stands for no
other. The chain is left with an error if a place cannot be looked up, or if it has no end; then the
error tells the first reference that comes again. A reference is reported as unresolved exactly if
there is nothing at its place or if the chain has no end. -/
theorem dereference_ends_chain (doc node : Value) :
    Follows doc [] node (dereference doc node) ∧
    (∀ v, dereference doc node = .ok v ↔ ∃ k ≤ doc.objectCount + 1,
      chain doc node k = some v ∧ localRef? v = none ∧
        ∀ j < k, (chainRef doc node j).isSome = true) ∧
    (∀ e, dereference doc node = .error e ↔
      (∃ k ref, chainRef doc node k = some ref ∧ target doc ref = .error e) ∨
      (∀ i, (chainRef doc node i).isSome = true) ∧ ∃ k ≤ doc.objectCount + 1, ∃ ref,
        chainRef doc node k = some ref ∧ (∃ j < k, chainRef doc node j = some ref) ∧
        (∀ i < k, ∀ j < i, chainRef doc node j ≠ chainRef doc node i) ∧
        e = ⟨["circular reference"], .unresolved ref⟩) ∧
    ((∃ e ref, dereference doc node = .error e ∧ e.cause = .unresolved ref) ↔
      (∃ k ref, chainRef doc node k = some ref ∧
        Libraries.lookUp doc (ref.toList.drop 1) = .error .missing) ∨
      ∀ i, (chainRef doc node i).isSome = true) := by
  refine ⟨follows_dereference doc node, fun v => dereference_eq_ok_iff, fun e => ?_, ?_, ?_⟩
  · rw [dereference_eq_error_iff]
    refine or_congr_right ⟨?_, ?_⟩
    · rintro ⟨k, ref, hrepeats, rfl⟩
      obtain ⟨hhere, hbefore, hdistinct⟩ := repeats_iff.1 hrepeats
      exact ⟨hrepeats.endless, k, le_of_repeats hrepeats, ref, hhere, hbefore, hdistinct, rfl⟩
    · rintro ⟨-, k, -, ref, hhere, hbefore, hdistinct, rfl⟩
      exact ⟨k, ref, repeats_iff.2 ⟨hhere, hbefore, hdistinct⟩, rfl⟩
  · rintro ⟨e, ref', herror, hcause⟩
    rcases dereference_eq_error_iff.1 herror with ⟨k, ref, hk, htarget⟩ | ⟨k, ref, hrepeats, -⟩
    · exact .inl ⟨k, ref, hk, target_unresolved_iff.1 ⟨e, ref', htarget, hcause⟩⟩
    · exact .inr hrepeats.endless
  · rintro (⟨k, ref, hk, hmissing⟩ | hendless)
    · obtain ⟨e, ref', htarget, hcause⟩ := target_unresolved_iff.2 hmissing
      exact ⟨e, ref', dereference_eq_error_iff.2 (.inl ⟨k, ref, hk, htarget⟩), hcause⟩
    · obtain ⟨k, ref, hrepeats⟩ := exists_repeats hendless
      exact ⟨_, ref, dereference_of_repeats hrepeats, rfl⟩

end Looking

/-- A document with a response under two names. -/
def namedResponses : Value := .object [
  ("responses", .object [
    ("NotFound", .object [("$ref", .text "#/responses/Missing")]),
    ("Missing", .object [("description", .text "Nothing is there.")])]),
  ("tags", .list [.text "pets"])]

/-- An object that stands for a reference. -/
def referring (ref : String) : Value := .object [("$ref", .text ref)]

/-- A chain is followed to its end, which may lie past the items of a list, and to a name that is
not there. -/
theorem dereference_ends_chain_namedResponses :
    dereference namedResponses (referring "#/responses/NotFound") =
      .ok (.object [("description", .text "Nothing is there.")]) ∧
    dereference namedResponses (referring "#/tags/-") = .ok (.pastEnd (.list [.text "pets"])) ∧
    ∃ e ref, dereference namedResponses (referring "#/responses/Gone") = .error e ∧
      e.cause = .unresolved ref := by
  refine ⟨?_, ?_, ?_⟩
  · exact ((dereference_ends_chain _ _).2.1 _).2
      ⟨2, by decide +kernel, rfl, rfl, by decide +kernel⟩
  · exact ((dereference_ends_chain _ _).2.1 _).2
      ⟨1, by decide +kernel, rfl, rfl, by decide +kernel⟩
  · exact (dereference_ends_chain _ _).2.2.2.2
      (.inl ⟨0, "#/responses/Gone", by decide +kernel, rfl⟩)

end ApiProto.Document
