import ApiProto.Proofs.Tours

/-!
# Depth-first order

A path from types to a node is told by positions: that of a type among the given ones, and then
those of types among what the nodes on the way mention. Paths are compared from their beginning, and
a path comes before those that go on from it. A path is simple if it comes to no node twice.

A tour enters nodes in the order of their least simple paths. What lies behind a node is entered
before what stands after it, and nested declarations come before the types of fields.

* `Graph.SimplePath`, `Earlier`, `Graph.LeastPath` — simple paths, and the least one to a node.
* `Graph.Precedes` — the order of nodes by their least paths.
* `Graph.Tours.pairwise_precedes` — tours are in depth-first order.
* `dangling_lists_references` — the references left over are those that can be reached, each once,
  in this order.
-/

namespace ApiProto.Proto

variable {g : Graph} {package id k i j u v : Nat} {n n' : Node} {t : TypeRef}
  {types todo : List TypeRef} {avoid visited order path path' : List Nat}

/-! ## Paths -/

/-- A path from types to a node that comes to no node twice, and to none of `avoid`. -/
inductive Graph.SimplePath (g : Graph) : List Nat → List TypeRef → List Nat → Nat → Prop
  | here {avoid : List Nat} {types : List TypeRef} {i id : Nat} :
      types[i]? = some (.node id) → id ∉ avoid → g.SimplePath avoid types [i] id
  | through {avoid : List Nat} {types : List TypeRef} {i k : Nat} {n : Node} {path : List Nat}
      {id : Nat} : types[i]? = some (.node k) → k ∉ avoid → g.node? k = some n →
      g.SimplePath (k :: avoid) n.mentions path id → g.SimplePath avoid types (i :: path) id

/-- Paths are compared at the first position in which they differ. What goes on from a path comes
after it. -/
def Earlier (path path' : List Nat) : Prop := List.Lex (· < ·) path path'

/-- The least simple path to a node. -/
def Graph.LeastPath (g : Graph) (avoid : List Nat) (types : List TypeRef) (path : List Nat)
    (id : Nat) : Prop :=
  g.SimplePath avoid types path id ∧
    ∀ path', g.SimplePath avoid types path' id → ¬ Earlier path' path

/-- Of two nodes, the first one has the smaller least path. -/
def Graph.Precedes (g : Graph) (avoid : List Nat) (types : List TypeRef) (u v : Nat) : Prop :=
  ∃ path path', g.LeastPath avoid types path u ∧ g.LeastPath avoid types path' v ∧
    Earlier path path'

theorem earlier_cons_iff {rest rest' : List Nat} :
    Earlier (i :: rest) (j :: rest') ↔ i < j ∨ i = j ∧ Earlier rest rest' :=
  List.cons_lex_cons_iff

theorem Graph.SimplePath.not_mem_avoid (h : g.SimplePath avoid types path id) : id ∉ avoid := by
  induction h with
  | here _ hid => exact hid
  | through _ _ _ _ ih => exact fun hmem => ih (List.mem_cons_of_mem _ hmem)

theorem Graph.SimplePath.ne_nil (h : g.SimplePath avoid types path id) : path ≠ [] := by
  cases h <;> simp

/-- A path that does not begin at the first type is one from the others. -/
theorem Graph.simplePath_succ_iff : g.SimplePath avoid (t :: todo) ((i + 1) :: path) id ↔
    g.SimplePath avoid todo (i :: path) id := by
  constructor
  · intro h
    cases h with
    | here hi hid => exact .here hi hid
    | through hi hk hn hpath => exact .through hi hk hn hpath
  · intro h
    cases h with
    | here hi hid => exact .here (by simpa using hi) hid
    | through hi hk hn hpath => exact .through (by simpa using hi) hk hn hpath

/-! ## Least paths -/

/-- The least path to the first type itself. -/
theorem Graph.leastPath_here (hid : id ∉ avoid) : g.LeastPath avoid (.node id :: todo) [0] id := by
  refine ⟨.here rfl hid, fun path' hpath' hearlier => ?_⟩
  obtain ⟨i, rest, rfl⟩ := List.exists_cons_of_ne_nil hpath'.ne_nil
  rcases earlier_cons_iff.1 hearlier with hlt | ⟨-, hrest⟩
  · exact Nat.not_lt_zero _ hlt
  · exact List.not_lex_nil hrest

/-- The least paths to what the first type mentions go through it. -/
theorem Graph.LeastPath.through (h : g.LeastPath (k :: avoid) n.mentions path id)
    (hk : k ∉ avoid) (hn : g.node? k = some n) :
    g.LeastPath avoid (.node k :: todo) (0 :: path) id := by
  obtain ⟨hpath, hleast⟩ := h
  refine ⟨.through rfl hk hn hpath, fun path' hpath' hearlier => ?_⟩
  cases hpath' with
  | here hi _ =>
    rcases earlier_cons_iff.1 hearlier with hlt | ⟨rfl, -⟩
    · exact Nat.not_lt_zero _ hlt
    · obtain rfl := TypeRef.node.inj (Option.some.inj hi)
      exact hpath.not_mem_avoid (List.mem_cons_self ..)
  | through hi _ hn' hrest =>
    rcases earlier_cons_iff.1 hearlier with hlt | ⟨rfl, hbefore⟩
    · exact Nat.not_lt_zero _ hlt
    · obtain rfl := TypeRef.node.inj (Option.some.inj hi)
      obtain rfl := Option.some.inj (hn.symm.trans hn')
      exact hleast _ hrest hbefore

/-- A path from the types after the first one, told from all types. -/
def shift (path : List Nat) : List Nat := path.modifyHead (· + 1)

theorem earlier_succ_iff {rest rest' : List Nat} :
    Earlier ((i + 1) :: rest) ((j + 1) :: rest') ↔ Earlier (i :: rest) (j :: rest') := by
  rw [earlier_cons_iff, earlier_cons_iff, Nat.succ_lt_succ_iff, Nat.succ_inj]

theorem Earlier.shift (h : Earlier path path') (hne : path ≠ []) :
    Earlier (shift path) (shift path') := by
  obtain ⟨i, rest, rfl⟩ := List.exists_cons_of_ne_nil hne
  cases path' with
  | nil => exact absurd h List.not_lex_nil
  | cons j rest' => exact earlier_succ_iff.2 h

theorem zero_cons_earlier_shift (hne : path' ≠ []) : Earlier (0 :: path) (shift path') := by
  obtain ⟨i, rest, rfl⟩ := List.exists_cons_of_ne_nil hne
  exact earlier_cons_iff.2 (.inl (Nat.succ_pos i))

/-- Where no path begins at the first type, the least path is that from the others. -/
theorem Graph.LeastPath.later (h : g.LeastPath avoid todo path id)
    (hfirst : ∀ rest, ¬ g.SimplePath avoid (t :: todo) (0 :: rest) id) :
    g.LeastPath avoid (t :: todo) (shift path) id := by
  obtain ⟨hpath, hleast⟩ := h
  obtain ⟨i, rest, rfl⟩ := List.exists_cons_of_ne_nil hpath.ne_nil
  refine ⟨simplePath_succ_iff.2 hpath, fun path' hpath' hearlier => ?_⟩
  obtain ⟨j, rest', rfl⟩ := List.exists_cons_of_ne_nil hpath'.ne_nil
  cases j with
  | zero => exact hfirst rest' hpath'
  | succ j => exact hleast _ (simplePath_succ_iff.1 hpath') (earlier_succ_iff.1 hearlier)

/-! ## What has been left behind -/

/-- All that is mentioned by nodes entered before has been entered, but for nodes that the tour has
not left yet. -/
def Graph.Behind (g : Graph) (avoid visited : List Nat) : Prop :=
  ∀ k ∈ visited, k ∉ avoid → ∀ n, g.node? k = some n → ∀ j n', .node j ∈ n.mentions →
    g.node? j = some n' → j ∈ visited

/-- A simple path from what has been left behind stays there. -/
theorem Graph.Behind.mem_of_path {avoid' : List Nat} (h : g.Behind avoid visited)
    (hpath : g.SimplePath avoid' types path id) (hsubset : avoid ⊆ avoid')
    (htypes : ∀ j n', .node j ∈ types → g.node? j = some n' → j ∈ visited)
    (hn : g.node? id = some n) : id ∈ visited := by
  induction hpath with
  | here hi _ => exact htypes _ _ (List.mem_of_getElem? hi) hn
  | @through _ _ _ k m _ _ hi hk hm _ ih =>
    have hmem : k ∈ visited := htypes k m (List.mem_of_getElem? hi) hm
    have hleft : k ∉ avoid := fun hin => hk (hsubset hin)
    refine ih (fun x hx => List.mem_cons_of_mem _ (hsubset hx)) ?_ hn
    exact fun j n' hj hn' => h k hmem hleft m hm j n' hj hn'

/-- No simple path to a node not entered begins at a type that has been left behind. -/
theorem Graph.Behind.not_simplePath (h : g.Behind avoid visited) (hv : id ∉ visited)
    (hn : g.node? id = some n) (ht : ∀ k n', t = .node k → g.node? k = some n' → k ∈ visited)
    (rest : List Nat) : ¬ g.SimplePath avoid (t :: todo) (0 :: rest) id := by
  intro hpath
  have hfirst : g.SimplePath avoid [t] (0 :: rest) id := by
    cases hpath with
    | here hi hid => exact .here hi hid
    | through hi hk hm hrest => exact .through hi hk hm hrest
  refine hv (h.mem_of_path hfirst (List.Subset.refl _) (fun j n' hj hn' => ?_) hn)
  exact ht j n' (List.mem_singleton.1 hj).symm hn'

/-- When a node is entered, it is not left yet. -/
theorem Graph.Behind.enter (h : g.Behind avoid visited) : g.Behind (k :: avoid) (k :: visited) := by
  intro x hx hnot n hn j n' hj hn'
  rcases List.mem_cons.1 hx with rfl | hx
  · exact absurd (List.mem_cons_self ..) hnot
  · exact List.mem_cons_of_mem _
      (h x hx (fun hin => hnot (List.mem_cons_of_mem _ hin)) n hn j n' hj hn')

/-- When a node is left, all that lies behind it has been entered. -/
theorem Graph.Behind.leave {inner : List Nat} (h : g.Behind avoid visited) (hn : g.node? k = some n)
    (htour : g.Tours (k :: visited) n.mentions inner) :
    g.Behind avoid (inner.reverse ++ k :: visited) := by
  intro x hx hnot m hm j n' hj hn'
  have hentered : j ∈ k :: visited ∨ j ∈ inner := by
    simp only [List.mem_append, List.mem_reverse, List.mem_cons] at hx
    rcases hx with hx | rfl | hx
    · exact htour.covers_mentions hx hm hj hn'
    · obtain rfl := Option.some.inj (hn.symm.trans hm)
      exact htour.covers_todo hj hn'
    · exact .inl (List.mem_cons_of_mem _ (h x hx hnot m hm j n' hj hn'))
  rw [List.mem_append, List.mem_reverse]
  exact hentered.symm

/-! ## The order of a tour -/

/-- Nodes with their least paths, which become greater. -/
structure Graph.Sorted (g : Graph) (avoid : List Nat) (types : List TypeRef)
    (found : List (Nat × List Nat)) : Prop where
  least : ∀ e ∈ found, g.LeastPath avoid types e.2 e.1
  sorted : found.Pairwise fun e e' => Earlier e.2 e'.2

theorem Graph.Sorted.through {found : List (Nat × List Nat)}
    (h : g.Sorted (k :: avoid) n.mentions found) (hk : k ∉ avoid) (hn : g.node? k = some n) :
    g.Sorted avoid (.node k :: todo) (found.map fun e => (e.1, 0 :: e.2)) := by
  constructor
  · intro e he
    obtain ⟨e₀, he₀, rfl⟩ := List.mem_map.1 he
    exact (h.least e₀ he₀).through hk hn
  · rw [List.pairwise_map]
    exact h.sorted.imp fun hearlier => earlier_cons_iff.2 (.inr ⟨rfl, hearlier⟩)

theorem Graph.Sorted.later {found : List (Nat × List Nat)} (h : g.Sorted avoid todo found)
    (hfirst : ∀ e ∈ found, ∀ rest, ¬ g.SimplePath avoid (t :: todo) (0 :: rest) e.1) :
    g.Sorted avoid (t :: todo) (found.map fun e => (e.1, shift e.2)) := by
  constructor
  · intro e he
    obtain ⟨e₀, he₀, rfl⟩ := List.mem_map.1 he
    exact (h.least e₀ he₀).later (hfirst e₀ he₀)
  · rw [List.pairwise_map]
    apply h.sorted.imp_of_mem
    intro e e' he _ hearlier
    exact hearlier.shift (h.least e he).1.ne_nil

/-- A node comes first, then all that lies behind it, and at last what stands after it. -/
theorem Graph.Sorted.enter {inner later : List (Nat × List Nat)}
    (hinner : g.Sorted (k :: avoid) n.mentions inner) (hlater : g.Sorted avoid todo later)
    (hk : k ∉ avoid) (hn : g.node? k = some n)
    (hfirst : ∀ e ∈ later, ∀ rest, ¬ g.SimplePath avoid (.node k :: todo) (0 :: rest) e.1) :
    g.Sorted avoid (.node k :: todo) ((k, [0]) ::
      (inner.map (fun e => (e.1, 0 :: e.2)) ++ later.map fun e => (e.1, shift e.2))) := by
  have hthrough : g.Sorted avoid (.node k :: todo) _ := hinner.through hk hn
  have hshifted := hlater.later hfirst
  constructor
  · intro e he
    simp only [List.mem_cons, List.mem_append] at he
    rcases he with rfl | he | he
    · exact leastPath_here hk
    · exact hthrough.least e he
    · exact hshifted.least e he
  · have hbefore : ∀ path, ∀ e ∈ later.map fun e => (e.1, shift e.2),
        Earlier (0 :: path) e.2 := by
      intro path e he
      obtain ⟨e₀, he₀, rfl⟩ := List.mem_map.1 he
      exact zero_cons_earlier_shift (hlater.least e₀ he₀).1.ne_nil
    rw [List.pairwise_cons, List.pairwise_append]
    refine ⟨?_, hthrough.sorted, hshifted.sorted, ?_⟩
    · intro e he
      rcases List.mem_append.1 he with he | he
      · obtain ⟨e₀, he₀, rfl⟩ := List.mem_map.1 he
        obtain ⟨i, rest, hpath⟩ := List.exists_cons_of_ne_nil (hinner.least e₀ he₀).1.ne_nil
        rw [hpath]
        exact earlier_cons_iff.2 (.inr ⟨rfl, .nil⟩)
      · exact hbefore [] e he
    · intro e he e' he'
      obtain ⟨e₀, -, rfl⟩ := List.mem_map.1 he
      exact hbefore e₀.2 e' he'

/-- The nodes that a tour enters, with their least paths. -/
theorem Graph.Tours.exists_sorted (h : g.Tours visited todo order) (hsubset : avoid ⊆ visited)
    (hbehind : g.Behind avoid visited) :
    ∃ found, found.map Prod.fst = order ∧ g.Sorted avoid todo found := by
  induction h generalizing avoid with
  | done => exact ⟨[], rfl, nofun, .nil⟩
  | @pass visited order t todo hpass htour ih =>
    obtain ⟨found, rfl, hfound⟩ := ih hsubset hbehind
    refine ⟨_, ?_, hfound.later fun e he => ?_⟩
    · simp
    · have hid : e.1 ∈ found.map Prod.fst := List.mem_map_of_mem he
      obtain ⟨n, hn⟩ := htour.exists_node hid
      apply hbehind.not_simplePath (htour.not_mem_visited hid) hn
      intro k n' ht hn'
      exact (hpass k ht).resolve_right fun hnone => nomatch hnone.symm.trans hn'
  | @enter visited inner order k n todo hv hn hinner horder ihinner ihorder =>
    have hk : k ∉ avoid := fun hin => hv (hsubset hin)
    have hleft := hbehind.leave hn hinner
    have hsubset' : avoid ⊆ inner.reverse ++ k :: visited := fun x hx => by simp [hsubset hx]
    obtain ⟨foundᵢ, rfl, hfoundᵢ⟩ := ihinner (List.cons_subset_cons k hsubset) hbehind.enter
    obtain ⟨foundₒ, rfl, hfoundₒ⟩ := ihorder hsubset' hleft
    refine ⟨_, ?_, hfoundᵢ.enter hfoundₒ hk hn fun e he => ?_⟩
    · simp [Function.comp_def]
    · have hid : e.1 ∈ foundₒ.map Prod.fst := List.mem_map_of_mem he
      obtain ⟨m, hm⟩ := horder.exists_node hid
      apply hleft.not_simplePath (horder.not_mem_visited hid) hm
      intro k' n' ht _
      obtain rfl := TypeRef.node.inj ht
      simp

/-- A tour through all declarations of a package enters nodes in depth-first order. -/
theorem Graph.Tours.pairwise_precedes (h : g.Tours [] types order) :
    order.Pairwise (g.Precedes [] types) := by
  obtain ⟨found, rfl, hfound⟩ := h.exists_sorted (List.Subset.refl []) nofun
  rw [List.pairwise_map]
  apply hfound.sorted.imp_of_mem
  intro e e' he he' hearlier
  exact ⟨e.2, e'.2, hfound.least e he, hfound.least e' he', hearlier⟩

/-! ## The references left over -/

/-- The references left over in a package are those that a tour through its declarations enters. The
tour enters exactly the nodes that can be reached, each of them once, and in depth-first order. So
no reference is left over if and only if none can be reached. -/
theorem dangling_lists_references (g : Graph) (package : Nat) :
    (∃ order : List Nat, g.Tours [] (g.children package) order ∧ order.Nodup ∧
      (∀ id, id ∈ order ↔ g.Reachable package (.node id) ∧ ∃ n, g.node? id = some n) ∧
      order.Pairwise (g.Precedes [] (g.children package)) ∧
      dangling g package = order.filterMap fun id => g.reference? (.node id)) ∧
    (dangling g package = [] ↔ ∀ t, g.Reachable package t → ¬ g.IsReference t) := by
  obtain ⟨order, htour⟩ := exists_tours g [] (g.children package)
  refine ⟨⟨order, htour, htour.nodup, fun id => htour.mem_iff, htour.pairwise_precedes,
    dangling_of_tours htour⟩, dangling_eq_nil_iff⟩

end ApiProto.Proto
