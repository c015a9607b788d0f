import ApiProto.Proofs.Resolution

/-!
# Tours through a graph

The walk for the references left over keeps a list of what is still to be visited. A tour is the
same walk told by recursion: it enters a node, goes through all that the node mentions, and goes on
behind the node.

* `Graph.Reachable` — the types that can be reached from the declarations of a package.
* `Graph.Tours` — a tour through given types, and the nodes that it enters.
* `exists_tours` — there is a tour, also through types that mention one another.
* `danglingFrom_of_tours` — the walk finds the references that a tour enters.
* `Graph.Tours.nodup`, `Graph.Tours.mem_iff` — a tour enters each node that can be reached, once.
* `dangling_eq_nil_iff` — no reference is left over if and only if none can be reached.
-/

namespace ApiProto.Proto

variable {g : Graph} {package id k : Nat} {n n' : Node} {t : TypeRef} {todo : List TypeRef}
  {visited visited' order : List Nat}

/-- The types that can be reached from the declarations of a package. -/
inductive Graph.Reachable (g : Graph) (package : Nat) : TypeRef → Prop
  | child {t : TypeRef} : t ∈ g.children package → g.Reachable package t
  | mention {id : Nat} {n : Node} {t : TypeRef} : g.Reachable package (.node id) →
      g.node? id = some n → t ∈ n.mentions → g.Reachable package t

/-- A tour through types, when the nodes in `visited` have been entered before. The last list has
the nodes that it enters, in their order. -/
inductive Graph.Tours (g : Graph) : List Nat → List TypeRef → List Nat → Prop
  | done {visited : List Nat} : g.Tours visited [] []
  /-- There is nothing to enter, or it has been entered before. -/
  | pass {visited order : List Nat} {t : TypeRef} {todo : List TypeRef} :
      (∀ id, t = .node id → id ∈ visited ∨ g.node? id = none) →
      g.Tours visited todo order → g.Tours visited (t :: todo) order
  /-- A node is entered, and what it mentions comes before all else. -/
  | enter {visited inner order : List Nat} {id : Nat} {n : Node} {todo : List TypeRef} :
      id ∉ visited → g.node? id = some n → g.Tours (id :: visited) n.mentions inner →
      g.Tours (inner.reverse ++ id :: visited) todo order →
      g.Tours visited (.node id :: todo) (id :: (inner ++ order))

/-! ## The walk as a tour -/

theorem unvisited_le (h : visited ⊆ visited') : unvisited g visited' ≤ unvisited g visited := by
  unfold unvisited
  simp only [← List.countP_eq_length_filter]
  apply List.countP_mono_left
  intro id _ hid
  simp at hid ⊢
  exact fun hmem => hid (h hmem)

/-- There is a tour through any types. -/
theorem exists_tours (g : Graph) (visited : List Nat) (todo : List TypeRef) :
    ∃ order, g.Tours visited todo order := by
  match todo with
  | [] => exact ⟨[], .done⟩
  | t :: todo =>
    by_cases hpass : ∀ id, t = .node id → id ∈ visited ∨ g.node? id = none
    · obtain ⟨order, h⟩ := exists_tours g visited todo
      exact ⟨order, .pass hpass h⟩
    · simp only [Classical.not_forall, not_or] at hpass
      obtain ⟨id, rfl, hv, hnone⟩ := hpass
      obtain ⟨n, hn⟩ := Option.ne_none_iff_exists'.1 hnone
      have hfewer : unvisited g (id :: visited) < unvisited g visited :=
        unvisited_cons_lt (by simpa using hv) hn
      obtain ⟨inner, hinner⟩ := exists_tours g (id :: visited) n.mentions
      have hless : unvisited g (inner.reverse ++ id :: visited) < unvisited g visited :=
        Nat.lt_of_le_of_lt (unvisited_le (List.subset_append_right ..)) hfewer
      obtain ⟨order, horder⟩ := exists_tours g (inner.reverse ++ id :: visited) todo
      exact ⟨id :: (inner ++ order), .enter hv hn hinner horder⟩
termination_by (unvisited g visited, todo.length)
decreasing_by
  · exact Prod.Lex.right _ (by simp)
  · exact Prod.Lex.left _ _ hfewer
  · exact Prod.Lex.left _ _ hless

theorem Node.pending_eq (hn : g.node? id = some n) :
    n.pending = (g.reference? (.node id)).toList := by
  rw [Graph.reference?, hn]
  cases n <;> rfl

/-- The walk finds the references that a tour enters, before it goes on. -/
theorem danglingFrom_of_tours (h : g.Tours visited todo order) (rest : List TypeRef) :
    danglingFrom g visited (todo ++ rest) =
      order.filterMap (fun id => g.reference? (.node id)) ++
        danglingFrom g (order.reverse ++ visited) rest := by
  induction h generalizing rest with
  | done => rfl
  | @pass visited order t todo hpass _ ih =>
    rw [← ih rest, List.cons_append]
    cases t with
    | builtin b => rw [danglingFrom]
    | node id =>
      by_cases hv : id ∈ visited
      · exact danglingFrom_of_mem hv
      · exact danglingFrom_of_none hv ((hpass id rfl).resolve_left hv)
  | @enter visited inner order id n todo hv hn _ _ ihinner ihorder =>
    rw [List.cons_append, danglingFrom_of_some hv hn, ihinner (todo ++ rest), ihorder rest,
      Node.pending_eq hn]
    cases href : g.reference? (.node id) <;> simp [href]

/-- The references left over in a package are those that a tour through its declarations enters. -/
theorem dangling_of_tours (h : g.Tours [] (g.children package) order) :
    dangling g package = order.filterMap fun id => g.reference? (.node id) := by
  have hwalk := danglingFrom_of_tours h []
  rw [List.append_nil, danglingFrom, List.append_nil] at hwalk
  exact hwalk

/-! ## What a tour enters -/

namespace Graph.Tours

theorem not_mem_visited (h : g.Tours visited todo order) (hid : id ∈ order) : id ∉ visited := by
  induction h with
  | done => cases hid
  | pass _ _ ih => exact ih hid
  | @enter visited inner order x n todo hv _ _ _ ihinner ihorder =>
    simp only [List.mem_cons, List.mem_append] at hid
    rcases hid with rfl | hid | hid
    · exact hv
    · exact fun hmem => ihinner hid (List.mem_cons_of_mem _ hmem)
    · exact fun hmem => ihorder hid (by simp [hmem])

/-- No node is entered twice. -/
theorem nodup (h : g.Tours visited todo order) : order.Nodup := by
  induction h with
  | done => exact List.nodup_nil
  | pass _ _ ih => exact ih
  | @enter visited inner order x n todo hv _ hinner horder ihinner ihorder =>
    have hfresh : ∀ y ∈ order, y ∉ inner ∧ y ≠ x := by
      intro y hy
      have hnew := horder.not_mem_visited hy
      simp only [List.mem_append, List.mem_reverse, List.mem_cons, not_or] at hnew
      exact ⟨hnew.1, hnew.2.1⟩
    rw [List.nodup_cons, List.mem_append, List.nodup_append]
    refine ⟨?_, ihinner, ihorder, fun y hy z hz heq => (hfresh z hz).1 (heq ▸ hy)⟩
    rintro (hx | hx)
    · exact hinner.not_mem_visited hx (List.mem_cons_self ..)
    · exact (hfresh x hx).2 rfl

theorem exists_node (h : g.Tours visited todo order) (hid : id ∈ order) :
    ∃ n, g.node? id = some n := by
  induction h with
  | done => cases hid
  | pass _ _ ih => exact ih hid
  | @enter visited inner order x n todo hv hn _ _ ihinner ihorder =>
    simp only [List.mem_cons, List.mem_append] at hid
    rcases hid with rfl | hid | hid
    · exact ⟨n, hn⟩
    · exact ihinner hid
    · exact ihorder hid

/-- All nodes among the types have been entered in the end. -/
theorem covers_todo (h : g.Tours visited todo order) (hid : .node id ∈ todo)
    (hn : g.node? id = some n) : id ∈ visited ∨ id ∈ order := by
  induction h with
  | done => cases hid
  | @pass visited order t todo hpass _ ih =>
    rcases List.mem_cons.1 hid with heq | hid
    · rcases hpass id heq.symm with hv | hnone
      · exact .inl hv
      · cases hnone.symm.trans hn
    · exact ih hid
  | @enter visited inner order x n' todo _ _ _ _ _ ihorder =>
    rcases List.mem_cons.1 hid with heq | hid
    · obtain rfl := TypeRef.node.inj heq
      exact .inr (List.mem_cons_self ..)
    · have hlater := ihorder hid
      simp only [List.mem_append, List.mem_reverse, List.mem_cons] at hlater ⊢
      grind

/-- With a node, all that it mentions has been entered in the end. -/
theorem covers_mentions (h : g.Tours visited todo order) (hid : id ∈ order)
    (hn : g.node? id = some n) (hk : .node k ∈ n.mentions) (hn' : g.node? k = some n') :
    k ∈ visited ∨ k ∈ order := by
  induction h with
  | done => cases hid
  | pass _ _ ih => exact ih hid
  | @enter visited inner order x m todo hv hm hinner _ ihinner ihorder =>
    have hcovered : k ∈ x :: visited ∨ k ∈ inner ∨ k ∈ order := by
      simp only [List.mem_cons, List.mem_append] at hid
      rcases hid with rfl | hid | hid
      · obtain rfl := Option.some.inj (hm.symm.trans hn)
        exact (hinner.covers_todo hk hn').imp_right .inl
      · exact (ihinner hid).imp_right .inl
      · have hlater := ihorder hid
        simp only [List.mem_append, List.mem_reverse] at hlater
        grind
    simp only [List.mem_cons, List.mem_append] at hcovered ⊢
    grind

theorem reachable (h : g.Tours visited todo order) (htodo : ∀ t ∈ todo, g.Reachable package t)
    (hid : id ∈ order) : g.Reachable package (.node id) := by
  induction h with
  | done => cases hid
  | pass _ _ ih => exact ih (fun t ht => htodo t (List.mem_cons_of_mem _ ht)) hid
  | @enter visited inner order x n todo _ hn _ _ ihinner ihorder =>
    have hx := htodo _ (List.mem_cons_self ..)
    simp only [List.mem_cons, List.mem_append] at hid
    rcases hid with rfl | hid | hid
    · exact hx
    · exact ihinner (fun t ht => hx.mention hn ht) hid
    · exact ihorder (fun t ht => htodo t (List.mem_cons_of_mem _ ht)) hid

/-- A tour through the declarations of a package enters exactly the nodes that can be reached. -/
theorem mem_iff (h : g.Tours [] (g.children package) order) :
    id ∈ order ↔ g.Reachable package (.node id) ∧ ∃ n, g.node? id = some n := by
  constructor
  · intro hid
    exact ⟨h.reachable (fun t ht => .child ht) hid, h.exists_node hid⟩
  · rintro ⟨hreach, n, hn⟩
    generalize ht : TypeRef.node id = t at hreach
    induction hreach generalizing id n with
    | child hmem =>
      subst ht
      exact (h.covers_todo hmem hn).resolve_left (List.not_mem_nil)
    | mention _ hm hmem ih =>
      subst ht
      exact (h.covers_mentions (ih _ hm rfl) hm hmem hn).resolve_left (List.not_mem_nil)

end Graph.Tours

/-- No reference is left over if and only if none can be reached. -/
theorem dangling_eq_nil_iff : dangling g package = [] ↔
    ∀ t, g.Reachable package t → ¬ g.IsReference t := by
  obtain ⟨order, htour⟩ := exists_tours g [] (g.children package)
  rw [dangling_of_tours htour, List.filterMap_eq_nil_iff]
  constructor
  · rintro hnone t hreach ⟨id, ref, rfl, hn⟩
    have hid : id ∈ order := htour.mem_iff.2 ⟨hreach, _, hn⟩
    exact Graph.reference?_eq_none_iff.1 (hnone id hid) ⟨id, ref, rfl, hn⟩
  · intro h id hid
    exact Graph.reference?_eq_none_iff.2 (h _ (htour.mem_iff.1 hid).1)

theorem not_isReference_of_reachable (h : dangling g package = []) (ht : g.Reachable package t) :
    ¬ g.IsReference t :=
  dangling_eq_nil_iff.1 h t ht

end ApiProto.Proto
