import ApiProto.Proofs.ResolvedPackages
import Mathlib.Data.Finset.Card
import Mathlib.Order.Interval.Finset.Nat

/-!
# The end of resolution

Resolving the references of a package ends also when messages refer to one another in cycles, and
it fails only if the chain of a reference breaks off or is circular. Resolving again changes nothing.

* `Graph.MapsEnd` — the graphs in question: no map is reached again from its own value.
* `Graph.Ranked` — a bound on the number of maps on the way from a type to the next message.
* `resolveMessage_error` — a walk that is allowed enough depth fails only for a reference.
* `resolveReferences_correct` — all that resolving a package achieves.
-/

namespace ApiProto.Proto

open Relation

/-- A step from a map to its value, or from a reference to what it names. -/
inductive Graph.Step (g : Graph) (targets : Targets) : Nat → Nat → Prop
  | value {id k : Nat} {key : TypeRef} : g.node? id = some (.map key (.node k)) →
      g.Step targets id k
  | target {id k : Nat} {ref : String} : g.node? id = some (.reference ref) →
      targets.resolve ref = .ok (.node k) → g.Step targets id k

/-- No map is on a cycle of such steps. -/
def Graph.MapsEnd (g : Graph) (targets : Targets) : Prop :=
  ∀ id key value, g.node? id = some (.map key value) → ¬ TransGen (g.Step targets) id id

/-- Numbers for the nodes, which a walk comes through in falling order between two messages. -/
structure Graph.Ranked (g : Graph) (targets : Targets) (package : Nat) (rank : Nat → Nat) :
    Prop where
  value : ∀ id key k, g.Reached targets package (.node id) →
    g.node? id = some (.map key (.node k)) → rank k < rank id
  target : ∀ id k, g.Reached targets package (.node id) → g.Yields targets (.node id) (.node k) →
    rank k ≤ rank id
  le_size : ∀ id, rank id ≤ g.size

/-- The failure of a resolution: a reference that can be reached and whose chain breaks off, so that
the error is the one that its end stands for, or is circular. -/
def Graph.Fails (g : Graph) (targets : Targets) (package : Nat) (e : Error) : Prop :=
  ∃ id ref, g.Reached targets package (.node id) ∧ g.node? id = some (.reference ref) ∧
    ((∃ e₀, g.ChainMissing targets ref e₀ ∧ e.cause = e₀.cause) ∨
      g.ChainCircular targets ref ∧ e.cause = .unresolved ref)

/-! ## Depth -/

/-- The depth that a walk needs from a node to the next message: a reference may stand before each
map. -/
def Graph.effort (g : Graph) (rank : Nat → Nat) (id : Nat) : Nat :=
  match g.node? id with
  | some (.reference _) => 2 * rank id + 1
  | _ => 2 * rank id

/-- The depth that a walk needs for the messages that it has not visited. -/
def Graph.room (g : Graph) (r : Resolution) : Nat :=
  unvisited g r.visited * (2 * g.size + 4)

section Depth

variable {g : Graph} {targets : Targets} {package : Nat} {rank : Nat → Nat} {r r' : Resolution}

theorem effort_le (g : Graph) (rank : Nat → Nat) (id : Nat) :
    g.effort rank id ≤ 2 * rank id + 1 := by
  unfold Graph.effort
  split <;> omega

theorem effort_of_not_isReference {id : Nat} (h : ¬ g.IsReference (.node id)) :
    g.effort rank id = 2 * rank id := by
  unfold Graph.effort
  split
  · next ref hn => exact absurd ⟨id, ref, rfl, hn⟩ h
  · rfl

theorem effort_of_reference {id : Nat} {ref : String} (hn : g.node? id = some (.reference ref)) :
    g.effort rank id = 2 * rank id + 1 := by
  unfold Graph.effort
  rw [hn]

theorem room_le (h : r.visited ⊆ r'.visited) : g.room r' ≤ g.room r := by
  refine Nat.mul_le_mul_right _ ?_
  simp only [unvisited, ← List.countP_eq_length_filter]
  refine List.countP_mono_left fun id _ hid => ?_
  simp only [Bool.not_eq_true', List.contains_eq_mem, decide_eq_false_iff_not] at hid ⊢
  exact fun hold => hid (h hold)

/-- Visiting a message makes room for all that it holds. -/
theorem room_visit_add_le {id : Nat} (hid : id ∉ r.visited) (hsize : id < g.size) :
    g.room (r.visit id) + (2 * g.size + 4) ≤ g.room r := by
  obtain ⟨n, hn⟩ := Graph.node?_isSome hsize
  have hlt := unvisited_cons_lt (by simpa using hid) hn
  have hmul := Nat.mul_le_mul_right (2 * g.size + 4) (Nat.succ_le_of_lt hlt)
  unfold Graph.room
  rw [Resolution.visited_visit]
  rw [Nat.succ_mul] at hmul
  exact hmul

/-- A reference needs more depth than what stands for it. -/
theorem effort_target_lt (hrank : g.Ranked targets package rank) {id k : Nat} {ref : String}
    (hid : g.Reached targets package (.node id)) (hn : g.node? id = some (.reference ref))
    (h : g.Yields targets (.node id) (.node k)) : g.effort rank k < g.effort rank id := by
  have hle := hrank.target id k hid h
  rw [effort_of_reference hn, effort_of_not_isReference h.not_isReference]
  omega

/-- A map needs more depth than its value. -/
theorem effort_value_lt (hrank : g.Ranked targets package rank) (hr : g.OnWay targets package r)
    {id k : Nat} {key : TypeRef} (hid : g.Reached targets package (.node id))
    (hn : r.graph.node? id = some (.map key (.node k))) :
    g.effort rank k < g.effort rank id := by
  obtain ⟨value₀, hn₀, hvalue⟩ := hr.value hn
  have hmap : ¬ g.IsReference (.node id) := by
    rintro ⟨_, ref, heq, hreference⟩
    obtain rfl := TypeRef.node.inj heq
    exact nomatch hn₀.symm.trans hreference
  rw [effort_of_not_isReference hmap]
  have hreached : g.Reached targets package value₀ := hid.mention hn₀ (by simp [Node.mentions])
  rcases hvalue with rfl | hyields
  · have hlt := hrank.value id key k hid hn₀
    have hle := effort_le g rank k
    omega
  · cases value₀ with
    | builtin b =>
      obtain ⟨-, heq⟩ | ⟨_, _, heq, -⟩ := hyields <;> cases heq
    | node k₀ =>
      have hlt := hrank.value id key k₀ hid hn₀
      have hle := hrank.target k₀ k hreached hyields
      rw [effort_of_not_isReference hyields.not_isReference]
      omega

end Depth

/-! ## Failures -/

section Failures

variable {g : Graph} {targets : Targets} {package : Nat} {rank : Nat → Nat} {r r' : Resolution}
  {e : Error}

theorem Graph.Fails.of_cause {e' : Error} (h : g.Fails targets package e')
    (hcause : e.cause = e'.cause) : g.Fails targets package e := by
  unfold Graph.Fails
  rwa [hcause]

theorem fails_of_follow {id : Nat} {ref : String} (hid : g.Reached targets package (.node id))
    (hr : g.OnWay targets package r) (hn : r.graph.node? id = some (.reference ref))
    (h : follow r.graph targets ref = .error e) : g.Fails targets package e := by
  refine ⟨id, ref, hid, hr.spliced.reference_iff.1 hn, ?_⟩
  have hchain := follow_error h
  simp only [Graph.ChainMissing, Graph.ChainCircular, hr.spliced.next_eq] at hchain
  exact hchain.imp_left fun hmissing => ⟨e, hmissing, rfl⟩

theorem children_error {depth : Nat} {l : List TypeRef}
    (hmessage : ∀ {id r r'}, g.OnWay targets package r → g.Reached targets package (.node id) →
      g.room r + 1 ≤ depth → (resolveMessage targets depth id).outcome r = (.error e, r') →
      g.Fails targets package e)
    (hr : g.OnWay targets package r) (hl : ∀ t ∈ l, g.Reached targets package t)
    (hroom : g.room r + 1 ≤ depth)
    (h : ResolveM.outcome (l.forM (resolveChild targets depth)) r = (.error e, r')) :
    g.Fails targets package e := by
  induction l generalizing r with
  | nil => cases h
  | cons child rest ih =>
    have hchild := hl child (List.mem_cons_self ..)
    rcases ResolveM.bind_error_iff.1 h with hfirst | ⟨_, r₁, hfirst, hrest⟩
    · cases child with
      | builtin b => cases hfirst
      | node c =>
        rw [resolveChild, ResolveM.outcome_get_bind] at hfirst
        split at hfirst
        · exact hmessage hr hchild hroom hfirst
        · cases hfirst
    · have hwalk := walks_child (walks_of_resolveMessage depth) hfirst
      have hr₁ := hwalk.onWay trivial (fun t ht => List.mem_singleton.1 ht ▸ hchild) hr
      have hle : g.room r₁ ≤ g.room r := room_le hwalk.visited_subset
      exact ih hr₁ (fun t ht => hl t (List.mem_cons_of_mem _ ht)) (by omega) hrest

theorem fields_error {depth id : Nat} {name : String} {l : List (Field TypeRef Value × Nat)}
    (htype : ∀ {e t r r'}, g.OnWay targets package r → g.Reached targets package t →
      g.room r + 2 * g.size + 3 ≤ depth → (resolveType targets depth t).outcome r = (.error e, r') →
      g.Fails targets package e)
    (hr : g.OnWay targets package r) (hc : (Task.fields id l).Current r)
    (hl : (Task.fields id l).Reached g targets package) (hroom : g.room r + 2 * g.size + 3 ≤ depth)
    (h : ResolveM.outcome (l.forM (resolveField targets depth id name)) r = (.error e, r')) :
    g.Fails targets package e := by
  induction l generalizing r with
  | nil => cases h
  | cons entry rest ih =>
    have hentry := hl.2 entry (List.mem_cons_self ..)
    rcases ResolveM.bind_error_iff.1 h with hfirst | ⟨_, r₁, hfirst, hrest⟩
    · rcases ResolveM.bind_error_iff.1 hfirst with hfirst | ⟨_, _, -, hset⟩
      · obtain ⟨e₀, he₀, hcause⟩ := ResolveM.within_error hfirst
        exact (htype hr hentry hroom he₀).of_cause hcause
      · cases hset
    · obtain ⟨t, r₂, hwalk, rfl⟩ := walks_field (walks_of_resolveType depth) hfirst
      have hr₂ := (hwalk.onWay trivial hentry hr).setFieldType hl.1 hc hwalk
      have hle : g.room r₂ ≤ g.room r := room_le hwalk.visited_subset
      have hsame : g.room (r₂.setFieldType id entry.2 t) = g.room r₂ := by
        rw [Graph.room, Resolution.visited_setFieldType, Graph.room]
      exact ih hr₂ (Walks.current_rest hwalk hc)
        ⟨hl.1, fun e he => hl.2 e (List.mem_cons_of_mem _ he)⟩ (by omega) hrest

mutual

/-- Resolving a type fails only for a reference, if enough depth is allowed. -/
theorem resolveType_error (hrank : g.Ranked targets package rank) :
    ∀ (depth : Nat) {id : Nat} {r r' : Resolution} {e : Error}, g.OnWay targets package r →
      g.Reached targets package (.node id) → g.room r + g.effort rank id + 2 ≤ depth →
      (resolveType targets depth (.node id)).outcome r = (.error e, r') → g.Fails targets package e
  | 0, _, _, _, _, _, _, hroom, _ => absurd hroom (by omega)
  | depth + 1, id, r, r', e, hr, hid, hroom, h => by
    rw [outcome_resolveType] at h
    split at h
    · next ref hn =>
      split at h
      · next t ht =>
        have hyields := hr.follow_yields hn ht
        cases t with
        | builtin b =>
          unfold resolveType at h
          cases h
        | node k =>
          have hlt := effort_target_lt hrank hid (hr.spliced.reference_iff.1 hn) hyields
          exact resolveType_error hrank depth hr (hid.yields hyields) (by omega) h
      · next e' he' =>
        obtain rfl := Except.error.inj (Prod.mk.inj h).1
        exact fails_of_follow hid hr hn he'
    · next key value hn =>
      rcases ResolveM.bind_error_iff.1 h with hvalue | ⟨_, _, -, hset⟩
      · cases value with
        | builtin b =>
          unfold resolveType at hvalue
          cases hvalue
        | node k =>
          have hlt := effort_value_lt hrank hr hid hn
          exact resolveType_error hrank depth hr (hr.value_reached hid hn) (by omega) hvalue
      · cases hset
    · next m hn =>
      rcases ResolveM.bind_error_iff.1 h with hmessage | ⟨_, _, -, hpure⟩
      · exact resolveMessage_error hrank depth hr hid (by omega) hmessage
      · cases hpure
    · cases h
termination_by structural depth => depth

/-- Resolving a message fails only for a reference, if enough depth is allowed. -/
theorem resolveMessage_error (hrank : g.Ranked targets package rank) :
    ∀ (depth : Nat) {id : Nat} {r r' : Resolution} {e : Error}, g.OnWay targets package r →
      g.Reached targets package (.node id) → g.room r + 1 ≤ depth →
      (resolveMessage targets depth id).outcome r = (.error e, r') → g.Fails targets package e
  | 0, _, _, _, _, _, _, hroom, _ => absurd hroom (by omega)
  | depth + 1, id, r, r', e, hr, hid, hroom, h => by
    rw [outcome_resolveMessage] at h
    split at h
    · cases h
    · next m hm =>
      split at h
      · cases h
      · next hv =>
        have hsize : id < g.size :=
          hr.spliced.size ▸ Graph.lt_size_of_node? (Graph.node?_of_message? hm)
        have hvisit := room_visit_add_le hv hsize
        have hr' : g.OnWay targets package (r.visit id) := ⟨hr.spliced, hr.untouched⟩
        obtain ⟨hchildren, hfields⟩ := hr.message hid hm
        rcases ResolveM.bind_error_iff.1 h with hfirst | ⟨_, r₁, hfirst, hrest⟩
        · exact children_error (resolveMessage_error hrank depth) hr' hchildren (by omega) hfirst
        · have hwalk := walks_children (walks_of_resolveMessage depth) hfirst
          have hle : g.room r₁ ≤ g.room (r.visit id) := room_le hwalk.visited_subset
          refine fields_error ?_ (hwalk.onWay trivial hchildren hr')
            (Walks.current_fields hm hwalk)
            ⟨hid, fun entry hentry => hfields _ (List.fst_mem_of_mem_zipIdx hentry)⟩
            (by omega) hrest
          intro e t r r' hr ht hroom h
          cases t with
          | builtin b =>
            unfold resolveType at h
            cases h
          | node k =>
            have hle := effort_le g rank k
            have hsize := hrank.le_size k
            exact resolveType_error hrank depth hr ht (by omega) h
termination_by structural depth => depth

end

theorem resolvePackage_error (hrank : g.Ranked targets package rank)
    (h : (resolvePackage targets package).outcome ⟨g, []⟩ = (.error e, r')) :
    g.Fails targets package e := by
  unfold resolvePackage at h
  rw [ResolveM.outcome_get_bind] at h
  refine children_error (resolveMessage_error hrank _) (.start g targets package)
    (fun t ht => .child ht) ?_ h
  have hall : unvisited g [] = g.size := by simp [unvisited]
  have hdepth : g.depth = g.size * (2 * g.size + 4) + (2 * g.size + 4) := Nat.succ_mul ..
  have hroom : g.room ⟨g, []⟩ = g.size * (2 * g.size + 4) := by rw [Graph.room, hall]
  show g.room ⟨g, []⟩ + 1 ≤ g.depth
  omega

end Failures

/-! ## Ranks -/

section Ranks

variable {g : Graph} {targets : Targets} {package : Nat}

open Classical in
/-- The maps that steps from a node come to. -/
noncomputable def Graph.mapsFrom (g : Graph) (targets : Targets) (id : Nat) : Finset Nat :=
  (Finset.range g.size).filter fun k =>
    g.IsMap (.node k) ∧ ReflTransGen (g.Step targets) id k

theorem mem_mapsFrom {id k : Nat} : k ∈ g.mapsFrom targets id ↔
    k < g.size ∧ g.IsMap (.node k) ∧ ReflTransGen (g.Step targets) id k := by
  simp [Graph.mapsFrom]

/-- The number of maps that steps from a node come to. -/
noncomputable def Graph.mapRank (g : Graph) (targets : Targets) (id : Nat) : Nat :=
  (g.mapsFrom targets id).card

theorem mapRank_le_size (id : Nat) : g.mapRank targets id ≤ g.size := by
  refine (Finset.card_le_card fun k hk => ?_).trans_eq (Finset.card_range g.size)
  exact Finset.mem_range.2 (mem_mapsFrom.1 hk).1

theorem mapRank_le {id k : Nat} (h : ReflTransGen (g.Step targets) id k) :
    g.mapRank targets k ≤ g.mapRank targets id := by
  refine Finset.card_le_card fun j hj => ?_
  obtain ⟨hsize, hmap, hchain⟩ := mem_mapsFrom.1 hj
  exact mem_mapsFrom.2 ⟨hsize, hmap, h.trans hchain⟩

theorem mapRank_value_lt (hmaps : g.MapsEnd targets) {id k : Nat} {key : TypeRef}
    (hn : g.node? id = some (.map key (.node k))) : g.mapRank targets k < g.mapRank targets id := by
  have hstep : g.Step targets id k := .value hn
  have hsubset : g.mapsFrom targets k ⊆ g.mapsFrom targets id := fun j hj => by
    obtain ⟨hsize, hmap, hchain⟩ := mem_mapsFrom.1 hj
    exact mem_mapsFrom.2 ⟨hsize, hmap, .head hstep hchain⟩
  have hmem : id ∈ g.mapsFrom targets id :=
    mem_mapsFrom.2 ⟨Graph.lt_size_of_node? hn, ⟨id, key, _, rfl, hn⟩, .refl⟩
  -- otherwise the map would be on a cycle
  have hnot : id ∉ g.mapsFrom targets k := fun hback =>
    hmaps id key _ hn (TransGen.head' hstep (mem_mapsFrom.1 hback).2.2)
  exact Finset.card_lt_card ((Finset.ssubset_iff_of_subset hsubset).2 ⟨id, hmem, hnot⟩)

/-- Chains of references are made of steps. -/
theorem steps_of_chain {id k : Nat} {ref last : String} (hn : g.node? id = some (.reference ref))
    (hchain : ReflTransGen (g.Next targets) ref last)
    (hlast : targets.resolve last = .ok (.node k)) :
    ReflTransGen (g.Step targets) id k := by
  induction hchain using ReflTransGen.head_induction_on generalizing id with
  | refl => exact .single (.target hn hlast)
  | head hnext _ ih =>
    obtain ⟨j, hj, hn'⟩ := hnext
    exact .head (.target hn hj) (ih hn')

theorem steps_of_yields {id k : Nat} (h : g.Yields targets (.node id) (.node k)) :
    ReflTransGen (g.Step targets) id k := by
  rcases h with ⟨-, heq⟩ | ⟨_, ref, heq, hn, hfollow⟩
  · obtain rfl := TypeRef.node.inj heq
    exact .refl
  · obtain rfl := TypeRef.node.inj heq
    obtain ⟨last, hchain, hlast, -⟩ := follow_ok_iff.1 hfollow
    exact steps_of_chain hn hchain hlast

theorem ranked_of_mapsEnd (hmaps : g.MapsEnd targets) :
    g.Ranked targets package (g.mapRank targets) where
  value _ _ _ _ hn := mapRank_value_lt hmaps hn
  target _ _ _ hyields := mapRank_le (steps_of_yields hyields)
  le_size := mapRank_le_size

/-- After a walk, the same ranks serve for walks with other targets. -/
theorem ranked_of_spliced (hmaps : g.MapsEnd targets) {g' : Graph} (hs : g.Spliced targets g')
    (hcomplete : ∀ t, g'.Reachable package t → ¬ g'.IsReference t) (targets' : Targets) :
    g'.Ranked targets' package (g.mapRank targets) where
  value id key k _ hn' := by
    obtain ⟨n, hn, hslots⟩ := hs.of_node? hn'
    cases hslots with
    | @map _ value₀ _ hvalue =>
      rcases hvalue with rfl | hyields
      · exact mapRank_value_lt hmaps hn
      · cases value₀ with
        | builtin b => obtain ⟨-, heq⟩ | ⟨_, _, heq, -⟩ := hyields <;> cases heq
        | node k₀ =>
          exact (mapRank_le (steps_of_yields hyields)).trans_lt (mapRank_value_lt hmaps hn)
    | other _ hmap => exact absurd rfl (hmap _ _)
  target id k hid hyields := by
    have href := hcomplete _ (reachable_of_reached_of_complete hcomplete hid)
    have heq := Graph.MayYield.eq (.inr hyields) href
    exact (TypeRef.node.inj heq ▸ Nat.le_refl _ : g.mapRank targets k ≤ g.mapRank targets id)
  le_size id := hs.size ▸ mapRank_le_size id

end Ranks

/-! ## Whole resolutions -/

section Whole

variable {g g' : Graph} {targets : Targets} {package : Nat}

theorem resolveReferences_eq (g : Graph) (targets : Targets) (package : Nat) :
    resolveReferences g targets package = (((resolvePackage targets package).outcome ⟨g, []⟩).1,
      ((resolvePackage targets package).outcome ⟨g, []⟩).2.graph) := rfl

/-- Where no reference can be reached, resolving changes nothing and does not fail. -/
theorem resolveReferences_of_complete {rank : Nat → Nat} (hrank : g.Ranked targets package rank)
    (hcomplete : ∀ t, g.Reachable package t → ¬ g.IsReference t) :
    resolveReferences g targets package = (.ok (), g) := by
  rw [resolveReferences_eq]
  rcases houtcome : (resolvePackage targets package).outcome ⟨g, []⟩ with ⟨e | ⟨⟩, r⟩
  · obtain ⟨id, ref, hid, hn, -⟩ := resolvePackage_error hrank houtcome
    have hreachable := reachable_of_reached_of_complete hcomplete hid
    exact absurd ⟨id, ref, rfl, hn⟩ (hcomplete _ hreachable)
  · have hwalk := walks_of_resolvePackage houtcome
    have hr := hwalk.onWay trivial (fun t ht => .child ht) (.start g targets package)
    rw [graph_eq_of_complete hcomplete hr]

/-- Resolving the references of a package ends, whatever they stand for. If it succeeds, then no
reference can be reached any more, every place that can be reached holds the type at the end of the
chain of the reference that it held, everything else is as it was, and resolving again, whatever
references then stand for, changes nothing. If it fails, then for a reference that can be reached
and whose chain breaks off, with the error to which it comes, or is circular, and never because it
was not allowed enough depth. -/
theorem resolveReferences_correct (hg : g.WellTyped) (hmaps : g.MapsEnd targets) :
    ∃ outcome g', resolveReferences g targets package = (outcome, g') ∧
      match outcome with
      | .ok () => g.Settled targets package g' ∧
          ∀ targets', resolveReferences g' targets' package = (.ok (), g')
      | .error e => g.Fails targets package e := by
  rw [resolveReferences_eq]
  rcases houtcome : (resolvePackage targets package).outcome ⟨g, []⟩ with ⟨e | ⟨⟩, r⟩
  · exact ⟨.error e, r.graph, rfl, resolvePackage_error (ranked_of_mapsEnd hmaps) houtcome⟩
  · have hwalk := walks_of_resolvePackage houtcome
    have hsettled := settled_of_walks hg hwalk
    refine ⟨.ok (), r.graph, rfl, hsettled, fun targets' => ?_⟩
    exact resolveReferences_of_complete
      (ranked_of_spliced hmaps (hwalk.spliced trivial) hsettled.complete targets') hsettled.complete

end Whole

/-- No map is on a cycle if each step leads to a smaller number. -/
theorem mapsEnd_of_falling {g : Graph} {targets : Targets} (f : Nat → Nat)
    (hf : ∀ id k, g.Step targets id k → f k < f id) : g.MapsEnd targets := by
  have hfall : ∀ id k, TransGen (g.Step targets) id k → f k < f id := by
    intro id k h
    induction h with
    | single hstep => exact hf _ _ hstep
    | tail _ hstep ih => exact (hf _ _ hstep).trans ih
  exact fun id _ _ _ hcycle => Nat.lt_irrefl _ (hfall id id hcycle)

/-- A tree: its parent is a tree, and its branches are trees under an alias, by name. -/
def trees : Graph := ⟨#[.package ⟨"demo", [], [], [.node 1]⟩,
  .message ⟨"Tree", [⟨.node 2, "parent", 1, false, .text ""⟩, ⟨.node 3, "branches", 2, false, .text ""⟩],
    [], .text ""⟩,
  .reference "Tree", .map (.builtin .string) (.node 4), .reference "Alias", .reference "Tree"]⟩

/-- What the references in trees name. -/
def treeTable : Definitions := [("Alias", .node 5), ("Tree", .node 1)]

theorem resolveReferences_correct_trees : trees.WellTyped ∧ trees.MapsEnd treeTable ∧
    ∃ outcome g', resolveReferences trees treeTable 0 = (outcome, g') ∧
      match outcome with
      | .ok () => trees.Settled treeTable 0 g' ∧
          ∀ targets', resolveReferences g' targets' 0 = (.ok (), g')
      | .error e => trees.Fails treeTable 0 e := by
  have hwell : trees.WellTyped := by
    refine ⟨fun id t ht => ?_, fun id key value hn => ?_, fun id s hn => ?_⟩
    · rcases id with _ | _ | _ | _ | _ | _ | id
      · obtain rfl := List.mem_singleton.1 ht
        refine ⟨?_, ?_⟩
        · rintro ⟨_, _, heq, hn⟩
          cases heq
          cases hn
        · rintro ⟨_, _, _, heq, hn⟩
          cases heq
          cases hn
      all_goals cases ht
    · rcases id with _ | _ | _ | _ | _ | _ | id <;> cases hn
      exact .inl ⟨_, rfl⟩
    · rcases id with _ | _ | _ | _ | _ | _ | id <;> cases hn
  have hmaps : trees.MapsEnd treeTable := by
    -- an alias is above what it stands for, and a map is above its values
    refine mapsEnd_of_falling (fun id => [0, 0, 1, 3, 2, 1].getD id 0) fun id k hstep => ?_
    cases hstep with
    | value hn =>
      rcases id with _ | _ | _ | _ | _ | _ | id <;> cases hn
      decide
    | target hn ht =>
      rcases id with _ | _ | _ | _ | _ | _ | id <;> cases hn <;> cases ht <;> decide
  exact ⟨hwell, hmaps, resolveReferences_correct hwell hmaps⟩

end ApiProto.Proto
