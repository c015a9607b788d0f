import ApiProto.Proofs.Coverage
import ApiProto.Proofs.Reachable

/-!
# Resolving a package

When the references of a package have been resolved, none can be reached any more: at each place
that can be reached stands the type at the end of the chain of the reference that stood there, and
everything else is as it was.

* `Graph.WellTyped` — the graphs in question.
* `Graph.Reached` — what a walk from the declarations of a package can come to.
* `Graph.OnWay`, `Walks.onWay` — what every walk keeps.
* `Graph.Settled`, `settled_of_walks` — what a whole walk achieves.
-/

namespace ApiProto.Proto

open Relation

/-- A map from keys to values. -/
def Graph.IsMap (g : Graph) (t : TypeRef) : Prop :=
  ∃ id key value, t = .node id ∧ g.node? id = some (.map key value)

/-- A builtin type, or a node that is one. -/
def Graph.IsBuiltin (g : Graph) (t : TypeRef) : Prop :=
  (∃ b, t = .builtin b) ∨ ∃ id b, t = .node id ∧ g.node? id = some (.builtin b)

/-- Graphs in which references can stand only where they are resolved: as types of fields and as
values of maps. -/
structure Graph.WellTyped (g : Graph) : Prop where
  /-- What is declared is neither a reference nor a map. -/
  declared : ∀ id t, t ∈ g.children id → ¬ g.IsReference t ∧ ¬ g.IsMap t
  keys : ∀ id key value, g.node? id = some (.map key value) → g.IsBuiltin key
  services : ∀ id s, g.node? id = some (.service s) → s.rpcs = []

/-- What a walk from the declarations of a package can come to: what is declared, what a node
mentions, and what a reference names. -/
inductive Graph.Reached (g : Graph) (targets : Targets) (package : Nat) : TypeRef → Prop
  | child {t : TypeRef} : t ∈ g.children package → g.Reached targets package t
  | mention {id : Nat} {n : Node} {t : TypeRef} : g.Reached targets package (.node id) →
      g.node? id = some n → t ∈ n.mentions → g.Reached targets package t
  | target {id : Nat} {ref : String} {t : TypeRef} : g.Reached targets package (.node id) →
      g.node? id = some (.reference ref) → targets.resolve ref = .ok t →
      g.Reached targets package t

section Reached

variable {g : Graph} {targets : Targets} {package : Nat}

/-- Chains of references are walked through to their end. -/
theorem Graph.Reached.chain {id : Nat} {ref last : String} {t : TypeRef}
    (h : g.Reached targets package (.node id)) (hn : g.node? id = some (.reference ref))
    (hchain : ReflTransGen (g.Next targets) ref last) (ht : targets.resolve last = .ok t) :
    g.Reached targets package t := by
  induction hchain using ReflTransGen.head_induction_on generalizing id with
  | refl => exact h.target hn ht
  | head hnext _ ih =>
    obtain ⟨k, hk, hn'⟩ := hnext
    exact ih (h.target hn hk) hn'

theorem Graph.Reached.yields {t t' : TypeRef} (h : g.Reached targets package t)
    (ht : g.Yields targets t t') : g.Reached targets package t' := by
  rcases ht with ⟨-, rfl⟩ | ⟨id, ref, rfl, hn, hfollow⟩
  · exact h
  · obtain ⟨last, hchain, hlast, -⟩ := follow_ok_iff.1 hfollow
    exact h.chain hn hchain hlast

theorem Graph.Reached.mayYield {t t' : TypeRef} (h : g.Reached targets package t)
    (ht : g.MayYield targets t t') : g.Reached targets package t' := by
  rcases ht with rfl | ht
  · exact h
  · exact h.yields ht

end Reached

/-! ## What walks keep -/

/-- A state on the way: types have been spliced in, but only into what can be reached. -/
structure Graph.OnWay (g : Graph) (targets : Targets) (package : Nat) (r : Resolution) : Prop where
  spliced : g.Spliced targets r.graph
  untouched : ∀ id, ¬ g.Reached targets package (.node id) → r.graph.node? id = g.node? id

/-- What is to be resolved can be reached. -/
def Task.Reached (g : Graph) (targets : Targets) (package : Nat) : Task → Prop
  | .type t _ => g.Reached targets package t
  | .message id => g.Reached targets package (.node id)
  | .children l => ∀ t ∈ l, g.Reached targets package t
  | .fields id l => g.Reached targets package (.node id) ∧
      ∀ entry ∈ l, g.Reached targets package entry.1.type

section OnWay

variable {g : Graph} {targets : Targets} {package : Nat} {r r₁ r' : Resolution}

namespace Graph.OnWay

theorem start (g : Graph) (targets : Targets) (package : Nat) :
    g.OnWay targets package ⟨g, []⟩ :=
  ⟨.refl g, fun _ _ => rfl⟩

variable (h : g.OnWay targets package r)
include h

theorem of_spliced {id : Nat} (hid : g.Reached targets package (.node id))
    (hs : r.graph.Spliced targets r'.graph)
    (hother : ∀ k, k ≠ id → r'.graph.node? k = r.graph.node? k) : g.OnWay targets package r' where
  spliced := h.spliced.trans hs
  untouched k hk := by
    have hne : k ≠ id := by
      rintro rfl
      exact hk hid
    exact (hother k hne).trans (h.untouched k hk)

/-- What a message holds on the way can be reached. -/
theorem message {id : Nat} {m : Message} (hid : g.Reached targets package (.node id))
    (hm : r.graph.message? id = some m) :
    (∀ t ∈ m.children, g.Reached targets package t) ∧
      ∀ f ∈ m.fields, g.Reached targets package f.type := by
  obtain ⟨m₀, hm₀, hchildren, hfields⟩ := h.spliced.message?_of_some hm
  have hn := Graph.node?_of_message? hm₀
  refine ⟨fun t ht => hid.mention hn (List.mem_append_left _ (hchildren ▸ ht)), fun f hf => ?_⟩
  obtain ⟨i, hi⟩ := List.mem_iff_getElem?.1 hf
  obtain ⟨f₀, hf₀, t, ht, rfl⟩ := forall₂_getElem? hfields.flip hi
  have hmention : f₀.type ∈ (Node.message m₀).mentions :=
    List.mem_append_right _ (List.mem_map.2 ⟨f₀, List.mem_of_getElem? hf₀, rfl⟩)
  exact (hid.mention hn hmention).mayYield ht

/-- The value of a map on the way comes from its value at the start. -/
theorem value {id : Nat} {key value : TypeRef} (hn : r.graph.node? id = some (.map key value)) :
    ∃ value₀, g.node? id = some (.map key value₀) ∧ g.MayYield targets value₀ value := by
  obtain ⟨n, hn₀, hslots⟩ := h.spliced.of_node? hn
  cases hslots with
  | map hvalue => exact ⟨_, hn₀, hvalue⟩
  | other _ hmap => exact absurd rfl (hmap _ _)

theorem value_reached {id : Nat} {key value : TypeRef} (hid : g.Reached targets package (.node id))
    (hn : r.graph.node? id = some (.map key value)) : g.Reached targets package value := by
  obtain ⟨value₀, hn₀, hvalue⟩ := h.value hn
  exact (hid.mention hn₀ (by simp [Node.mentions])).mayYield hvalue

theorem follow_yields {id : Nat} {ref : String} {t : TypeRef}
    (hn : r.graph.node? id = some (.reference ref)) (hfollow : follow r.graph targets ref = .ok t) :
    g.Yields targets (.node id) t :=
  h.spliced.yields_iff.1 (.inr ⟨id, ref, rfl, hn, hfollow⟩)

end Graph.OnWay

theorem Graph.OnWay.setFieldType (hr : g.OnWay targets package r₁) {id i : Nat}
    {f : Field TypeRef Value} {rest : List (Field TypeRef Value × Nat)} {t : TypeRef}
    (hid : g.Reached targets package (.node id)) (hc : (Task.fields id ((f, i) :: rest)).Current r)
    (h : Walks targets (.type f.type t) r r₁) : g.OnWay targets package (r₁.setFieldType id i t) :=
  hr.of_spliced hid (h.setFieldType_spliced hc (h.spliced trivial))
    fun _ hk => Resolution.node?_setFieldType_of_ne hk i t

/-- A walk from what can be reached changes nothing else. -/
theorem Walks.onWay {task : Task} (h : Walks targets task r r') (hc : task.Current r)
    (ht : task.Reached g targets package) (hr : g.OnWay targets package r) :
    g.OnWay targets package r' := by
  induction h with
  | builtin | leaf | noMessage | visited | noChildren | noFields => exact hr
  | reference hn hfollow _ ih => exact ih trivial (ht.yields (hr.follow_yields hn hfollow)) hr
  | declared _ _ ih => exact ih trivial ht hr
  | builtinChild _ ih => exact ih trivial (fun t hmem => ht t (List.mem_cons_of_mem _ hmem)) hr
  | map hn hvalue ih =>
    refine (ih trivial (hr.value_reached ht hn) hr).of_spliced ht
      (hvalue.setMapValue_spliced hn (hvalue.spliced trivial)) fun k hk => ?_
    exact Resolution.node?_setMapValue_of_ne hk _ _
  | fresh hm _ hchildren _ ih ih' =>
    obtain ⟨hreached, hfields⟩ := hr.message ht hm
    exact ih' (current_fields hm hchildren)
      ⟨ht, fun entry hentry => hfields _ (List.fst_mem_of_mem_zipIdx hentry)⟩
      (ih trivial hreached ⟨hr.spliced, hr.untouched⟩)
  | child _ _ ih ih' =>
    exact ih' trivial (fun t hmem => ht t (List.mem_cons_of_mem _ hmem))
      (ih trivial (ht _ (List.mem_cons_self ..)) hr)
  | field htype _ ih ih' =>
    have hset := (ih trivial (ht.2 _ (List.mem_cons_self ..)) hr).setFieldType ht.1 hc htype
    exact ih' (current_rest htype hc)
      ⟨ht.1, fun entry hentry => ht.2 entry (List.mem_cons_of_mem _ hentry)⟩ hset

end OnWay

/-! ## Whole walks -/

/-- What resolving a package leaves of a graph. -/
structure Graph.Settled (g : Graph) (targets : Targets) (package : Nat) (g' : Graph) : Prop where
  /-- No reference can be reached. -/
  complete : ∀ t, g'.Reachable package t → ¬ g'.IsReference t
  size : g'.size = g.size
  /-- The fields and the values that can be reached have the types that stand for their types. -/
  reachable : ∀ id n, g.node? id = some n → g'.Reachable package (.node id) →
    ∃ n', g'.node? id = some n' ∧ n.Slots (g.Yields targets) n'
  /-- All else is unchanged. -/
  other : ∀ id, ¬ g'.Reachable package (.node id) → g'.node? id = g.node? id

namespace Graph.WellTyped

variable {g g' : Graph} {targets : Targets}

theorem of_spliced (h : g.WellTyped) (hs : g.Spliced targets g') : g'.WellTyped where
  declared id t ht := by
    obtain ⟨href, hmap⟩ := h.declared id t (hs.children_eq id ▸ ht)
    refine ⟨fun href' => href (hs.isReference_iff.1 href'), ?_⟩
    rintro ⟨k, key, value, rfl, hk⟩
    obtain ⟨n, hn, hslots⟩ := hs.of_node? hk
    cases hslots with
    | map => exact hmap ⟨k, _, _, rfl, hn⟩
    | other _ hother => exact hother _ _ rfl
  keys id key value hn' := by
    obtain ⟨n, hn, hslots⟩ := hs.of_node? hn'
    cases hslots with
    | map =>
      refine (h.keys id _ _ hn).imp_right ?_
      rintro ⟨k, b, rfl, hk⟩
      obtain ⟨n', hk', hslots⟩ := hs.nodes k _ hk
      cases hslots
      exact ⟨k, b, rfl, hk'⟩
    | other _ hother => exact absurd rfl (hother _ _)
  services id s hn' := by
    obtain ⟨n, hn, hslots⟩ := hs.of_node? hn'
    cases hslots
    exact h.services id s hn

variable {r : Resolution} (h : r.graph.WellTyped)
include h

/-- What is declared in a container is covered if the messages in it have been visited. -/
theorem covers_child {id : Nat} (hv : r.Visits (r.graph.children id)) {t : TypeRef}
    (ht : t ∈ r.graph.children id) : r.Covers t := by
  obtain ⟨href, hmap⟩ := h.declared id t ht
  cases t with
  | builtin b => exact .builtin b
  | node k =>
    rcases hm : r.graph.message? k with _ | m
    · refine .leaf (fun ref hn => href ⟨k, ref, rfl, hn⟩)
        (fun key value hn => hmap ⟨k, key, value, rfl, hn⟩) fun m hn => ?_
      exact nomatch hm.symm.trans (Graph.message?_of_node? hn)
    · exact .message (Graph.node?_of_message? hm) (hv k m ht hm)

theorem covers_key {id : Nat} {key value : TypeRef}
    (hn : r.graph.node? id = some (.map key value)) : r.Covers key := by
  rcases h.keys id key value hn with ⟨b, rfl⟩ | ⟨k, b, rfl, hk⟩
  · exact .builtin b
  · refine .leaf ?_ ?_ ?_ <;> simp [hk]

/-- On a complete walk that has visited the messages of a package, all that can be reached is
covered. -/
theorem covers_of_reachable {package : Nat} (hcomplete : r.Complete fun _ => False)
    (hv : r.Visits (r.graph.children package)) {t : TypeRef}
    (ht : r.graph.Reachable package t) : r.Covers t := by
  induction ht with
  | child hmem => exact h.covers_child hv hmem
  | @mention id n t _ hn hmem ih =>
    cases n with
    | message m =>
      have hid : id ∈ r.visited := by
        cases ih with
        | message _ hid => exact hid
        | map hn' => cases hn.symm.trans hn'
        | leaf _ _ hmessage => exact absurd hn (hmessage m)
      obtain ⟨hvisits, hcovers⟩ := hcomplete id hid not_false m (Graph.message?_of_node? hn)
      have hchildren : r.graph.children id = m.children := by rw [Graph.children, hn]
      rcases List.mem_append.1 hmem with hchild | hfield
      · exact h.covers_child (hchildren.symm ▸ hvisits) (hchildren.symm ▸ hchild)
      · obtain ⟨f, hf, rfl⟩ := List.mem_map.1 hfield
        exact hcovers f hf
    | map key value =>
      have hvalue : r.Covers value := by
        cases ih with
        | message hn' => cases hn.symm.trans hn'
        | map hn' hvalue =>
          obtain ⟨-, rfl⟩ := Node.map.inj (Option.some.inj (hn.symm.trans hn'))
          exact hvalue
        | leaf _ hmap => exact absurd hn (hmap key value)
      rcases List.mem_pair.1 hmem with rfl | rfl
      · exact h.covers_key hn
      · exact hvalue
    | service s => simp [Node.mentions, h.services id s hn] at hmem
    | _ => cases hmem

end Graph.WellTyped

section Whole

variable {g : Graph} {targets : Targets} {package : Nat} {r : Resolution}

theorem slots_yields (hr : g.OnWay targets package r)
    (hcomplete : ∀ t, r.graph.Reachable package t → ¬ r.graph.IsReference t) {id : Nat} {n : Node}
    (hn : g.node? id = some n) (hid : r.graph.Reachable package (.node id)) :
    ∃ n', r.graph.node? id = some n' ∧ n.Slots (g.Yields targets) n' := by
  obtain ⟨n', hn', hslots⟩ := hr.spliced.nodes id n hn
  refine ⟨n', hn', hslots.imp_of_mention fun t t' hmem ht => ht.yields fun href => ?_⟩
  exact hcomplete t' (hid.mention hn' hmem) (hr.spliced.isReference_iff.2 href)

/-- What a walk can come to, it can come to afterwards: a reference by what stands in its place. -/
theorem reachable_of_reached (hr : g.OnWay targets package r)
    (hcomplete : ∀ t, r.graph.Reachable package t → ¬ r.graph.IsReference t) {t t' : TypeRef}
    (ht : g.Reached targets package t) (hyields : g.Yields targets t t') :
    r.graph.Reachable package t' := by
  have hstays : ∀ {t t'}, r.graph.Reachable package t → g.Yields targets t t' →
      r.graph.Reachable package t' := by
    intro t t' hreachable hyields
    have href := mt hr.spliced.isReference_iff.2 (hcomplete t hreachable)
    rwa [Graph.MayYield.eq (.inr hyields) href]
  induction ht generalizing t' with
  | child hmem => exact hstays (.child (hr.spliced.children_eq package ▸ hmem)) hyields
  | @mention id n t _ hn hmem ih =>
    have hnode : ¬ g.IsReference (.node id) := by
      rintro ⟨_, ref, heq, hn'⟩
      obtain rfl := TypeRef.node.inj heq
      obtain rfl := Option.some.inj (hn.symm.trans hn')
      cases hmem
    have hid := ih (.inl ⟨hnode, rfl⟩)
    obtain ⟨n', hn', hslots⟩ := slots_yields hr hcomplete hn hid
    obtain ⟨t'', hmem'', rfl | ht''⟩ := hslots.mention hmem
    · exact hstays (hid.mention hn' hmem'') hyields
    · exact hyields.unique ht'' ▸ hid.mention hn' hmem''
  | target _ hn hresolve ih => exact ih (.of_target hn hresolve hyields)

/-- A walk through all that is declared in a package settles the graph. -/
theorem settled_of_walks (hg : g.WellTyped)
    (h : Walks targets (.children (g.children package)) ⟨g, []⟩ r) :
    g.Settled targets package r.graph := by
  have hr : g.OnWay targets package r :=
    h.onWay trivial (fun t ht => .child ht) (.start g targets package)
  obtain ⟨hcomplete, hvisits⟩ := h.complete trivial
    (show Resolution.Complete ⟨g, []⟩ (fun _ => False) from fun _ hid => nomatch hid)
  have hwell := hg.of_spliced hr.spliced
  have hvisits' : r.Visits (r.graph.children package) := hr.spliced.children_eq package ▸ hvisits
  have hnone : ∀ t, r.graph.Reachable package t → ¬ r.graph.IsReference t := fun t ht =>
    (hwell.covers_of_reachable hcomplete hvisits' ht).not_isReference
  refine ⟨hnone, hr.spliced.size, fun id n hn hid => slots_yields hr hnone hn hid,
    fun id hid => ?_⟩
  by_cases href : g.IsReference (.node id)
  · obtain ⟨_, ref, heq, hn⟩ := href
    obtain rfl := TypeRef.node.inj heq
    exact (hr.spliced.reference_iff.2 hn).trans hn.symm
  · refine hr.untouched id fun hreached => hid ?_
    exact reachable_of_reached hr hnone hreached (.inl ⟨href, rfl⟩)

/-- Where no reference can be reached, walks come to nothing but what can be reached. -/
theorem reachable_of_reached_of_complete
    (hcomplete : ∀ t, g.Reachable package t → ¬ g.IsReference t) {t : TypeRef}
    (ht : g.Reached targets package t) : g.Reachable package t := by
  induction ht with
  | child hmem => exact .child hmem
  | mention _ hn hmem ih => exact ih.mention hn hmem
  | target _ hn _ ih => exact absurd ⟨_, _, rfl, hn⟩ (hcomplete _ ih)

/-- Where no reference can be reached, walks change nothing. -/
theorem graph_eq_of_complete (hcomplete : ∀ t, g.Reachable package t → ¬ g.IsReference t)
    (hr : g.OnWay targets package r) : r.graph = g := by
  refine Graph.ext_node? fun id => ?_
  by_cases hid : g.Reached targets package (.node id)
  · rcases hn : g.node? id with _ | n
    · rcases hn' : r.graph.node? id with _ | n'
      · rfl
      · obtain ⟨n, hsome, -⟩ := hr.spliced.of_node? hn'
        exact nomatch hn.symm.trans hsome
    · obtain ⟨n', hn', hslots⟩ := hr.spliced.nodes id n hn
      have hreachable := reachable_of_reached_of_complete hcomplete hid
      rw [hn', hslots.eq_of_mention fun t t' hmem ht =>
        ht.eq (hcomplete t (hreachable.mention hn hmem))]
  · exact hr.untouched id hid

end Whole

end ApiProto.Proto
