import ApiProto.Proofs.Splicing

/-!
# Coverage

A walk leaves no references behind: what it has resolved holds none, through maps and through the
messages that it has visited.

* `Resolution.Covers` — types that hold no references, but for what visited messages hold.
* `Resolution.Finished`, `Resolution.Complete` — messages of which all has been resolved, and walks
  on which all visited messages are finished, but for those in which the walk still is.
* `Walks.complete` — a walk finishes all messages that it visits.
-/

namespace ApiProto.Proto

namespace Resolution

/-- A type that holds no references, but for what visited messages hold. -/
inductive Covers (r : Resolution) : TypeRef → Prop
  | builtin (b : Builtin) : r.Covers (.builtin b)
  | message {id : Nat} {m : Message} : r.graph.node? id = some (.message m) → id ∈ r.visited →
      r.Covers (.node id)
  | map {id : Nat} {key value : TypeRef} : r.graph.node? id = some (.map key value) →
      r.Covers value → r.Covers (.node id)
  /-- A type that holds no others. -/
  | leaf {id : Nat} : (∀ ref, r.graph.node? id ≠ some (.reference ref)) →
      (∀ key value, r.graph.node? id ≠ some (.map key value)) →
      (∀ m, r.graph.node? id ≠ some (.message m)) → r.Covers (.node id)

/-- The messages among some declarations have been visited. -/
def Visits (r : Resolution) (l : List TypeRef) : Prop :=
  ∀ id m, .node id ∈ l → r.graph.message? id = some m → id ∈ r.visited

/-- A message of which all has been resolved. -/
def Finished (r : Resolution) (id : Nat) : Prop :=
  ∀ m, r.graph.message? id = some m → r.Visits m.children ∧ ∀ f ∈ m.fields, r.Covers f.type

/-- All visited messages are finished, but for those in which the walk still is. -/
def Complete (r : Resolution) (within : Nat → Prop) : Prop :=
  ∀ id ∈ r.visited, ¬ within id → r.Finished id

section Monotone

variable {targets : Targets} {r r' : Resolution} {t : TypeRef}

theorem Covers.not_isReference (h : r.Covers t) : ¬ r.graph.IsReference t := by
  rintro ⟨id, ref, rfl, hn⟩
  cases h with
  | message hn' => exact nomatch hn.symm.trans hn'
  | map hn' => exact nomatch hn.symm.trans hn'
  | leaf hn' => exact hn' ref hn

variable (hs : r.graph.Spliced targets r'.graph) (hv : r.visited ⊆ r'.visited)
include hs hv

/-- What is covered stays covered. -/
theorem Covers.mono (h : r.Covers t) : r'.Covers t := by
  induction h with
  | builtin b => exact .builtin b
  | message hn hid =>
    obtain ⟨n', hn', hslots⟩ := hs.nodes _ _ hn
    cases hslots with
    | message => exact .message hn' (hv hid)
    | other hmessage => exact absurd rfl (hmessage _)
  | @map id key value hn hvalue ih =>
    obtain ⟨n', hn', hslots⟩ := hs.nodes _ _ hn
    cases hslots with
    | map hyield => exact .map hn' (hyield.eq hvalue.not_isReference ▸ ih)
    | other _ hmap => exact absurd rfl (hmap _ _)
  | @leaf id href hmap hmessage =>
    refine .leaf (fun ref hn' => href ref (hs.reference_iff.1 hn')) (fun key value hn' => ?_)
      fun m hn' => ?_
    · obtain ⟨n, hn, hslots⟩ := hs.of_node? hn'
      cases hslots with
      | map => exact hmap _ _ hn
      | other _ hmap' => exact hmap' _ _ rfl
    · obtain ⟨n, hn, hslots⟩ := hs.of_node? hn'
      cases hslots with
      | message => exact hmessage _ hn
      | other hmessage' => exact hmessage' _ rfl

theorem Visits.mono {l : List TypeRef} (h : r.Visits l) : r'.Visits l := by
  intro id m hmem hm'
  obtain ⟨m₀, hm₀, -⟩ := hs.message?_of_some hm'
  exact hv (h id m₀ hmem hm₀)

theorem Finished.mono {id : Nat} (h : r.Finished id) : r'.Finished id := by
  intro m' hm'
  obtain ⟨m, hm, hchildren, hfields⟩ := hs.message?_of_some hm'
  obtain ⟨hvisits, hcovers⟩ := h m hm
  refine ⟨hchildren ▸ hvisits.mono hs hv, fun f' hf' => ?_⟩
  obtain ⟨i, hi⟩ := List.mem_iff_getElem?.1 hf'
  obtain ⟨f, hf, t, ht, rfl⟩ := forall₂_getElem? hfields.flip hi
  have hcover := hcovers f (List.mem_of_getElem? hf)
  exact ht.eq hcover.not_isReference ▸ hcover.mono hs hv

end Monotone

theorem Complete.of_spliced {targets : Targets} {r r' : Resolution} {within : Nat → Prop}
    (h : r.Complete within) (hs : r.graph.Spliced targets r'.graph) (hv : r'.visited = r.visited) :
    r'.Complete within := fun id hid hwithin =>
  (h id (hv ▸ hid) hwithin).mono hs fun _ hk => hv ▸ hk

/-- A message that is visited stays open while what it holds is resolved. -/
theorem Complete.visit {r : Resolution} {within : Nat → Prop} (h : r.Complete within) (id : Nat) :
    (r.visit id).Complete fun k => k = id ∨ within k := by
  intro k hk hwithin
  rcases List.mem_cons.1 hk with rfl | hk
  · exact absurd (.inl rfl) hwithin
  · have hs : r.graph.Spliced (.ofTable []) (r.visit id).graph := .refl _
    exact (h k hk fun hw => hwithin (.inr hw)).mono hs (List.subset_cons_self ..)

/-- When a message is finished, it is open no longer. -/
theorem Complete.close {r : Resolution} {within : Nat → Prop} {id : Nat}
    (h : r.Complete fun k => k = id ∨ within k) (hid : r.Finished id) : r.Complete within := by
  intro k hk hwithin
  by_cases heq : k = id
  · exact heq ▸ hid
  · exact h k hk fun hor => hor.elim heq hwithin

end Resolution

/-- What a walk has achieved in the end. -/
def Task.Done (r : Resolution) : Task → Prop
  | .type _ t' => r.Covers t'
  | .message id => r.Visits [.node id]
  | .children l => r.Visits l
  | .fields id l => ∀ m, r.graph.message? id = some m →
      ∀ entry ∈ l, ∃ f, m.fields[entry.2]? = some f ∧ r.Covers f.type

namespace Walks

variable {targets : Targets} {task : Task} {r r₁ r' : Resolution}

/-- What has been achieved for the fields of a message finishes it. -/
theorem finished_of_fields {id : Nat} {m : Message} (hm : r.graph.message? id = some m)
    (hs : r.graph.Spliced targets r'.graph) (hchildren : r'.Visits m.children)
    (hfields : (Task.fields id m.fields.zipIdx).Done r') : r'.Finished id := by
  intro m' hm'
  obtain ⟨m₀, hm₀, heq, hforall⟩ := hs.message?_of_some hm'
  obtain rfl := Option.some.inj (hm.symm.trans hm₀)
  refine ⟨heq ▸ hchildren, fun f' hf' => ?_⟩
  obtain ⟨i, hi⟩ := List.mem_iff_getElem?.1 hf'
  obtain ⟨f, hf, -⟩ := forall₂_getElem? hforall.flip hi
  obtain ⟨f'', hf'', hcover⟩ := hfields m' hm' (f, i) (List.mem_zipIdx_iff_getElem?.2 hf)
  obtain rfl := Option.some.inj (hi.symm.trans hf'')
  exact hcover

/-- What has been achieved for a field, and for the others after it. -/
theorem done_fields {id i : Nat} {m : Message} {f : Field TypeRef Value}
    {rest : List (Field TypeRef Value × Nat)} {t : TypeRef}
    (hm : r.graph.message? id = some m) (hf : m.fields[i]? = some { f with type := t })
    (hs : r.graph.Spliced targets r'.graph) (hv : r.visited ⊆ r'.visited) (ht : r.Covers t)
    (hrest : (Task.fields id rest).Done r') : (Task.fields id ((f, i) :: rest)).Done r' := by
  intro m' hm' entry hentry
  rcases List.mem_cons.1 hentry with rfl | hentry
  · obtain ⟨m₀, hm₀, -, hforall⟩ := hs.message?_of_some hm'
    obtain rfl := Option.some.inj (hm.symm.trans hm₀)
    obtain ⟨f', hf', t', ht', rfl⟩ := forall₂_getElem? hforall hf
    refine ⟨_, hf', ?_⟩
    exact ht'.eq ht.not_isReference ▸ ht.mono hs hv
  · exact hrest m' hm' entry hentry

/-- A walk finishes all messages that it visits. -/
theorem complete (h : Walks targets task r r') (hc : task.Current r) {within : Nat → Prop}
    (hr : r.Complete within) : r'.Complete within ∧ task.Done r' := by
  induction h generalizing within with
  | builtin => exact ⟨hr, .builtin _⟩
  | reference _ _ _ ih => exact ih trivial hr
  | @map id key value value' r r₁ hn hvalue ih =>
    obtain ⟨hcomplete, hcover⟩ := ih trivial hr
    have hs := hvalue.spliced trivial
    have hset := hvalue.setMapValue_spliced hn hs
    have hn' : (r₁.setMapValue id key value').graph.node? id = some (.map key value') :=
      Resolution.node?_setMapValue (hs.size ▸ Graph.lt_size_of_node? hn) key value'
    exact ⟨hcomplete.of_spliced hset rfl, .map hn' (hcover.mono hset (List.Subset.refl _))⟩
  | @declared id m r r' hn hmessage ih =>
    obtain ⟨hcomplete, hdone⟩ := ih trivial hr
    obtain ⟨n', hn', hslots⟩ := (hmessage.spliced trivial).nodes _ _ hn
    cases hslots with
    | message hfields =>
      exact ⟨hcomplete, .message hn' (hdone id _ (List.mem_singleton.2 rfl)
        (Graph.message?_of_node? hn'))⟩
    | other hnone => exact absurd rfl (hnone _)
  | leaf hreference hmap hmessage => exact ⟨hr, .leaf hreference hmap hmessage⟩
  | noMessage hnone =>
    refine ⟨hr, fun id m hid hm => ?_⟩
    obtain rfl := TypeRef.node.inj (List.mem_singleton.1 hid)
    exact nomatch hnone.symm.trans hm
  | visited hv =>
    refine ⟨hr, fun id m hid hm => ?_⟩
    obtain rfl := TypeRef.node.inj (List.mem_singleton.1 hid)
    exact hv
  | @fresh id m r r₁ r' hm hv hchildren hfields ih ih' =>
    obtain ⟨hcomplete, hvisits⟩ := ih trivial (hr.visit id)
    have hcurrent := current_fields hm hchildren
    obtain ⟨hcomplete', hdone⟩ := ih' hcurrent hcomplete
    have hs := hfields.spliced hcurrent
    have hid : id ∈ r'.visited := hfields.visited_subset hcurrent.1
    have hm₁ := hchildren.message?_of_visited (List.mem_cons_self ..) hm nofun
    have hfinished :=
      finished_of_fields hm₁ hs (hvisits.mono hs hfields.visited_subset) hdone
    refine ⟨hcomplete'.close hfinished, fun k m' hk _ => ?_⟩
    obtain rfl := TypeRef.node.inj (List.mem_singleton.1 hk)
    exact hid
  | noChildren => exact ⟨hr, fun _ _ hid => nomatch hid⟩
  | builtinChild _ ih =>
    obtain ⟨hcomplete, hdone⟩ := ih trivial hr
    refine ⟨hcomplete, fun id m hid hm => ?_⟩
    rcases List.mem_cons.1 hid with heq | hid
    · cases heq
    · exact hdone id m hid hm
  | @child id rest r r₁ r' hfirst hrest ih ih' =>
    obtain ⟨hcomplete, hdone⟩ := ih trivial hr
    obtain ⟨hcomplete', hdone'⟩ := ih' trivial hcomplete
    have hdone := hdone.mono (hrest.spliced trivial) hrest.visited_subset
    refine ⟨hcomplete', fun k m hk hm => ?_⟩
    rcases List.mem_cons.1 hk with heq | hk
    · exact hdone k m (List.mem_singleton.2 heq) hm
    · exact hdone' k m hk hm
  | noFields => exact ⟨hr, fun _ _ _ hentry => nomatch hentry⟩
  | @field id i f rest t r r₁ r' htype hrest ih ih' =>
    obtain ⟨hcomplete, hcover⟩ := ih trivial hr
    have hset := htype.setFieldType_spliced hc (htype.spliced trivial)
    have hcurrent := current_rest htype hc
    obtain ⟨hcomplete', hdone⟩ :=
      ih' hcurrent (hcomplete.of_spliced hset (Resolution.visited_setFieldType ..))
    obtain ⟨hid, -, m, hm, hfields⟩ := hc
    have hm₁ := Resolution.node?_setFieldType (htype.message?_of_visited hid hm nofun) i t
    have hf : (m.setFieldType i t).fields[i]? = some { f with type := t } := by
      simp [Message.setFieldType, hfields _ (List.mem_cons_self ..)]
    have hcover' := hcover.mono hset fun _ hk => by simpa using hk
    exact ⟨hcomplete', done_fields (Graph.message?_of_node? hm₁) hf (hrest.spliced hcurrent)
      hrest.visited_subset hcover' hdone⟩

end Walks

end ApiProto.Proto
