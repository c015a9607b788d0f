import ApiProto.Proofs.Resolution
import ApiProto.Proofs.Walk
import Mathlib.Data.List.Forall2
import Mathlib.Logic.Relation

/-!
# Splicing types in

What a walk leaves of a graph: in the place of a reference stands the type at the end of its chain,
and nothing else is changed.

* `Graph.Next`, `Graph.LeadsTo`, `Graph.ChainMissing`, `Graph.ChainCircular` — chains of references.
* `follow_ok_iff`, `follow_error` — a reference is followed to the end of its chain, unless the chain
  breaks off or is circular.
* `Graph.Yields`, `Node.Slots`, `Graph.Spliced` — what stands in the place of a type, of a node, and
  of a graph.
* `Walks.spliced` — a walk splices types in and does nothing else.
-/

namespace ApiProto.Proto

open Relation

/-! ## Chains of references -/

/-- One step of a chain of references. -/
def Graph.Next (g : Graph) (targets : Targets) (ref next : String) : Prop :=
  ∃ id, targets.resolve ref = .ok (.node id) ∧ g.node? id = some (.reference next)

/-- The type at the end of the chain of a reference. -/
def Graph.LeadsTo (g : Graph) (targets : Targets) (ref : String) (t : TypeRef) : Prop :=
  ∃ last, ReflTransGen (g.Next targets) ref last ∧ targets.resolve last = .ok t ∧
    ¬ g.IsReference t

/-- A chain that comes to a reference that stands for no type, with the error that it stands for. -/
def Graph.ChainMissing (g : Graph) (targets : Targets) (ref : String) (e : Error) : Prop :=
  ∃ last, ReflTransGen (g.Next targets) ref last ∧ targets.resolve last = .error e

/-- A chain that comes to a reference twice. -/
def Graph.ChainCircular (g : Graph) (targets : Targets) (ref : String) : Prop :=
  ∃ via, ReflTransGen (g.Next targets) ref via ∧ TransGen (g.Next targets) via via

section Chains

variable {g g' : Graph} {targets : Targets} {ref next : String} {t t' : TypeRef} {e : Error}

theorem Graph.Next.unique {next' : String} (h : g.Next targets ref next)
    (h' : g.Next targets ref next') : next = next' := by
  obtain ⟨id, hid, hn⟩ := h
  obtain ⟨id', hid', hn'⟩ := h'
  obtain rfl := TypeRef.node.inj (Except.ok.inj (hid.symm.trans hid'))
  exact Node.reference.inj (Option.some.inj (hn.symm.trans hn'))

theorem Graph.next_of_reference? (ht : targets.resolve ref = .ok t)
    (hnext : g.reference? t = some next) : g.Next targets ref next := by
  obtain ⟨id, rfl, hn⟩ := Graph.reference?_eq_some_iff.1 hnext
  exact ⟨id, ht, hn⟩

theorem Graph.not_next_of_ok (ht : targets.resolve ref = .ok t) (href : ¬ g.IsReference t) :
    ¬ g.Next targets ref next := by
  rintro ⟨id, hid, hn⟩
  obtain rfl := Except.ok.inj (ht.symm.trans hid)
  exact href ⟨id, next, rfl, hn⟩

theorem Graph.not_next_of_error (he : targets.resolve ref = .error e) :
    ¬ g.Next targets ref next := by
  rintro ⟨id, hid, -⟩
  exact nomatch he.symm.trans hid

/-- A chain that can go no further is the rest of every chain from the same start. -/
theorem Graph.chain_suffix {last via : String} (hlast : ReflTransGen (g.Next targets) ref last)
    (hend : ∀ next, ¬ g.Next targets last next) (hvia : ReflTransGen (g.Next targets) ref via) :
    ReflTransGen (g.Next targets) via last := by
  have hunique : Relator.RightUnique (g.Next targets) := fun _ _ _ h h' => h.unique h'
  rcases ReflTransGen.total_of_right_unique hunique hlast hvia with hon | hback
  · rcases ReflTransGen.cases_head hon with rfl | ⟨next, hnext, -⟩
    · exact .refl
    · exact absurd hnext (hend next)
  · exact hback

theorem Graph.chain_end_unique {last last' : String}
    (hlast : ReflTransGen (g.Next targets) ref last) (hend : ∀ next, ¬ g.Next targets last next)
    (hlast' : ReflTransGen (g.Next targets) ref last')
    (hend' : ∀ next, ¬ g.Next targets last' next) : last = last' := by
  rcases ReflTransGen.cases_head (Graph.chain_suffix hlast hend hlast') with heq | ⟨_, hnext, -⟩
  · exact heq.symm
  · exact absurd hnext (hend' _)

theorem Graph.LeadsTo.unique (h : g.LeadsTo targets ref t) (h' : g.LeadsTo targets ref t') :
    t = t' := by
  obtain ⟨last, hchain, ht, href⟩ := h
  obtain ⟨last', hchain', ht', href'⟩ := h'
  obtain rfl := Graph.chain_end_unique hchain (fun _ => Graph.not_next_of_ok ht href) hchain'
    fun _ => Graph.not_next_of_ok ht' href'
  exact Except.ok.inj (ht.symm.trans ht')

theorem Graph.LeadsTo.not_missing (h : g.LeadsTo targets ref t) :
    ¬ g.ChainMissing targets ref e := by
  obtain ⟨last, hchain, ht, href⟩ := h
  rintro ⟨last', hchain', he⟩
  obtain rfl := Graph.chain_end_unique hchain (fun _ => Graph.not_next_of_ok ht href) hchain'
    fun _ => Graph.not_next_of_error he
  exact nomatch ht.symm.trans he

/-- All that follows a member of a circle is a member of a circle. -/
theorem Graph.circular_of_chain {via : String} (h : TransGen (g.Next targets) ref ref)
    (hchain : ReflTransGen (g.Next targets) ref via) : TransGen (g.Next targets) via via := by
  induction hchain with
  | refl => exact h
  | tail _ hnext ih =>
    obtain ⟨next', hnext', hback⟩ := TransGen.head'_iff.1 ih
    obtain rfl := hnext.unique hnext'
    exact TransGen.tail' hback hnext

theorem Graph.LeadsTo.not_circular (h : g.LeadsTo targets ref t) :
    ¬ g.ChainCircular targets ref := by
  obtain ⟨last, hchain, ht, href⟩ := h
  rintro ⟨via, hvia, hcircle⟩
  have hend : ∀ next, ¬ g.Next targets last next := fun _ => Graph.not_next_of_ok ht href
  obtain ⟨next, hnext, -⟩ :=
    TransGen.head'_iff.1 (Graph.circular_of_chain hcircle (Graph.chain_suffix hchain hend hvia))
  exact hend next hnext

theorem leadsTo_of_followFrom {start : String} {seen : List String}
    (h : followFrom g targets start seen ref = .ok t) : g.LeadsTo targets ref t := by
  fun_induction followFrom g targets start seen ref with
  | case1 => cases h
  | case2 => cases h
  | case3 seen ref _ t' ht next hnext ih =>
    obtain ⟨last, hchain, hlast⟩ := ih h
    exact ⟨last, .head (Graph.next_of_reference? ht hnext) hchain, hlast⟩
  | case4 seen ref _ t' ht hlast =>
    obtain rfl := Except.ok.inj h
    exact ⟨ref, .refl, ht, Graph.reference?_eq_none_iff.1 hlast⟩

/-- If a chain cannot be followed from a place on, then it breaks off or is circular. -/
theorem followFrom_error {start : String} {seen : List String}
    (hseen : ∀ via ∈ seen, TransGen (g.Next targets) via ref)
    (h : followFrom g targets start seen ref = .error e) :
    g.ChainMissing targets ref e ∨ g.ChainCircular targets ref ∧ e.cause = .unresolved start := by
  fun_induction followFrom g targets start seen ref with
  | case1 seen ref hs =>
    obtain rfl := Except.error.inj h
    exact .inr ⟨⟨ref, .refl, hseen ref (by simpa using hs)⟩, rfl⟩
  | case2 seen ref _ e' he =>
    obtain rfl := Except.error.inj h
    exact .inl ⟨ref, .refl, he⟩
  | case3 seen ref _ t' ht next hn ih =>
    have hnext : g.Next targets ref next := Graph.next_of_reference? ht hn
    have hchain := ih (fun via hvia => by
      rcases List.mem_cons.1 hvia with rfl | hvia
      · exact .single hnext
      · exact (hseen via hvia).tail hnext) h
    refine hchain.imp ?_ (And.imp_left ?_)
    · rintro ⟨last, hlast, he⟩
      exact ⟨last, .head hnext hlast, he⟩
    · rintro ⟨via, hvia, hcircle⟩
      exact ⟨via, .head hnext hvia, hcircle⟩
  | case4 => cases h

/-- A reference that cannot be followed has a chain that breaks off or is circular. -/
theorem follow_error (h : follow g targets ref = .error e) :
    g.ChainMissing targets ref e ∨ g.ChainCircular targets ref ∧ e.cause = .unresolved ref :=
  followFrom_error (by simp) h

/-- A reference is followed to the end of its chain. -/
theorem follow_ok_iff : follow g targets ref = .ok t ↔ g.LeadsTo targets ref t := by
  refine ⟨leadsTo_of_followFrom, fun h => ?_⟩
  rcases hfollow : follow g targets ref with e | t'
  · rcases follow_error hfollow with hmissing | ⟨hcircular, -⟩
    · exact absurd hmissing h.not_missing
    · exact absurd hcircular h.not_circular
  · rw [h.unique (leadsTo_of_followFrom hfollow)]

end Chains

/-! ## Splicing -/

/-- The type that stands for a type when references are resolved. -/
def Graph.Yields (g : Graph) (targets : Targets) (t t' : TypeRef) : Prop :=
  (¬ g.IsReference t ∧ t' = t) ∨
    ∃ id ref, t = .node id ∧ g.node? id = some (.reference ref) ∧ follow g targets ref = .ok t'

/-- What stands in the place of a type on the way. -/
def Graph.MayYield (g : Graph) (targets : Targets) (t t' : TypeRef) : Prop :=
  t' = t ∨ g.Yields targets t t'

/-- Nodes that differ at most in the types that their fields have or that they map to. -/
inductive Node.Slots (R : TypeRef → TypeRef → Prop) : Node → Node → Prop
  | message {m : Message} {fields : List (Field TypeRef Value)} :
      List.Forall₂ (fun f f' => ∃ t, R f.type t ∧ f' = { f with type := t }) m.fields fields →
      Node.Slots R (.message m) (.message { m with fields := fields })
  | map {key value value' : TypeRef} : R value value' →
      Node.Slots R (.map key value) (.map key value')
  | other {n : Node} : (∀ m, n ≠ .message m) → (∀ key value, n ≠ .map key value) → Node.Slots R n n

/-- A graph in which types may have been spliced in for references. -/
structure Graph.Spliced (g : Graph) (targets : Targets) (g' : Graph) : Prop where
  size : g'.size = g.size
  nodes : ∀ id n, g.node? id = some n →
    ∃ n', g'.node? id = some n' ∧ n.Slots (g.MayYield targets) n'

theorem forall₂_trans {α : Type} {R R' R'' : α → α → Prop}
    (hR : ∀ a a' a'', R a a' → R' a' a'' → R'' a a'') {l l' l'' : List α} (h : List.Forall₂ R l l')
    (h' : List.Forall₂ R' l' l'') : List.Forall₂ R'' l l'' := by
  induction h generalizing l'' with
  | nil =>
    cases h'
    exact .nil
  | cons hfirst _ ih =>
    cases h' with
    | cons hfirst' hrest' => exact .cons (hR _ _ _ hfirst hfirst') (ih hrest')

theorem forall₂_getElem? {α β : Type} {R : α → β → Prop} {l : List α} {l' : List β}
    (h : List.Forall₂ R l l') {i : Nat} {a : α} (ha : l[i]? = some a) :
    ∃ b, l'[i]? = some b ∧ R a b := by
  induction h generalizing i with
  | nil => cases ha
  | cons hfirst _ ih =>
    cases i with
    | zero =>
      obtain rfl := Option.some.inj ha
      exact ⟨_, rfl, hfirst⟩
    | succ i => exact ih ha

theorem forall₂_imp_of_mem {α β : Type} {R S : α → β → Prop} {l : List α} {l' : List β}
    (h : List.Forall₂ R l l') (hS : ∀ a b, b ∈ l' → R a b → S a b) : List.Forall₂ S l l' := by
  induction h with
  | nil => exact .nil
  | cons hfirst _ ih =>
    exact .cons (hS _ _ (List.mem_cons_self ..) hfirst)
      (ih fun a b hb => hS a b (List.mem_cons_of_mem _ hb))

namespace Node.Slots

variable {R R' R'' : TypeRef → TypeRef → Prop} {n n' n'' : Node}

theorem refl (hR : ∀ t, R t t) (n : Node) : n.Slots R n := by
  cases n with
  | message m => exact .message (List.forall₂_same.2 fun f _ => ⟨f.type, hR _, rfl⟩)
  | map key value => exact .map (hR value)
  | _ => exact .other nofun nofun

theorem imp_of_mention (hR : ∀ t t', t' ∈ n'.mentions → R t t' → R' t t') (h : n.Slots R n') :
    n.Slots R' n' := by
  cases h with
  | message hfields =>
    refine .message (forall₂_imp_of_mem hfields fun f f' hf' => ?_)
    rintro ⟨t, ht, rfl⟩
    exact ⟨t, hR _ _ (List.mem_append_right _ (List.mem_map.2 ⟨_, hf', rfl⟩)) ht, rfl⟩
  | map hvalue => exact .map (hR _ _ (by simp [mentions]) hvalue)
  | other hmessage hmap => exact .other hmessage hmap

/-- Nodes with the same types in their places are the same. -/
theorem eq_of_mention (hR : ∀ t t', t ∈ n.mentions → R t t' → t' = t) (h : n.Slots R n') :
    n' = n := by
  cases h with
  | @message m fields hfields =>
    have heq : List.Forall₂ Eq fields m.fields := by
      refine forall₂_imp_of_mem hfields.flip fun f' f hf => ?_
      rintro ⟨t, ht, rfl⟩
      rw [hR _ _ (List.mem_append_right _ (List.mem_map.2 ⟨f, hf, rfl⟩)) ht]
    rw [List.forall₂_eq_eq_eq] at heq
    rw [heq]
  | @map key value value' hvalue => rw [hR _ _ (by simp [mentions]) hvalue]
  | other => rfl

/-- What a node mentions is still mentioned, or what has taken its place is. -/
theorem mention (h : n.Slots R n') {t : TypeRef} (ht : t ∈ n.mentions) :
    ∃ t' ∈ n'.mentions, t' = t ∨ R t t' := by
  cases h with
  | @message m fields hfields =>
    rcases List.mem_append.1 ht with hchild | hfield
    · exact ⟨t, List.mem_append_left _ hchild, .inl rfl⟩
    · obtain ⟨f, hf, rfl⟩ := List.mem_map.1 hfield
      obtain ⟨i, hi⟩ := List.mem_iff_getElem?.1 hf
      obtain ⟨f', hf', t', ht', rfl⟩ := forall₂_getElem? hfields hi
      exact ⟨t', List.mem_append_right _ (List.mem_map.2 ⟨_, List.mem_of_getElem? hf', rfl⟩), .inr ht'⟩
  | @map key value value' hvalue =>
    rcases List.mem_pair.1 ht with rfl | rfl
    · exact ⟨t, by simp [mentions], .inl rfl⟩
    · exact ⟨value', by simp [mentions], .inr hvalue⟩
  | other => exact ⟨t, ht, .inl rfl⟩

theorem trans (hR : ∀ t t' t'', R t t' → R' t' t'' → R'' t t'') (h : n.Slots R n')
    (h' : n'.Slots R' n'') : n.Slots R'' n'' := by
  cases h with
  | @message m fields hfields =>
    cases h' with
    | message hfields' =>
      refine .message ?_
      refine forall₂_trans (fun f f' f'' => ?_) hfields hfields'
      rintro ⟨t, ht, rfl⟩ ⟨t', ht', rfl⟩
      exact ⟨t', hR _ _ _ ht ht', rfl⟩
    | other hmessage => exact absurd rfl (hmessage _)
  | map hvalue =>
    cases h' with
    | map hvalue' => exact .map (hR _ _ _ hvalue hvalue')
    | other _ hmap => exact absurd rfl (hmap _ _)
  | other hmessage hmap =>
    cases h' with
    | message => exact absurd rfl (hmessage _)
    | map => exact absurd rfl (hmap _ _)
    | other => exact .other hmessage hmap

theorem setFieldType (hR : ∀ t, R t t) {m : Message} {f : Field TypeRef Value} {i : Nat}
    {t : TypeRef} (hf : m.fields[i]? = some f) (ht : R f.type t) :
    (Node.message m).Slots R (.message (m.setFieldType i t)) := by
  refine .message ?_
  generalize m.fields = fields at hf ⊢
  induction fields generalizing i with
  | nil => cases hf
  | cons f₀ fields ih =>
    cases i with
    | zero =>
      obtain rfl := Option.some.inj hf
      exact .cons ⟨t, ht, rfl⟩ (List.forall₂_same.2 fun f _ => ⟨f.type, hR _, rfl⟩)
    | succ i => exact .cons ⟨f₀.type, hR _, rfl⟩ (ih hf)

end Node.Slots

section Splicing

variable {g g' g'' : Graph} {targets : Targets} {t t' t'' : TypeRef}

theorem Graph.Yields.not_isReference (h : g.Yields targets t t') : ¬ g.IsReference t' := by
  rcases h with ⟨href, rfl⟩ | ⟨id, ref, rfl, hn, hfollow⟩
  · exact href
  · obtain ⟨-, -, -, href⟩ := follow_ok_iff.1 hfollow
    exact href

theorem Graph.Yields.unique (h : g.Yields targets t t') (h' : g.Yields targets t t'') :
    t' = t'' := by
  rcases h with ⟨href, rfl⟩ | ⟨id, ref, rfl, hn, hfollow⟩
  · rcases h' with ⟨-, rfl⟩ | ⟨id, ref, rfl, hn, -⟩
    · rfl
    · exact absurd ⟨id, ref, rfl, hn⟩ href
  · rcases h' with ⟨href, -⟩ | ⟨_, _, heq, hn', hfollow'⟩
    · exact absurd ⟨id, ref, rfl, hn⟩ href
    · obtain rfl := TypeRef.node.inj heq
      obtain rfl := Node.reference.inj (Option.some.inj (hn.symm.trans hn'))
      exact Except.ok.inj (hfollow.symm.trans hfollow')

/-- A reference yields what the type that it names yields. -/
theorem Graph.Yields.of_target {id : Nat} {ref : String} (hn : g.node? id = some (.reference ref))
    (ht : targets.resolve ref = .ok t) (h : g.Yields targets t t') :
    g.Yields targets (.node id) t' := by
  refine .inr ⟨id, ref, rfl, hn, follow_ok_iff.2 ?_⟩
  rcases h with ⟨href, rfl⟩ | ⟨k, next, rfl, hk, hfollow⟩
  · exact ⟨ref, .refl, ht, href⟩
  · obtain ⟨last, hchain, hlast⟩ := follow_ok_iff.1 hfollow
    exact ⟨last, .head ⟨k, ht, hk⟩ hchain, hlast⟩

/-- What is no reference in the end stands for what was there. -/
theorem Graph.MayYield.yields (h : g.MayYield targets t t') (href : ¬ g.IsReference t') :
    g.Yields targets t t' := by
  rcases h with rfl | h
  · exact .inl ⟨href, rfl⟩
  · exact h

/-- What is no reference stays where it is. -/
theorem Graph.MayYield.eq (h : g.MayYield targets t t') (href : ¬ g.IsReference t) : t' = t := by
  rcases h with heq | ⟨-, heq⟩ | ⟨id, ref, rfl, hn, -⟩
  · exact heq
  · exact heq
  · exact absurd ⟨id, ref, rfl, hn⟩ href

namespace Graph.Spliced

theorem refl (g : Graph) : g.Spliced targets g :=
  ⟨rfl, fun _ n hn => ⟨n, hn, .refl (fun _ => .inl rfl) n⟩⟩

theorem put (h : g.Spliced targets g') {id : Nat} {n n' : Node} (hn : g.node? id = some n)
    (hslots : n.Slots (g.MayYield targets) n') : g.Spliced targets (g'.put id n') where
  size := (size_put g' id n').trans h.size
  nodes k n₀ hk := by
    rw [node?_put]
    split
    · next heq =>
      obtain rfl := heq.1
      obtain rfl := Option.some.inj (hn.symm.trans hk)
      exact ⟨n', rfl, hslots⟩
    · exact h.nodes k n₀ hk

variable (h : g.Spliced targets g')
include h

theorem of_node? {id : Nat} {n' : Node} (hn' : g'.node? id = some n') :
    ∃ n, g.node? id = some n ∧ n.Slots (g.MayYield targets) n' := by
  obtain ⟨n, hn⟩ := node?_isSome (h.size ▸ lt_size_of_node? hn')
  obtain ⟨n'', hn'', hslots⟩ := h.nodes id n hn
  obtain rfl := Option.some.inj (hn'.symm.trans hn'')
  exact ⟨n, hn, hslots⟩

theorem message?_of_some {id : Nat} {m' : Message} (hm' : g'.message? id = some m') :
    ∃ m, g.message? id = some m ∧ m'.children = m.children ∧
      List.Forall₂ (fun f f' => ∃ t, g.MayYield targets f.type t ∧ f' = { f with type := t })
        m.fields m'.fields := by
  obtain ⟨n, hn, hslots⟩ := h.of_node? (node?_of_message? hm')
  cases hslots with
  | message hfields => exact ⟨_, message?_of_node? hn, rfl, hfields⟩
  | other hmessage => exact absurd rfl (hmessage _)

/-- References stay what they are. -/
theorem reference_iff {id : Nat} {ref : String} :
    g'.node? id = some (.reference ref) ↔ g.node? id = some (.reference ref) := by
  constructor
  · intro hn'
    obtain ⟨n, hn, hslots⟩ := h.of_node? hn'
    cases hslots
    exact hn
  · intro hn
    obtain ⟨n', hn', hslots⟩ := h.nodes id _ hn
    cases hslots
    exact hn'

theorem isReference_iff : g'.IsReference t ↔ g.IsReference t := by
  simp only [Graph.IsReference, h.reference_iff]

theorem children_eq (id : Nat) : g'.children id = g.children id := by
  unfold Graph.children
  rcases hn : g.node? id with _ | n
  · rcases hn' : g'.node? id with _ | n'
    · rfl
    · obtain ⟨n, hsome, -⟩ := h.of_node? hn'
      exact nomatch hn.symm.trans hsome
  · obtain ⟨n', hn', hslots⟩ := h.nodes id n hn
    rw [hn']
    cases hslots <;> rfl

theorem next_eq : g'.Next targets = g.Next targets := by
  funext ref next
  simp only [Graph.Next, h.reference_iff]

theorem yields_iff : g'.Yields targets t t' ↔ g.Yields targets t t' := by
  simp only [Graph.Yields, follow_ok_iff, Graph.LeadsTo, h.next_eq, h.isReference_iff,
    h.reference_iff]

theorem trans (h' : g'.Spliced targets g'') : g.Spliced targets g'' where
  size := h'.size.trans h.size
  nodes id n hn := by
    obtain ⟨n', hn', hslots⟩ := h.nodes id n hn
    obtain ⟨n'', hn'', hslots'⟩ := h'.nodes id n' hn'
    refine ⟨n'', hn'', hslots.trans (fun t t' t'' ht ht' => ?_) hslots'⟩
    rcases ht with rfl | ht
    · exact ht'.imp_right h.yields_iff.1
    · rcases ht' with rfl | ⟨-, rfl⟩ | ⟨id, ref, rfl, href, -⟩
      · exact .inr ht
      · exact .inr ht
      · exact absurd ⟨id, ref, rfl, h.reference_iff.1 href⟩ ht.not_isReference

end Graph.Spliced

end Splicing

/-! ## Walks -/

/-- The fields that are to be resolved are those of the message. -/
def Task.Current (r : Resolution) : Task → Prop
  | .fields id l => id ∈ r.visited ∧ (l.map Prod.snd).Nodup ∧
      ∃ m, r.graph.message? id = some m ∧ ∀ entry ∈ l, m.fields[entry.2]? = some entry.1
  | _ => True

namespace Walks

variable {targets : Targets} {task : Task} {r r₁ r' : Resolution} {t t' : TypeRef}

theorem eq_of_not_isReference (h : Walks targets (.type t t') r r')
    (href : ¬ r.graph.IsReference t) : t' = t := by
  cases h with
  | reference hn => exact absurd ⟨_, _, rfl, hn⟩ href
  | builtin | map | declared | leaf => rfl

/-- A walk through a type gives the type that stands for it. -/
theorem yields (h : Walks targets (.type t t') r r') : r.graph.Yields targets t t' := by
  by_cases href : r.graph.IsReference t
  · obtain ⟨id, ref, rfl, hn⟩ := href
    cases h with
    | reference hn' hfollow hwalk =>
      obtain rfl := Node.reference.inj (Option.some.inj (hn.symm.trans hn'))
      obtain ⟨-, -, -, hend⟩ := follow_ok_iff.1 hfollow
      rw [hwalk.eq_of_not_isReference hend]
      exact .inr ⟨id, ref, rfl, hn, hfollow⟩
    | map hn' => exact nomatch hn.symm.trans hn'
    | declared hn' => exact nomatch hn.symm.trans hn'
    | leaf hn' => exact absurd hn (hn' ref)
  · exact .inl ⟨href, h.eq_of_not_isReference href⟩

/-- When the declarations in a message have been resolved, its fields are still to be resolved. -/
theorem current_fields {id : Nat} {m : Message} (hm : r.graph.message? id = some m)
    (h : Walks targets (.children m.children) (r.visit id) r₁) :
    (Task.fields id m.fields.zipIdx).Current r₁ := by
  have hid : id ∈ (r.visit id).visited := List.mem_cons_self ..
  refine ⟨h.visited_subset hid, ?_, m, h.message?_of_visited hid hm nofun, ?_⟩
  · rw [List.zipIdx_map_snd]
    exact List.nodup_range'
  · exact fun entry hentry => List.mem_zipIdx_iff_getElem?.1 hentry

/-- When a field has been resolved, the others are still to be resolved. -/
theorem current_rest {id i : Nat} {f : Field TypeRef Value}
    {rest : List (Field TypeRef Value × Nat)} (h : Walks targets (.type f.type t) r r₁)
    (hc : (Task.fields id ((f, i) :: rest)).Current r) :
    (Task.fields id rest).Current (r₁.setFieldType id i t) := by
  obtain ⟨hid, hnodup, m, hm, hfields⟩ := hc
  obtain ⟨hi, hnodup⟩ := List.nodup_cons.1 hnodup
  refine ⟨by simpa using h.visited_subset hid, hnodup, m.setFieldType i t,
    Graph.message?_of_node? (Resolution.node?_setFieldType (h.message?_of_visited hid hm nofun) i t),
    fun entry hentry => ?_⟩
  have hother : i ≠ entry.2 := fun heq => hi (List.mem_map.2 ⟨entry, hentry, heq.symm⟩)
  have hsame := hfields entry (List.mem_cons_of_mem _ hentry)
  simp only [Message.setFieldType, List.getElem?_modify, hsame, if_neg hother, Option.map_eq_map,
    Option.map_some]

theorem setMapValue_spliced {id : Nat} {key value value' : TypeRef}
    (hn : r.graph.node? id = some (.map key value)) (h : Walks targets (.type value value') r r₁)
    (hs : r.graph.Spliced targets r₁.graph) :
    r₁.graph.Spliced targets (r₁.setMapValue id key value').graph := by
  obtain ⟨n₁, hn₁, hslots⟩ := hs.nodes id _ hn
  cases hslots with
  | @map _ _ value₁ hvalue =>
    refine Graph.Spliced.put (.refl _) hn₁ (.map ?_)
    rcases hvalue with rfl | hvalue
    · exact .inr (hs.yields_iff.2 h.yields)
    · exact .inl (h.yields.unique hvalue)
  | other _ hmap => exact absurd rfl (hmap _ _)

theorem setFieldType_spliced {id i : Nat} {f : Field TypeRef Value}
    {rest : List (Field TypeRef Value × Nat)} (hc : (Task.fields id ((f, i) :: rest)).Current r)
    (h : Walks targets (.type f.type t) r r₁) (hs : r.graph.Spliced targets r₁.graph) :
    r₁.graph.Spliced targets (r₁.setFieldType id i t).graph := by
  obtain ⟨hid, -, m, hm, hfields⟩ := hc
  have hm₁ := h.message?_of_visited hid hm nofun
  rw [Resolution.setFieldType, hm₁]
  refine Graph.Spliced.put (.refl _) (Graph.node?_of_message? hm₁) ?_
  exact .setFieldType (fun _ => .inl rfl) (hfields _ (List.mem_cons_self ..))
    (.inr (hs.yields_iff.2 h.yields))

/-- A walk splices types in and does nothing else. -/
theorem spliced (h : Walks targets task r r') (hc : task.Current r) :
    r.graph.Spliced targets r'.graph := by
  induction h with
  | builtin | leaf | noMessage | visited | noChildren | noFields => exact .refl _
  | reference _ _ _ ih | declared _ _ ih | builtinChild _ ih => exact ih trivial
  | map hn hvalue ih => exact (ih trivial).trans (hvalue.setMapValue_spliced hn (ih trivial))
  | fresh hm _ hchildren _ ih ih' => exact (ih trivial).trans (ih' (current_fields hm hchildren))
  | child _ _ ih ih' => exact (ih trivial).trans (ih' trivial)
  | field htype _ ih ih' =>
    have hset := htype.setFieldType_spliced hc (ih trivial)
    exact (ih trivial).trans (hset.trans (ih' (current_rest htype hc)))

end Walks

end ApiProto.Proto
