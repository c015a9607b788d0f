import ApiProto.Proofs.Closed
import ApiProto.Proofs.ResolutionSteps

/-!
# Resolution

Resolution puts types in the places of references and changes nothing else: what a message or a map
holds besides references stays, and so do all names and declarations.

* `Graph.IsReference`, `Graph.MayBecome` — what resolution may put in the place of a type.
* `Graph.Resolved`, `Compilation.Resolved` — what resolution leaves of a graph and of a state.
* `Keeps` — the steps of resolution that only resolve.
* `resolveType_keeps`, `resolveAll_ok` — resolving a type and resolving all.
-/

namespace ApiProto.Proto

/-- A type that stands for what a reference names. -/
def Graph.IsReference (g : Graph) (t : TypeRef) : Prop :=
  ∃ id ref, t = .node id ∧ g.node? id = some (.reference ref)

theorem Graph.isSome_reference?_iff {g : Graph} {t : TypeRef} :
    (g.reference? t).isSome = true ↔ g.IsReference t := by
  rw [Option.isSome_iff_exists]
  constructor
  · rintro ⟨ref, href⟩
    obtain ⟨id, rfl, hn⟩ := reference?_eq_some_iff.1 href
    exact ⟨id, ref, rfl, hn⟩
  · rintro ⟨id, ref, rfl, hn⟩
    exact ⟨ref, reference?_eq_some_iff.2 ⟨id, rfl, hn⟩⟩

theorem Graph.reference?_eq_none_iff {g : Graph} {t : TypeRef} :
    g.reference? t = none ↔ ¬ g.IsReference t := by
  rw [← isSome_reference?_iff, Bool.not_eq_true, Option.isSome_eq_false_iff,
    Option.isNone_iff_eq_none]

/-- What may stand in the place of a type after resolution: the type, or, for a reference, one of
the types that references stand for. -/
def Graph.MayBecome (g : Graph) (given : TypeRef → Prop) (t t' : TypeRef) : Prop :=
  t' = t ∨ g.IsReference t ∧ given t'

theorem Graph.MayBecome.trans {g : Graph} {given : TypeRef → Prop} {t t' t'' : TypeRef}
    (h : g.MayBecome given t t') (h' : g.MayBecome given t' t'') : g.MayBecome given t t'' := by
  rcases h with rfl | ⟨href, hgiven⟩
  · exact h'
  · rcases h' with rfl | ⟨-, hgiven'⟩
    · exact .inr ⟨href, hgiven⟩
    · exact .inr ⟨href, hgiven'⟩

/-- What resolution leaves of a field. -/
def Field.Resolved (g : Graph) (given : TypeRef → Prop) (f f' : Field TypeRef Value) : Prop :=
  ∃ t, f' = { f with type := t } ∧ g.MayBecome given f.type t

/-- What resolution leaves of a node. -/
inductive Node.Resolved (g : Graph) (given : TypeRef → Prop) : Node → Node → Prop
  | same (n : Node) : Node.Resolved g given n n
  | message {m m' : Message} : m'.name = m.name → m'.children = m.children →
      m'.comment = m.comment → m'.fields.length = m.fields.length →
      (∀ (i : Nat) (f : Field TypeRef Value), m.fields[i]? = some f →
        ∃ f', m'.fields[i]? = some f' ∧ f.Resolved g given f') →
      Node.Resolved g given (.message m) (.message m')
  | map {key value value' : TypeRef} : g.MayBecome given value value' →
      Node.Resolved g given (.map key value) (.map key value')

/-- What resolution leaves of a graph. -/
structure Graph.Resolved (g : Graph) (given : TypeRef → Prop) (g' : Graph) : Prop where
  size : g'.size = g.size
  nodes : ∀ id n, g.node? id = some n → ∃ n', g'.node? id = some n' ∧ n.Resolved g given n'

namespace Graph.Resolved

variable {g g' : Graph} {given : TypeRef → Prop}

theorem refl (g : Graph) : g.Resolved given g := ⟨rfl, fun _ n hn => ⟨n, hn, .same n⟩⟩

variable (h : g.Resolved given g')
include h

theorem of_node? {id : Nat} {n' : Node} (hn' : g'.node? id = some n') :
    ∃ n, g.node? id = some n ∧ n.Resolved g given n' := by
  obtain ⟨n, hn⟩ := node?_isSome (h.size ▸ lt_size_of_node? hn')
  obtain ⟨n'', hn'', hres⟩ := h.nodes id n hn
  obtain rfl := Option.some.inj (hn'.symm.trans hn'')
  exact ⟨n, hn, hres⟩

theorem put {id : Nat} {n n' : Node} (hn : g.node? id = some n) (hres : n.Resolved g given n') :
    g.Resolved given (g'.put id n') where
  size := (size_put g' id n').trans h.size
  nodes k m hm := by
    rw [node?_put]
    split
    · next hk =>
      obtain rfl := hk.1
      obtain rfl := Option.some.inj (hn.symm.trans hm)
      exact ⟨n', rfl, hres⟩
    · exact h.nodes k m hm

theorem isReference_iff {t : TypeRef} : g'.IsReference t ↔ g.IsReference t := by
  constructor
  · rintro ⟨id, ref, rfl, hn'⟩
    obtain ⟨n, hn, hres⟩ := h.of_node? hn'
    cases hres
    exact ⟨id, ref, rfl, hn⟩
  · rintro ⟨id, ref, rfl, hn⟩
    obtain ⟨n', hn', hres⟩ := h.nodes id _ hn
    cases hres
    exact ⟨id, ref, rfl, hn'⟩

theorem message?_of_some {id : Nat} {m' : Message} (hm' : g'.message? id = some m') :
    ∃ m, g.message? id = some m ∧ (Node.message m).Resolved g given (.message m') := by
  obtain ⟨n, hn, hres⟩ := h.of_node? (node?_of_message? hm')
  cases hres with
  | same => exact ⟨_, message?_of_node? hn, .same _⟩
  | message hname hchildren hcomment hlength hfields =>
    exact ⟨_, message?_of_node? hn, .message hname hchildren hcomment hlength hfields⟩

theorem keepsNames : g.KeepsNames g' := by
  intro id n hn
  obtain ⟨n', hn', hres⟩ := h.nodes id n hn
  refine ⟨n', hn', ?_⟩
  cases hres with
  | same => rfl
  | message hname => exact congrArg some hname
  | map => rfl

end Graph.Resolved

/-! ## Steps -/

section Steps

variable {g : Graph} {given : TypeRef → Prop} {α β : Type}

/-- A step that only resolves, with a result of a given kind if it succeeds. -/
def Keeps (g : Graph) (given : TypeRef → Prop) (m : ResolveM α) (P : α → Prop) : Prop :=
  ∀ r, g.Resolved given r.graph → g.Resolved given (m.run.run r).2.graph ∧
    ∀ a, (m.run.run r).1 = .ok a → P a

namespace Keeps

theorem pure {P : α → Prop} {a : α} (ha : P a) : Keeps g given (pure a) P :=
  fun _ hr => ⟨hr, fun _ heq => Except.ok.inj heq ▸ ha⟩

theorem throw {P : α → Prop} (e : Error) : Keeps g given (throw e) P :=
  fun _ hr => ⟨hr, fun _ heq => nomatch heq⟩

theorem get : Keeps g given get fun r => g.Resolved given r.graph :=
  fun _ hr => ⟨hr, fun _ heq => Except.ok.inj heq ▸ hr⟩

theorem modify {k : Resolution → Resolution}
    (hk : ∀ r, g.Resolved given r.graph → g.Resolved given (k r).graph) :
    Keeps g given (modify k) fun _ => True :=
  fun r hr => ⟨hk r hr, fun _ _ => trivial⟩

theorem bind {m : ResolveM α} {f : α → ResolveM β} {P : α → Prop} {Q : β → Prop}
    (hm : Keeps g given m P) (hf : ∀ a, P a → Keeps g given (f a) Q) :
    Keeps g given (m >>= f) Q := by
  intro r hr
  obtain ⟨hkept, hresult⟩ := hm r hr
  rw [ResolveM.run_bind]
  rcases heq : (m.run.run r).1 with e | a
  · refine ⟨hkept, fun b hb => ?_⟩
    cases hb
  · exact hf a (hresult a heq) _ hkept

theorem mono {m : ResolveM α} {P Q : α → Prop} (hm : Keeps g given m P) (hPQ : ∀ a, P a → Q a) :
    Keeps g given m Q :=
  fun r hr => ⟨(hm r hr).1, fun a ha => hPQ a ((hm r hr).2 a ha)⟩

theorem within {m : ResolveM α} {P : α → Prop} {frame : String} (hm : Keeps g given m P) :
    Keeps g given (ResolveM.within frame m) P := by
  intro r hr
  obtain ⟨hkept, hresult⟩ := hm r hr
  exact ⟨hkept, fun a ha => hresult a (framed_ok_iff.1 ha)⟩

theorem forM {f : α → ResolveM Unit} {l : List α}
    (hf : ∀ a ∈ l, Keeps g given (f a) fun _ => True) : Keeps g given (l.forM f) fun _ => True := by
  induction l with
  | nil => exact .pure trivial
  | cons a l ih =>
    show Keeps g given (f a >>= fun _ => l.forM f) _
    exact .bind (hf a (List.mem_cons_self ..))
      fun _ _ => ih fun b hb => hf b (List.mem_cons_of_mem _ hb)

end Keeps

end Steps

/-! ## Resolving types and messages -/

section Types

variable {g : Graph} {given : TypeRef → Prop} {table : Definitions}

theorem setFieldType_resolved {r : Resolution} (hr : g.Resolved given r.graph) {id i : Nat}
    {m : Message} {f : Field TypeRef Value} (hm : g.message? id = some m)
    (hf : m.fields[i]? = some f) {t : TypeRef} (ht : g.MayBecome given f.type t) :
    g.Resolved given (r.setFieldType id i t).graph := by
  unfold Resolution.setFieldType
  rcases hm' : r.graph.message? id with _ | m'
  · exact hr
  · obtain ⟨m₀, hm₀, hres⟩ := hr.message?_of_some hm'
    obtain rfl := Option.some.inj (hm.symm.trans hm₀)
    have hn := Graph.node?_of_message? hm
    have hset : ∀ {m' : Message}, (∀ (j : Nat) (f₀ : Field TypeRef Value),
          m.fields[j]? = some f₀ → ∃ f', m'.fields[j]? = some f' ∧ f₀.Resolved g given f') →
        ∀ (j : Nat) (f₀ : Field TypeRef Value), m.fields[j]? = some f₀ →
          ∃ f', (m'.setFieldType i t).fields[j]? = some f' ∧ f₀.Resolved g given f' := by
      intro m' hfields j f₀ hf₀
      obtain ⟨f', hf', hfield⟩ := hfields j f₀ hf₀
      simp only [Message.setFieldType, List.getElem?_modify, hf', Option.map_eq_map,
        Option.map_some, Option.some.injEq, exists_eq_left']
      split
      · next hij =>
        subst hij
        obtain rfl := Option.some.inj (hf.symm.trans hf₀)
        obtain ⟨t', rfl, -⟩ := hfield
        exact ⟨t, rfl, ht⟩
      · exact hfield
    refine hr.put hn ?_
    cases hres with
    | same =>
      exact .message rfl rfl rfl (by simp [Message.setFieldType])
        (hset fun j f₀ hf₀ => ⟨f₀, hf₀, f₀.type, rfl, .inl rfl⟩)
    | message hname hchildren hcomment hlength hfields =>
      exact .message hname hchildren hcomment (by simpa [Message.setFieldType] using hlength)
        (hset hfields)

mutual

/-- A type gives itself, or one of the given types if it is a reference. -/
theorem resolveType_keeps (htable : ∀ entry ∈ table, given entry.2) :
    ∀ (depth : Nat) (t : TypeRef),
      Keeps g given (resolveType table depth t) (g.MayBecome given t)
  | _, .builtin b => by
    unfold resolveType
    exact .pure (.inl rfl)
  | 0, .node _ => by
    unfold resolveType
    exact .throw _
  | depth + 1, .node id => by
    unfold resolveType
    refine .bind .get fun r hr => ?_
    split
    · next ref hn =>
      have href : g.IsReference (.node id) := hr.isReference_iff.1 ⟨id, ref, rfl, hn⟩
      refine .bind .get fun r' _ => ?_
      split
      · next t ht =>
        obtain ⟨ref', hmem⟩ := follow_mem ht
        refine (resolveType_keeps htable depth t).mono fun t' ht' => ?_
        rcases ht' with rfl | ⟨-, hgiven⟩
        · exact .inr ⟨href, htable _ hmem⟩
        · exact .inr ⟨href, hgiven⟩
      · exact .throw _
    · next key value hn =>
      refine .bind (resolveType_keeps htable depth value) fun value' hvalue' => ?_
      refine .bind (.modify fun r' hr' => ?_) fun _ _ => .pure (.inl rfl)
      obtain ⟨n, hn₀, hres⟩ := hr.of_node? hn
      cases hres with
      | same => exact hr'.put hn₀ (.map hvalue')
      | map hvalue => exact hr'.put hn₀ (.map (hvalue.trans hvalue'))
    · exact .bind (resolveMessage_keeps htable depth id) fun _ _ => .pure (.inl rfl)
    · exact .pure (.inl rfl)
termination_by structural depth => depth

theorem resolveMessage_keeps (htable : ∀ entry ∈ table, given entry.2) :
    ∀ depth id : Nat, Keeps g given (resolveMessage table depth id) fun _ => True
  | 0, _ => by
    unfold resolveMessage
    exact .throw _
  | depth + 1, id => by
    unfold resolveMessage
    refine .bind .get fun r hr => ?_
    split
    · exact .pure trivial
    · next m hm =>
      split
      · exact .pure trivial
      · refine .bind (.modify fun r' hr' => hr') fun _ _ => ?_
        refine .bind (.forM fun child _ => ?_) fun _ _ => .forM fun (field, i) hfield => ?_
        · split
          · refine .bind .get fun r' _ => ?_
            split
            · exact resolveMessage_keeps htable depth _
            · exact .pure trivial
          · exact .pure trivial
        · refine .bind (.within (resolveType_keeps htable depth field.type)) fun t ht => ?_
          refine .modify fun r' hr' => ?_
          have hf : m.fields[i]? = some field := by
            simpa using List.mem_zipIdx_iff_getElem?.1 hfield
          obtain ⟨m₀, hm₀, hres⟩ := hr.message?_of_some hm
          cases hres with
          | same => exact setFieldType_resolved hr' hm₀ hf ht
          | message hname hchildren hcomment hlength hfields =>
            have hi : i < m₀.fields.length := hlength ▸ (List.getElem?_eq_some_iff.1 hf).1
            have hf₀ := List.getElem?_eq_getElem hi
            obtain ⟨f', hf', t', rfl, ht'⟩ := hfields i _ hf₀
            obtain rfl := Option.some.inj (hf.symm.trans hf')
            exact setFieldType_resolved hr' hm₀ hf₀ (ht'.trans ht)
termination_by structural depth => depth

end

theorem resolvePackage_keeps (htable : ∀ entry ∈ table, given entry.2) (package : Nat) :
    Keeps g given (resolvePackage table package) fun _ => True := by
  unfold resolvePackage
  refine .bind .get fun r hr => .forM fun child _ => ?_
  split
  · refine .bind .get fun r' _ => ?_
    split
    · exact resolveMessage_keeps htable _ _
    · exact .pure trivial
  · exact .pure trivial

theorem resolveAt_keeps (htable : ∀ entry ∈ table, given entry.2) (t : TypeRef) :
    Keeps g given (resolveAt table t) (g.MayBecome given t) := by
  unfold resolveAt
  exact .bind .get fun r hr => resolveType_keeps htable _ t

end Types

end ApiProto.Proto

namespace ApiProto.Compile

open Proto Document CompileM

/-! ## Resolving all -/

/-- The types that references stand for in a state. -/
def Compilation.Given (c : Compilation) (t : TypeRef) : Prop := ∃ ref, (ref, t) ∈ c.table

/-- What resolution leaves of a definition. -/
def Definition.Resolved (g : Graph) (given : TypeRef → Prop) (d d' : Definition) : Prop :=
  ∃ t, d' = d.withType t ∧ g.MayBecome given d.unwrap t

/-- What resolution leaves of a state. -/
structure Compilation.Resolved (c c' : Compilation) : Prop where
  graph : c.graph.Resolved c.Given c'.graph
  registry : c'.registry = c.registry
  service : c'.service = c.service
  wrappers : c'.wrappers = c.wrappers
  deferring : c'.deferring = c.deferring
  definitions : ∀ entry ∈ c'.definitions,
    ∃ d, (entry.1, d) ∈ c.definitions ∧ d.Resolved c.graph c.Given entry.2

namespace Compilation.Resolved

variable {c c₁ c' : Compilation}

theorem refl (c : Compilation) : c.Resolved c :=
  ⟨.refl _, rfl, rfl, rfl, rfl, fun entry hentry =>
    ⟨entry.2, hentry, entry.2.unwrap, by cases entry.2 <;> rfl, .inl rfl⟩⟩

/-- The types that references stand for are, on the way, still those of the start. -/
theorem given_of_mem (h : c.Resolved c₁) {entry : String × TypeRef} (hentry : entry ∈ c₁.table) :
    c.Given entry.2 := by
  rcases List.mem_append.1 hentry with hknown | hdefined
  · exact ⟨entry.1, List.mem_append_left _ hknown⟩
  · obtain ⟨⟨ref, d'⟩, hmem, rfl⟩ := List.mem_map.1 hdefined
    obtain ⟨d, hd, t, rfl, ht⟩ := h.definitions _ hmem
    rcases ht with rfl | ⟨-, hgiven⟩
    · refine ⟨ref, List.mem_append_right _ (List.mem_map.2 ⟨_, hd, ?_⟩)⟩
      cases d <;> rfl
    · cases d <;> exact hgiven

theorem resolving {visited visited' : List Nat} {α : Type} {step : Definitions → ResolveM α} {a : α}
    {P : α → Prop} (h : c.Resolved c₁)
    (hstep : ∀ table, (∀ entry ∈ table, c.Given entry.2) → Keeps c.graph c.Given (step table) P)
    (hrun : resolving visited step c₁ = .ok ((a, visited'), c')) : c.Resolved c' ∧ P a := by
  obtain ⟨hgraph, hresult⟩ := hstep c₁.table (fun entry => h.given_of_mem) ⟨c₁.graph, visited⟩ h.graph
  unfold Compile.resolving at hrun
  rcases houtcome : (step c₁.table).run.run ⟨c₁.graph, visited⟩ with ⟨e | b, r⟩ <;>
    rw [houtcome] at hrun hgraph hresult
  · cases hrun
  · obtain ⟨heq, rfl⟩ := Prod.mk.inj (Except.ok.inj hrun)
    obtain ⟨rfl, -⟩ := Prod.mk.inj heq
    exact ⟨{ h with graph := hgraph }, hresult _ rfl⟩

theorem redefine (h : c.Resolved c₁) {ref : String} {d d' : Definition}
    (hd : (ref, d) ∈ c.definitions) (hres : d.Resolved c.graph c.Given d') :
    c.Resolved { c₁ with
      definitions := c₁.definitions.map fun (k, old) => (k, if k = ref then d' else old) } :=
  { h with
    definitions := fun entry hentry => by
      obtain ⟨⟨k, old⟩, hold, rfl⟩ := List.mem_map.1 hentry
      dsimp only
      split
      · next hk => exact ⟨d, hk ▸ hd, hres⟩
      · exact h.definitions _ hold }

theorem resolveDefinitions {l : List (String × Definition)} (hl : l ⊆ c.definitions)
    {visited : List Nat} (h : c.Resolved c₁)
    (hrun : resolveDefinitions l visited c₁ = .ok ((), c')) : c.Resolved c' := by
  induction l generalizing c₁ visited with
  | nil => exact (Prod.mk.inj (Except.ok.inj hrun)).2 ▸ h
  | cons entry rest ih =>
    obtain ⟨ref, d⟩ := entry
    obtain ⟨⟨t, visited'⟩, c₂, hfirst, hrun⟩ := bind_ok_iff.1 hrun
    obtain ⟨h₂, ht⟩ := h.resolving (fun _ htable => resolveAt_keeps htable d.unwrap)
      (within_ok_iff.1 hfirst)
    exact ih (fun _ hmem => hl (List.mem_cons_of_mem _ hmem))
      (h₂.redefine (hl (List.mem_cons_self ..)) ⟨t, rfl, ht⟩) hrun

end Compilation.Resolved

/-- Resolving all only resolves. -/
theorem resolveAll_ok {c c' : Compilation} (h : resolveAll c = .ok ((), c')) : c.Resolved c' := by
  unfold resolveAll at h
  rw [get_bind] at h
  obtain ⟨⟨_, visited⟩, c₁, hpackage, h⟩ := bind_ok_iff.1 h
  obtain ⟨h₁, -⟩ := (Compilation.Resolved.refl c).resolving
    (fun _ htable => resolvePackage_keeps htable c.package) hpackage
  exact h₁.resolveDefinitions (List.Subset.refl _) h

/-- Resolution keeps a state closed. -/
theorem Compilation.Closed.resolved {c c' : Compilation} (hc : c.Closed) (h : c.Resolved c') :
    c'.Closed := by
  have hsize : c.graph.size ≤ c'.graph.size := Nat.le_of_eq h.graph.size.symm
  have hgiven : ∀ {t}, c.Given t → c.graph.Has t := by
    rintro t ⟨ref, hmem⟩
    rcases List.mem_append.1 hmem with hknown | hdefined
    · obtain ⟨_, -, heq⟩ := List.mem_map.1 hknown
      obtain ⟨-, rfl⟩ := Prod.mk.inj heq
      trivial
    · obtain ⟨entry, hentry, heq⟩ := List.mem_map.1 hdefined
      obtain ⟨-, rfl⟩ := Prod.mk.inj heq
      exact hc.definitions entry hentry
  have hbecome : ∀ {t t'}, c.graph.Has t → c.graph.MayBecome c.Given t t' → c'.graph.Has t' := by
    rintro t t' ht (rfl | ⟨-, ht'⟩)
    · exact ht.mono hsize
    · exact (hgiven ht').mono hsize
  refine ⟨fun id n' hn' t ht => ?_, fun entry hentry => ?_, ?_, ?_, ?_⟩
  · obtain ⟨n, hn, hres⟩ := h.graph.of_node? hn'
    have hmentions := hc.mentions id n hn
    cases hres with
    | same => exact (hmentions t ht).mono hsize
    | @message m m' hname hchildren _ hlength hfields =>
      simp only [Node.mentions, hchildren, List.mem_append] at ht
      rcases ht with hchild | hfield
      · exact (hmentions t (List.mem_append_left _ hchild)).mono hsize
      · obtain ⟨f', hf', rfl⟩ := List.mem_map.1 hfield
        obtain ⟨i, hi⟩ := List.mem_iff_getElem?.1 hf'
        have hlt : i < m.fields.length := hlength ▸ (List.getElem?_eq_some_iff.1 hi).1
        have hf := List.getElem?_eq_getElem hlt
        obtain ⟨_, hi', t', rfl, ht'⟩ := hfields i _ hf
        obtain rfl := Option.some.inj (hi.symm.trans hi')
        refine hbecome (hmentions _ (List.mem_append_right _ ?_)) ht'
        exact List.mem_map.2 ⟨_, List.mem_of_getElem? hf, rfl⟩
    | @map key value value' hvalue =>
      have hkey : t = key ∨ t = value' := by simpa [Node.mentions] using ht
      rcases hkey with rfl | rfl
      · exact (hmentions t (by simp [Node.mentions])).mono hsize
      · exact hbecome (hmentions value (by simp [Node.mentions])) hvalue
  · obtain ⟨d, hd, t, heq, ht⟩ := h.definitions entry hentry
    rw [heq]
    cases d <;> exact hbecome (hc.definitions _ hd) ht
  · rw [h.wrappers, h.graph.size]
    exact hc.wrappers
  · rw [h.registry, h.graph.size]
    exact hc.log
  · obtain ⟨p, hp⟩ := hc.package
    obtain ⟨n', hn', hres⟩ := h.graph.nodes _ _ hp
    cases hres
    refine ⟨p, ?_⟩
    rw [Compilation.package, h.registry]
    exact hn'

/-! ## Compilations -/

/-- A successful compilation: what is named has been compiled in `c₀`, references have been resolved
in `c₁`, and all has been compiled in `c₂`. -/
structure Compiled (env : Environment) (c₀ c₁ c₂ : Compilation) : Prop where
  named : compileNamed env (startOf env) = .ok ((), c₀)
  resolved : c₀.Resolved c₁
  builds : Builds env c₁.package { c₁ with deferring := false } c₂
  dangling : dangling c₂.graph c₂.package = []

namespace Compiled

variable {env : Environment} {c₀ c₁ c₂ : Compilation} (h : Compiled env c₀ c₁ c₂)
include h

theorem start_builds : Builds env (startOf env).package (startOf env) c₀ :=
  compileNamed_builds h.named

theorem package_eq : c₀.package = (startOf env).package := (h.start_builds.grows rfl).package

theorem resolved_package_eq : c₁.package = c₀.package := congrArg Registry.package h.resolved.registry

theorem grows : Compilation.Grows [c₁.package, c₁.service] { c₁ with deferring := false } c₂ :=
  h.builds.grows rfl

theorem named_closed : c₀.Closed := by
  obtain ⟨packageName, serviceName, options, heq⟩ := startOf_is_start env
  refine h.start_builds.closed rfl ?_
  rw [heq]
  exact start_closed packageName serviceName options

theorem resolved_closed : Compilation.Closed { c₁ with deferring := false } :=
  have hclosed := h.named_closed.resolved h.resolved
  ⟨hclosed.mentions, hclosed.definitions, hclosed.wrappers, hclosed.log, hclosed.package⟩

end Compiled

/-- A description is compiled if and only if its compilation is successful. -/
theorem compile_ok_iff {options : Options} {spec : Spec} {o : Output} :
    compile options spec = .ok o ↔ ∃ c, compileAll ⟨options, spec⟩ (startOf ⟨options, spec⟩) =
      .ok ((), c) ∧ o = ⟨c.graph, c.package⟩ := by
  show ((compileAll ⟨options, spec⟩).run (startOf ⟨options, spec⟩) >>= fun p =>
    pure ⟨p.2.graph, p.2.package⟩) = .ok o ↔ _
  rw [StateT.run]
  rcases compileAll ⟨options, spec⟩ (startOf ⟨options, spec⟩) with e | ⟨_, c⟩
  · simp [bind, Except.bind]
  · simp [bind, Except.bind, pure, Except.pure, eq_comm]

/-- A successful compilation goes through all its phases. -/
theorem compiled_of_compileAll {env : Environment} {c₂ : Compilation}
    (h : compileAll env (startOf env) = .ok ((), c₂)) : ∃ c₀ c₁, Compiled env c₀ c₁ c₂ := by
  obtain ⟨hphases, hdangling⟩ := compileAll_ok_iff.1 h
  obtain ⟨c₀, c₁, hnamed, hresolve, hbuilds⟩ := compilePhases_ok hphases
  have hresolved := resolveAll_ok hresolve
  have hpackage : c₁.package = (startOf env).package :=
    (congrArg Registry.package hresolved.registry).trans
      ((compileNamed_builds hnamed).grows rfl).package
  rw [← hpackage] at hbuilds
  exact ⟨c₀, c₁, hnamed, hresolved, hbuilds, hdangling⟩

theorem compile_ok {options : Options} {spec : Spec} {o : Output}
    (h : compile options spec = .ok o) :
    ∃ c₀ c₁ c₂, Compiled ⟨options, spec⟩ c₀ c₁ c₂ ∧ o = ⟨c₂.graph, c₂.package⟩ := by
  obtain ⟨c₂, hrun, rfl⟩ := compile_ok_iff.1 h
  obtain ⟨c₀, c₁, hcompiled⟩ := compiled_of_compileAll hrun
  exact ⟨c₀, c₁, c₂, hcompiled, rfl⟩

end ApiProto.Compile
