import ApiProto.Proofs.CompilationCourse
import ApiProto.Proofs.Resolution

/-!
# The course of resolution

Resolution changes one node after the other. All graphs that it passes on the way, also when it
fails, are the graph of the start with types in the places of some references.

* `Stays` — a step of resolution of which all states only resolve.
* `resolveType_stays`, `resolveMessage_stays` — resolving a type and a message.
* `resolveAll_stays` — the states that a compilation passes while it resolves all.
-/

namespace ApiProto.Proto

open Compile
open Course (Safe)

variable {g : Graph} {given : TypeRef → Prop} {table : Definitions} {α β : Type}

/-- A step of resolution of which all states only resolve, with a result of a given kind. -/
def Stays (g : Graph) (given : TypeRef → Prop) {m : ResolveM α} (t : Course resolutions m)
    (P : α → Prop) : Prop :=
  ∀ r, g.Resolved given r.graph → t.Safe (fun r' => g.Resolved given r'.graph)
    (fun a r' => g.Resolved given r'.graph ∧ P a) r

namespace Stays

variable {m : ResolveM α} {P : α → Prop}

theorem pure {a : α} {h : resolutions.Still (pure a : ResolveM α)} (ha : P a) :
    Stays g given (.still h) P :=
  fun _ hr => Safe.pure hr ⟨hr, ha⟩

theorem throw {e : Error} {h : resolutions.Still (throw e : ResolveM α)} :
    Stays g given (.still h) P :=
  fun _ hr => Safe.still hr nofun

theorem get {h : resolutions.Still (get : ResolveM Resolution)} :
    Stays g given (.still h) fun r => g.Resolved given r.graph :=
  fun r hr => Safe.still hr fun a ha => by
    obtain rfl : r = a := (Prod.mk.inj (Option.some.inj ha)).1
    exact ⟨hr, hr⟩

theorem modify {k : Resolution → Resolution}
    (hk : ∀ r, g.Resolved given r.graph → g.Resolved given (k r).graph) :
    Stays g given (Course.once (.modify k)) fun _ => True :=
  fun r hr => Safe.once hr fun _ r' h => by
    obtain rfl : k r = r' := (Prod.mk.inj (Option.some.inj h)).2
    exact ⟨hk r hr, hk r hr, trivial⟩

theorem bind {f : α → ResolveM β} {t : Course resolutions m} {t' : ∀ a, Course resolutions (f a)}
    {Q : β → Prop} (h : Stays g given t P) (h' : ∀ a, P a → Stays g given (t' a) Q) :
    Stays g given (t.bind t') Q :=
  fun r hr => Safe.bind (h r hr) fun a r' ha => h' a ha.2 r' ha.1

theorem ite {p : Prop} [Decidable p] {m' : ResolveM α} {t : Course resolutions m}
    {t' : Course resolutions m'} (h : Stays g given t P) (h' : Stays g given t' P) :
    Stays g given (Course.ite (p := p) t t') P :=
  fun r hr => Safe.ite (fun _ => h r hr) fun _ => h' r hr

theorem framed {frame : String} {t : Course resolutions m} (h : Stays g given t P) :
    Stays g given (@Course.framed _ _ _ resolutions _ frame _ t) P :=
  fun r hr => Safe.framed (h r hr)

theorem same {m' : ResolveM α} {heq : m = m'} {t : Course resolutions m} (h : Stays g given t P) :
    Stays g given (Course.same heq t) P :=
  fun r hr => Safe.same (h r hr)

theorem mono {t : Course resolutions m} {Q : α → Prop} (h : Stays g given t P)
    (hPQ : ∀ a, P a → Q a) : Stays g given t Q :=
  fun r hr => Safe.mono (h r hr) fun a _ ha => ⟨ha.1, hPQ a ha.2⟩

theorem forM {f : β → ResolveM PUnit} {t : ∀ b, Course resolutions (f b)} {l : List β}
    (h : ∀ b ∈ l, Stays g given (t b) fun _ => True) :
    Stays g given (Course.forM t l) fun _ => True :=
  fun _ hr => Safe.mono
    (Safe.forM (I := fun r => g.Resolved given r.graph) (fun _ hr => hr)
      (fun b hb r hr => Safe.mono (h b hb r hr) fun _ _ h => h.1) hr)
    fun _ _ h => ⟨h, trivial⟩

end Stays

/-! ## Types and messages -/

theorem resolveChild_stays {depth : Nat}
    {t : ∀ id, Course resolutions (resolveMessage table depth id)}
    (ht : ∀ id, Stays g given (t id) fun _ => True) (child : TypeRef) :
    Stays g given (resolveChild.course table depth t child) fun _ => True := by
  cases child with
  | builtin => exact .pure trivial
  | node c => exact .bind .get fun _ _ => .ite (ht c) (.pure trivial)

theorem resolveField_stays {depth id i : Nat} {name : String}
    {t : ∀ t, Course resolutions (resolveType table depth t)} {field : Field TypeRef Value}
    {m : Message} (hm : g.message? id = some m) {f : Field TypeRef Value}
    (hf : m.fields[i]? = some f) (hfield : g.MayBecome given f.type field.type)
    (ht : Stays g given (t field.type) (g.MayBecome given field.type)) :
    Stays g given (resolveField.course table depth id name t (field, i)) fun _ => True :=
  .bind (.framed ht) fun _ ht' => .modify fun _ hr =>
    setFieldType_resolved hr hm hf (hfield.trans ht')

/-- A field of a message, as it was before something was resolved. -/
theorem Graph.Resolved.field {r : Resolution} (hr : g.Resolved given r.graph) {id i : Nat}
    {m : Message} (hm : r.graph.message? id = some m) {field : Field TypeRef Value}
    (hfield : m.fields[i]? = some field) : ∃ m₀ f, g.message? id = some m₀ ∧
      m₀.fields[i]? = some f ∧ g.MayBecome given f.type field.type := by
  obtain ⟨m₀, hm₀, hres⟩ := hr.message?_of_some hm
  cases hres with
  | same => exact ⟨_, field, hm₀, hfield, .inl rfl⟩
  | message _ _ _ hlength hfields =>
    have hi : i < m₀.fields.length := hlength ▸ (List.getElem?_eq_some_iff.1 hfield).1
    obtain ⟨f', hf', t, rfl, ht⟩ := hfields i _ (List.getElem?_eq_getElem hi)
    obtain rfl := Option.some.inj (hfield.symm.trans hf')
    exact ⟨m₀, _, hm₀, List.getElem?_eq_getElem hi, ht⟩

mutual

/-- A type gives itself, or one of the given types if it is a reference. -/
theorem resolveType_stays (htable : ∀ entry ∈ table, given entry.2) :
    ∀ depth t, Stays g given (resolveType.course table depth t) (g.MayBecome given t)
  | _, .builtin b => by
    unfold resolveType.course
    exact .same (.pure (.inl rfl))
  | 0, .node _ => by
    unfold resolveType.course
    exact .same .throw
  | depth + 1, .node id => by
    unfold resolveType.course
    refine .bind .get fun r hr => ?_
    rcases hn : r.graph.node? id with _ | n
    · exact .pure (.inl rfl)
    · cases n with
      | reference ref =>
        have href : g.IsReference (.node id) := hr.isReference_iff.1 ⟨id, ref, rfl, hn⟩
        refine .bind .get fun r' _ => ?_
        rcases hfollow : follow r'.graph table ref with e | t
        · exact .throw
        · obtain ⟨ref', hmem⟩ := follow_mem hfollow
          refine (resolveType_stays htable depth t).mono fun t' ht' => ?_
          rcases ht' with rfl | ⟨-, hgiven⟩
          · exact .inr ⟨href, htable _ hmem⟩
          · exact .inr ⟨href, hgiven⟩
      | map key value =>
        refine .bind (resolveType_stays htable depth value) fun value' hvalue' => ?_
        refine .bind (.modify fun r' hr' => ?_) fun _ _ => .pure (.inl rfl)
        obtain ⟨n, hn₀, hres⟩ := hr.of_node? hn
        cases hres with
        | same => exact hr'.put hn₀ (.map hvalue')
        | map hvalue => exact hr'.put hn₀ (.map (hvalue.trans hvalue'))
      | message m => exact .bind (resolveMessage_stays htable depth id) fun _ _ => .pure (.inl rfl)
      | package p => exact .pure (.inl rfl)
      | enumeration e => exact .pure (.inl rfl)
      | extension e => exact .pure (.inl rfl)
      | service s => exact .pure (.inl rfl)
      | builtin b => exact .pure (.inl rfl)
termination_by structural depth => depth

theorem resolveMessage_stays (htable : ∀ entry ∈ table, given entry.2) :
    ∀ depth id : Nat, Stays g given (resolveMessage.course table depth id) fun _ => True
  | 0, _ => by
    unfold resolveMessage.course
    exact .same .throw
  | depth + 1, id => by
    unfold resolveMessage.course
    refine .bind .get fun r hr => ?_
    rcases hm : r.graph.message? id with _ | m
    · exact .pure trivial
    · refine .ite (.pure trivial) (.bind (.modify fun r' hr' => hr') fun _ _ =>
        .bind (P := fun _ => True) ?_ fun _ _ => ?_)
      · exact .forM fun child _ => resolveChild_stays (resolveMessage_stays htable depth) child
      · refine .forM fun (field, i) hfield => ?_
        obtain ⟨m₀, f, hm₀, hf, hbecome⟩ :=
          hr.field hm (by simpa using List.mem_zipIdx_iff_getElem?.1 hfield)
        exact resolveField_stays hm₀ hf hbecome (resolveType_stays htable depth field.type)
termination_by structural depth => depth

end

theorem resolvePackage_stays (htable : ∀ entry ∈ table, given entry.2) (package : Nat) :
    Stays g given (resolvePackage.course table package) fun _ => True :=
  .bind .get fun _ _ => .forM fun child _ =>
    resolveChild_stays (resolveMessage_stays htable _) child

theorem resolveAt_stays (htable : ∀ entry ∈ table, given entry.2) (t : TypeRef) :
    Stays g given (resolveAt.course table t) (g.MayBecome given t) :=
  .bind .get fun _ _ => resolveType_stays htable _ t

end ApiProto.Proto

namespace ApiProto.Compile

open Proto Document CompileM
open Course (Safe)

variable {c c₁ c' : Compilation} {α : Type}

/-- A step of resolution, seen from a compilation that resolves. -/
theorem resolving_stays {visited : List Nat} {step : Definitions → ResolveM α}
    {t : ∀ table, Course resolutions (step table)} {P : α → Prop} (h : c.Resolved c₁)
    (ht : ∀ table, (∀ entry ∈ table, c.Given entry.2) → Stays c.graph c.Given (t table) P) :
    (resolving.course visited t).Safe c.Resolved (fun a c' => c.Resolved c' ∧ P a.1) c₁ := by
  obtain ⟨hpassed, hresult⟩ :=
    ht c₁.table (fun _ => h.given_of_mem) ⟨c₁.graph, visited⟩ h.graph
  refine Safe.nested h ?_ fun a c' hrun => ?_
  · rintro c' ⟨r, hr, rfl⟩
    exact { h with graph := hpassed r hr }
  · have hrun := toOption_eq_some.1 hrun
    unfold resolving at hrun
    rcases houtcome : (step c₁.table).run.run ⟨c₁.graph, visited⟩ with ⟨e | b, r⟩ <;>
      rw [houtcome] at hrun
    · cases hrun
    · obtain ⟨rfl, rfl⟩ := Prod.mk.inj (Except.ok.inj hrun)
      obtain ⟨hgraph, hb⟩ := hresult b r (by simp [resolutions, houtcome])
      have hresolved : c.Resolved { c₁ with graph := r.graph } := { h with graph := hgraph }
      exact ⟨hresolved, hresolved, hb⟩

theorem resolveDefinitions_stays {l : List (String × Definition)} (hl : l ⊆ c.definitions)
    {visited : List Nat} (h : c.Resolved c₁) :
    (resolveDefinitions.course l visited).Safe c.Resolved (fun _ => c.Resolved) c₁ := by
  induction l generalizing c₁ visited with
  | nil => exact .pure h h
  | cons entry rest ih =>
    obtain ⟨ref, d⟩ := entry
    refine .bind (.framed (resolving_stays h fun _ htable => resolveAt_stays htable d.unwrap))
      fun (t, visited') c₂ ⟨h₂, ht⟩ =>
        .bind (Q := fun _ => c.Resolved) (.once h₂ fun _ c₃ hrun => ?_) fun _ c₃ h₃ =>
          ih (fun _ hmem => hl (List.mem_cons_of_mem _ hmem)) h₃
    have hrun : redefine ref (d.withType t) c₂ = .ok ((), c₃) := toOption_eq_some.1 hrun
    obtain rfl := (Prod.mk.inj (Except.ok.inj hrun)).2
    have h₃ := h₂.redefine (hl (List.mem_cons_self ..)) ⟨t, rfl, ht⟩
    exact ⟨h₃, h₃⟩

/-- While a compilation resolves all, it only resolves. -/
theorem resolveAll_stays (c : Compilation) :
    resolveAll.course.Safe c.Resolved (fun _ => c.Resolved) c := by
  refine .read (.refl c) fun a ha => ?_
  obtain rfl : c = a := (Prod.mk.inj (Option.some.inj ha)).1
  exact .bind (resolving_stays (.refl c) fun _ htable => resolvePackage_stays htable _)
    fun _ _ h => resolveDefinitions_stays (List.Subset.refl _) h.1

end ApiProto.Compile
