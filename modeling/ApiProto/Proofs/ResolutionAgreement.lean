import ApiProto.Proofs.Agreement
import ApiProto.Proofs.ResolutionSteps

/-!
# Resolving references alike

References are followed and put in place in the same way in graphs that are alike, and what is left
over in the end is the same.

* `Resolves` — two steps of resolution that end alike when they start alike.
* `Graph.Like.follow_eq` — a chain of references ends in the same type.
* `resolveAll_agree`, `compileExtension_agree`, `checkResolved_agree` — phases of a compilation.
-/

namespace ApiProto.Proto

variable {like : Likeness}

/-! ## Chains -/

section Chains

variable {g g' : Graph} (h : g.Like like g')
include h

theorem Graph.Like.reference?_eq (t : TypeRef) : g'.reference? t = g.reference? t := by
  cases t with
  | builtin b => rfl
  | node id =>
    rw [Graph.reference?, Graph.reference?]
    rcases hnode : g.node? id with _ | n
    · rw [h.node?_of_none hnode]
    · obtain ⟨n', hn', halike⟩ := h.node?_of_some hnode
      rw [hn']
      cases like.akin halike with
      | same => rfl
      | _ => rfl

/-- A chain of references goes through the same links. -/
theorem Graph.Like.followFrom_eq (targets : Targets) (start : String) (seen : List String)
    (ref : String) :
    followFrom g' targets start seen ref = followFrom g targets start seen ref := by
  fun_induction followFrom g targets start seen ref with
  | case1 seen ref hs => rw [followFrom_of_mem hs]
  | case2 seen ref hs e he => rw [followFrom_of_error hs he]
  | case3 seen ref hs t ht next hnext ih =>
    rw [followFrom_of_ok hs ht, h.reference?_eq, hnext]
    exact ih
  | case4 seen ref hs t ht hlast => rw [followFrom_of_ok hs ht, h.reference?_eq, hlast]

theorem Graph.Like.follow_eq (targets : Targets) (ref : String) :
    follow g' targets ref = follow g targets ref :=
  h.followFrom_eq targets ref [] ref

theorem Graph.Like.depth_eq : g'.depth = g.depth := by
  rw [Graph.depth, Graph.depth, h.size_eq]

end Chains

/-! ## Steps -/

/-- Two states of resolution with graphs that are alike. -/
structure Resolution.Alike (like : Likeness) (r r' : Resolution) : Prop where
  graph : r.graph.Like like r'.graph
  visited_eq : r'.visited = r.visited

/-- Two steps of resolution that end alike, with the same outcome, when they start alike. -/
def Resolves (like : Likeness) {α : Type} (m m' : ResolveM α) : Prop :=
  ∀ r r', r.Alike like r' → (m'.run.run r').1 = (m.run.run r).1 ∧
    (m.run.run r).2.Alike like (m'.run.run r').2

namespace Resolves

variable {α β : Type} {m m' : ResolveM α}

theorem pure (a : α) : Resolves like (Pure.pure a) (Pure.pure a) := fun _ _ hr => ⟨rfl, hr⟩

theorem throw (e : Error) :
    Resolves like (MonadExcept.throw e : ResolveM α) (MonadExcept.throw e) :=
  fun _ _ hr => ⟨rfl, hr⟩

theorem bind {f f' : α → ResolveM β} (h : Resolves like m m') (hf : ∀ a, Resolves like (f a) (f' a)) :
    Resolves like (m >>= f) (m' >>= f') := by
  intro r r' hr
  obtain ⟨hresult, hstate⟩ := h r r' hr
  rw [ResolveM.run_bind, ResolveM.run_bind, hresult]
  rcases (m.run.run r).1 with e | a
  · exact ⟨rfl, hstate⟩
  · exact hf a _ _ hstate

/-- Steps that read the state. -/
theorem read {f f' : Resolution → ResolveM β} (h : ∀ r r', r.Alike like r' → Resolves like (f r) (f' r')) :
    Resolves like (get >>= f) (get >>= f') :=
  fun r r' hr => h r r' hr r r' hr

theorem modify {change : Resolution → Resolution}
    (h : ∀ r r', r.Alike like r' → (change r).Alike like (change r')) :
    Resolves like (MonadState.modifyGet fun r => ((), change r))
      (MonadState.modifyGet fun r => ((), change r)) :=
  fun r r' hr => ⟨rfl, h r r' hr⟩

theorem within (frame : String) (h : Resolves like m m') :
    Resolves like (ResolveM.within frame m) (ResolveM.within frame m') := by
  intro r r' hr
  obtain ⟨hresult, hstate⟩ := h r r' hr
  exact ⟨congrArg (framed frame) hresult, hstate⟩

theorem forM {ι : Type} {f : ι → ResolveM Unit} {l : List ι} (h : ∀ a ∈ l, Resolves like (f a) (f a)) :
    Resolves like (l.forM f) (l.forM f) := by
  induction l with
  | nil => exact .pure ()
  | cons a l ih =>
    show Resolves like (f a >>= fun _ => l.forM f) (f a >>= fun _ => l.forM f)
    exact .bind (h a (List.mem_cons_self ..)) fun _ => ih fun b hb => h b (List.mem_cons_of_mem _ hb)

end Resolves

/-! ## Types and messages -/

theorem Resolution.Alike.setFieldType {r r' : Resolution} (h : r.Alike like r') (id position : Nat)
    (t : TypeRef) : (r.setFieldType id position t).Alike like (r'.setFieldType id position t) := by
  unfold Resolution.setFieldType
  rw [h.graph.message?_eq]
  rcases r.graph.message? id with _ | m
  · exact h
  · exact ⟨h.graph.put (like.fixed _ rfl) id, h.visited_eq⟩

section Types

variable (targets : Targets)

mutual

theorem resolveType_resolves : ∀ (depth : Nat) (t : TypeRef),
    Resolves like (resolveType targets depth t) (resolveType targets depth t)
  | _, .builtin b => by
    unfold resolveType
    exact .pure _
  | 0, .node _ => by
    unfold resolveType
    exact .throw _
  | depth + 1, .node id => by
    unfold resolveType
    refine .read fun r r' hr => ?_
    rcases hn : r.graph.node? id with _ | n
    · rw [hr.graph.node?_of_none hn]
      exact .pure _
    · obtain ⟨n', hn', halike⟩ := hr.graph.node?_of_some hn
      rw [hn']
      cases like.akin halike with
      | same =>
        cases n with
        | reference ref =>
          refine .read fun r r' hr => ?_
          rw [hr.graph.follow_eq]
          rcases follow r.graph targets ref with e | t
          · exact .throw e
          · exact resolveType_resolves depth t
        | map key value =>
          refine .bind (resolveType_resolves depth value) fun value => ?_
          refine .bind (.modify fun r r' hr => ?_) fun _ => .pure _
          exact ⟨hr.graph.put (like.fixed _ rfl) id, hr.visited_eq⟩
        | message m => exact .bind (resolveMessage_resolves depth id) fun _ => .pure _
        | _ => exact .pure _
      | _ => exact .pure _
termination_by structural depth => depth

theorem resolveMessage_resolves : ∀ depth id : Nat,
    Resolves like (resolveMessage targets depth id) (resolveMessage targets depth id)
  | 0, _ => by
    unfold resolveMessage
    exact .throw _
  | depth + 1, id => by
    unfold resolveMessage
    refine .read fun r r' hr => ?_
    rw [hr.graph.message?_eq, hr.visited_eq]
    rcases r.graph.message? id with _ | m
    · exact .pure _
    · dsimp only
      split
      · exact .pure _
      · refine .bind (.modify fun r r' hr => ?_) fun _ => .bind (.forM fun child _ => ?_)
          fun _ => .forM fun (field, position) _ => ?_
        · exact ⟨hr.graph, congrArg (id :: ·) hr.visited_eq⟩
        · split
          · refine .read fun r r' hr => ?_
            rw [hr.graph.message?_eq]
            split
            · exact resolveMessage_resolves depth _
            · exact .pure _
          · exact .pure _
        · refine .bind (.within _ (resolveType_resolves depth field.type)) fun t => ?_
          exact .modify fun r r' hr => hr.setFieldType id position t
termination_by structural depth => depth

end

theorem resolveAt_resolves (t : TypeRef) :
    Resolves like (resolveAt targets t) (resolveAt targets t) := by
  refine .read fun r r' hr => ?_
  rw [hr.graph.depth_eq]
  exact resolveType_resolves targets _ t

theorem resolvePackage_resolves (package : Nat) :
    Resolves like (resolvePackage targets package) (resolvePackage targets package) := by
  refine .read fun r r' hr => ?_
  rw [hr.graph.children_eq, hr.graph.depth_eq]
  refine .forM fun child _ => ?_
  split
  · refine .read fun r₁ r₁' hr₁ => ?_
    rw [hr₁.graph.message?_eq]
    split
    · exact resolveMessage_resolves targets _ _
    · exact .pure _
  · exact .pure _

end Types

end ApiProto.Proto

namespace ApiProto.Compile

open Proto Document CompileM

variable {like : Likeness}

/-- A step of resolution goes the same way on graphs that are alike. -/
theorem resolving_agree {α : Type} (visited : List Nat) {step : Definitions → ResolveM α}
    (h : ∀ table, Resolves like (step table) (step table)) :
    Agree like Eq (resolving visited step) (resolving visited step) := by
  intro c c' hc
  have hstart : Resolution.Alike like ⟨c.graph, visited⟩ ⟨c'.graph, visited⟩ := ⟨hc.graph, rfl⟩
  obtain ⟨hresult, hstate⟩ := h c.table _ _ hstart
  unfold resolving
  rw [hc.table_eq]
  generalize (step c.table).run.run ⟨c.graph, visited⟩ = run at hresult hstate ⊢
  generalize (step c.table).run.run ⟨c'.graph, visited⟩ = run' at hresult hstate ⊢
  obtain ⟨outcome, r⟩ := run
  obtain ⟨outcome', r'⟩ := run'
  obtain rfl : outcome' = outcome := hresult
  rcases outcome' with e | a
  · rfl
  · exact ⟨by rw [hstate.visited_eq], hc.withGraph hstate.graph⟩

theorem resolveDefinitions_agree (l : List (String × Definition)) (visited : List Nat) :
    Agree like Eq (resolveDefinitions l visited) (resolveDefinitions l visited) := by
  induction l generalizing visited with
  | nil => exact .pure rfl
  | cons entry rest ih =>
    obtain ⟨ref, d⟩ := entry
    refine .bind_eq (.within _ (resolving_agree visited fun table => ?_)) fun r => ?_
    · exact resolveAt_resolves table d.unwrap
    · refine .bind_eq (.modify fun c c' hc => { hc with definitions_eq := ?_ }) fun _ => ih _
      rw [hc.definitions_eq]

theorem resolveAll_agree : Agree like Eq resolveAll resolveAll := by
  refine .read fun c c' hc => ?_
  rw [hc.package_eq, hc.definitions_eq]
  refine .bind_eq (resolving_agree [] fun table => resolvePackage_resolves table c.package)
    fun r => ?_
  exact resolveDefinitions_agree c.definitions r.2

theorem compileExtension_agree (e : Document.Extension) :
    Agree like Eq (compileExtension e) (compileExtension e) := by
  refine .bind_eq (.mapM_self _ fun f => ?_) fun fields => ?_
  · exact .bind_eq (.result _) fun type => .bind_eq (addImportFor_agree type) fun _ => .pure rfl
  · refine .bind_eq (.result _) fun base => .bind_eq (addImportFor_agree base) fun _ => ?_
    refine .bind_eq (newNode_agree_self rfl) fun id => .modify fun c c' hc => ?_
    rw [hc.package_eq]
    exact hc.withGraph (hc.graph.addChild c.package (.node id))

theorem checkResolved_agree : Agree like Eq checkResolved checkResolved := by
  intro c c' hc
  unfold checkResolved
  rw [hc.package_eq, hc.graph.dangling_eq]
  split
  · exact ⟨rfl, hc⟩
  · rfl

end ApiProto.Compile
