import ApiProto.Proofs.Lockstep
import ApiProto.Proofs.Resolution

/-!
# Resolution in the other version

Chains of references are the same in both versions, link by link, so the same types are put in the
places of references.

* `Echoes` — two steps of resolution of which the runs go in lockstep.
* `follow_translated` — a chain of references ends in the same type in both versions.
* `resolveAll_mirrors` — all references are resolved in lockstep.
-/

namespace ApiProto.Proto

open Document

/-- A state of resolution in the other version. -/
def Resolution.translated (r : Resolution) : Resolution := ⟨r.graph.translated, r.visited⟩

/-- Definitions under references in the other version. -/
def translateTable (table : Definitions) : Definitions :=
  table.map fun entry => (translateRef entry.1, entry.2)

/-- Two steps of resolution of which the second does in the other version what the first does. If
the first fails, so does the second. -/
def Echoes {α : Type} (m m' : ResolveM α) : Prop :=
  ∀ r, (m'.run.run r.translated).1.toOption = (m.run.run r).1.toOption ∧
    (m'.run.run r.translated).2 = (m.run.run r).2.translated

namespace Echoes

variable {α β : Type} {m m' : ResolveM α}

theorem pure (a : α) : Echoes (Pure.pure a) (Pure.pure a) := fun _ => ⟨rfl, rfl⟩

theorem throw (e e' : Error) : Echoes (MonadExcept.throw e : ResolveM α) (MonadExcept.throw e') :=
  fun _ => ⟨rfl, rfl⟩

theorem bind {f f' : α → ResolveM β} (h : Echoes m m') (hf : ∀ a, Echoes (f a) (f' a)) :
    Echoes (m >>= f) (m' >>= f') := by
  intro r
  obtain ⟨hresult, hstate⟩ := h r
  rw [ResolveM.run_bind, ResolveM.run_bind, hstate]
  generalize (m.run.run r).1 = result at hresult ⊢
  generalize (m'.run.run r.translated).1 = result' at hresult ⊢
  rcases result with e | a <;> rcases result' with e' | a'
  · exact ⟨rfl, rfl⟩
  · cases hresult
  · cases hresult
  · obtain rfl := Option.some.inj hresult
    exact hf a' _

/-- Steps that read the state. -/
theorem read {f f' : Resolution → ResolveM β} (h : ∀ r, Echoes (f r) (f' r.translated)) :
    Echoes (get >>= f) (get >>= f') :=
  fun r => h r r

theorem modify {change change' : Resolution → Resolution}
    (h : ∀ r, change' r.translated = (change r).translated) :
    Echoes (MonadState.modifyGet fun r => ((), change r))
      (MonadState.modifyGet fun r => ((), change' r)) :=
  fun r => ⟨rfl, h r⟩

theorem within (frame frame' : String) (h : Echoes m m') :
    Echoes (ResolveM.within frame m) (ResolveM.within frame' m') := by
  intro r
  obtain ⟨hresult, hstate⟩ := h r
  refine ⟨?_, hstate⟩
  show (framed frame' (m'.run.run r.translated).1).toOption = (framed frame (m.run.run r).1).toOption
  generalize (m.run.run r).1 = result at hresult ⊢
  generalize (m'.run.run r.translated).1 = result' at hresult ⊢
  rcases result with e | a <;> rcases result' with e' | a'
  · rfl
  · cases hresult
  · cases hresult
  · exact hresult

theorem forM {ι : Type} {f f' : ι → ResolveM Unit} {l : List ι} (h : ∀ a ∈ l, Echoes (f a) (f' a)) :
    Echoes (l.forM f) (l.forM f') := by
  induction l with
  | nil => exact .pure ()
  | cons a l ih =>
    show Echoes (f a >>= fun _ => l.forM f) (f' a >>= fun _ => l.forM f')
    exact .bind (h a (List.mem_cons_self ..)) fun _ => ih fun b hb => h b (List.mem_cons_of_mem _ hb)

end Echoes

/-! ## Chains -/

section Chains

variable (g : Graph) (table : Definitions)

theorem lookup_translateTable (ref : String) :
    (translateTable table).lookup (translateRef ref) = table.lookup ref := by
  have hmap := lookup_map_translateRef table id ref
  rwa [Option.map_id] at hmap

theorem reference?_translated (t : TypeRef) :
    g.translated.reference? t = (g.reference? t).map translateRef := by
  cases t with
  | builtin b => rfl
  | node id =>
    rw [Graph.reference?, Graph.reference?, Graph.node?_translated]
    rcases g.node? id with _ | n
    · rfl
    · cases n <;> rfl

/-- A chain of references goes through the same links in both versions. -/
theorem followFrom_translated (start : String) (seen : List String) (ref : String) :
    (followFrom g.translated (.ofTable (translateTable table)) (translateRef start)
        (seen.map translateRef) (translateRef ref)).toOption =
      (followFrom g (.ofTable table) start seen ref).toOption := by
  have hseen : ∀ (seen : List String) (ref : String),
      (seen.map translateRef).contains (translateRef ref) = seen.contains ref := by
    intro seen ref
    rw [Bool.eq_iff_iff, List.contains_iff_mem, List.contains_iff_mem]
    exact List.mem_map_of_injective translateRef_injective
  have hlookup := lookup_translateTable table
  fun_induction followFrom g (.ofTable table) start seen ref with
  | case1 seen ref hs =>
    rw [followFrom_of_mem ((hseen seen ref).trans hs)]
    rfl
  | case2 seen ref hs e he =>
    have hnone := (Targets.resolve_ofTable_eq_error.1 he).1
    rw [followFrom_of_error (by rwa [hseen])
      (Targets.resolve_ofTable_eq_error.2 ⟨(hlookup ref).trans hnone, rfl⟩)]
    rfl
  | case3 seen ref hs t ht next hnext ih =>
    have hfound := (hlookup ref).trans (Targets.resolve_ofTable_eq_ok.1 ht)
    rw [followFrom_of_ok (by rwa [hseen]) (Targets.resolve_ofTable_eq_ok.2 hfound),
      reference?_translated, hnext]
    exact ih
  | case4 seen ref hs t ht hlast =>
    have hfound := (hlookup ref).trans (Targets.resolve_ofTable_eq_ok.1 ht)
    rw [followFrom_of_ok (by rwa [hseen]) (Targets.resolve_ofTable_eq_ok.2 hfound),
      reference?_translated, hlast]
    rfl

theorem follow_translated (ref : String) :
    (follow g.translated (translateTable table) (translateRef ref)).toOption =
      (follow g table ref).toOption :=
  followFrom_translated g table ref [] ref

end Chains

/-! ## Types and messages -/

section Types

variable (table : Definitions)

theorem setFieldType_translated (r : Resolution) (id position : Nat) (t : TypeRef) :
    r.translated.setFieldType id position t = (r.setFieldType id position t).translated := by
  have hmessage : r.translated.graph.message? id = r.graph.message? id :=
    Graph.message?_mapNodes r.graph Node.relabelled_translated id
  unfold Resolution.setFieldType
  rw [hmessage]
  rcases r.graph.message? id with _ | m
  · rfl
  · have hput := Graph.put_mapNodes Node.translated r.graph id
      (.message (m.setFieldType position t))
    exact congrArg (fun g => (⟨g, r.visited⟩ : Resolution)) hput

theorem setMapValue_translated (r : Resolution) (id : Nat) (key value : TypeRef) :
    r.translated.setMapValue id key value = (r.setMapValue id key value).translated :=
  congrArg (fun g => (⟨g, r.visited⟩ : Resolution))
    (Graph.put_mapNodes Node.translated r.graph id (.map key value))

mutual

theorem resolveType_echoes : ∀ (depth : Nat) (t : TypeRef),
    Echoes (resolveType table depth t) (resolveType (translateTable table) depth t)
  | _, .builtin b => by
    unfold resolveType
    exact .pure _
  | 0, .node _ => by
    unfold resolveType
    exact .throw _ _
  | depth + 1, .node id => by
    unfold resolveType
    refine .read fun r => ?_
    rw [show r.translated.graph.node? id = _ from Graph.node?_translated id]
    rcases r.graph.node? id with _ | n
    · exact .pure _
    · cases n with
      | reference ref =>
        refine .read fun r => ?_
        have hfollow := follow_translated r.graph table ref
        generalize follow r.graph table ref = found at hfollow ⊢
        show Echoes _ (match follow r.graph.translated (translateTable table) (translateRef ref) with
          | .ok t => resolveType (translateTable table) depth t
          | .error e => MonadExcept.throw e)
        generalize follow r.graph.translated (translateTable table) (translateRef ref) = found'
          at hfollow ⊢
        rcases found with e | t <;> rcases found' with e' | t'
        · exact .throw e e'
        · cases hfollow
        · cases hfollow
        · obtain rfl := Option.some.inj hfollow
          exact resolveType_echoes depth t'
      | map key value =>
        refine .bind (resolveType_echoes depth value) fun value => ?_
        exact .bind (.modify fun r => setMapValue_translated r id key value) fun _ => .pure _
      | message m => exact .bind (resolveMessage_echoes depth id) fun _ => .pure _
      | _ => exact .pure _
termination_by structural depth => depth

theorem resolveMessage_echoes : ∀ depth id : Nat,
    Echoes (resolveMessage table depth id) (resolveMessage (translateTable table) depth id)
  | 0, _ => by
    unfold resolveMessage
    exact .throw _ _
  | depth + 1, id => by
    unfold resolveMessage
    refine .read fun r => ?_
    rw [show r.translated.graph.message? id = _ from
      Graph.message?_mapNodes r.graph Node.relabelled_translated id]
    rcases r.graph.message? id with _ | m
    · exact .pure _
    · show Echoes (if r.visited.contains id then _ else _) (if r.visited.contains id then _ else _)
      split
      · exact .pure _
      · refine .bind (.modify fun r => rfl) fun _ => .bind (.forM fun child _ => ?_)
          fun _ => .forM fun (field, position) _ => ?_
        · split
          · refine .read fun r => ?_
            rw [show r.translated.graph.message? _ = _ from
              Graph.message?_mapNodes r.graph Node.relabelled_translated _]
            split
            · exact resolveMessage_echoes depth _
            · exact .pure _
          · exact .pure _
        · refine .bind (.within _ _ (resolveType_echoes depth field.type)) fun t => ?_
          exact .modify fun r => setFieldType_translated r id position t
termination_by structural depth => depth

end

theorem depth_translated (g : Graph) : g.translated.depth = g.depth := by
  rw [Graph.depth, Graph.depth, Graph.translated, Graph.size_mapNodes]

theorem resolveAt_echoes (t : TypeRef) :
    Echoes (resolveAt table t) (resolveAt (translateTable table) t) := by
  refine .read fun r => ?_
  rw [show r.translated.graph.depth = _ from depth_translated r.graph]
  exact resolveType_echoes table _ t

theorem resolvePackage_echoes (package : Nat) :
    Echoes (resolvePackage table package) (resolvePackage (translateTable table) package) := by
  refine .read fun r => ?_
  rw [show r.translated.graph.children package = _ from
    Graph.children_mapNodes r.graph Node.relabelled_translated package]
  refine .forM fun child _ => ?_
  split
  · refine .read fun r' => ?_
    rw [show r'.translated.graph.message? _ = _ from
        Graph.message?_mapNodes r'.graph Node.relabelled_translated _,
      show r.translated.graph.depth = _ from depth_translated r.graph]
    split
    · exact resolveMessage_echoes table _ _
    · exact .pure _
  · exact .pure _

end Types

end ApiProto.Proto

namespace ApiProto.Compile

open Proto Document CompileM

variable {c : Compilation}

/-- A step of resolution is run in lockstep on the graphs of both versions. -/
theorem resolving_mirrors {α : Type} (visited : List Nat) {step step' : Definitions → ResolveM α}
    (h : Echoes (step c.table) (step' c.translated.table)) :
    Mirrors id c (resolving visited step) (resolving visited step') := by
  obtain ⟨hresult, hstate⟩ := h ⟨c.graph, visited⟩
  have hrun : ∀ (step : Definitions → ResolveM α) (c : Compilation),
      resolving visited step c = ((step c.table).run.run ⟨c.graph, visited⟩).1.map fun a =>
        ((a, ((step c.table).run.run ⟨c.graph, visited⟩).2.visited),
          { c with graph := ((step c.table).run.run ⟨c.graph, visited⟩).2.graph }) := fun _ _ => rfl
  have hstart : (⟨c.translated.graph, visited⟩ : Resolution) =
      Resolution.translated ⟨c.graph, visited⟩ := rfl
  constructor
  · intro a c₁ hok
    rw [hrun] at hok ⊢
    rw [hstart, hstate]
    generalize (step c.table).run.run ⟨c.graph, visited⟩ = run at hok hresult ⊢
    generalize ((step' c.translated.table).run.run _).1 = outcome at hresult ⊢
    obtain ⟨e | b, r⟩ := run
    · cases hok
    · obtain ⟨rfl, rfl⟩ := Prod.mk.inj (Except.ok.inj hok)
      rcases outcome with e | b'
      · cases hresult
      · obtain rfl := Option.some.inj hresult
        rfl
  · intro e herror
    rw [hrun] at herror ⊢
    rw [hstart]
    generalize (step c.table).run.run ⟨c.graph, visited⟩ = run at herror hresult ⊢
    generalize (step' c.translated.table).run.run _ = run' at hresult ⊢
    obtain ⟨e | b, r⟩ := run
    · obtain ⟨e' | b', r'⟩ := run'
      · exact ⟨e', rfl⟩
      · cases hresult
    · cases herror

theorem redefine_mirrors (ref : String) (d : Definition) :
    Mirrors id c (redefine ref d) (redefine (translateRef ref) d) := by
  refine .of_ok rfl ?_
  have hkeys : c.translated.definitions.map (fun entry =>
        (entry.1, if entry.1 = translateRef ref then d else entry.2)) =
      (c.definitions.map fun entry => (entry.1, if entry.1 = ref then d else entry.2)).map
        fun entry => (translateRef entry.1, entry.2) := by
    simp only [Compilation.translated, List.map_map, Function.comp_def, translateRef_inj]
  exact congrArg (fun l => Except.ok ((), { c.translated with definitions := l })) hkeys

theorem resolveDefinitions_mirrors (l : List (String × Definition)) (visited : List Nat) :
    Mirrors id c (resolveDefinitions l visited)
      (resolveDefinitions (l.map fun entry => (translateRef entry.1, entry.2)) visited) := by
  induction l generalizing c visited with
  | nil => exact .pure rfl
  | cons entry rest ih =>
    obtain ⟨ref, d⟩ := entry
    refine .bind (k := id) (.within _ _ (resolving_mirrors visited ?_)) fun r _ _ => ?_
    · rw [Compilation.table_translated]
      exact resolveAt_echoes c.table d.unwrap
    · exact (redefine_mirrors ref _).bind fun _ _ _ => ih _

/-- References are resolved in lockstep. -/
theorem resolveAll_mirrors : Mirrors id c resolveAll resolveAll := by
  refine .read (.bind (k := id) (resolving_mirrors [] ?_) fun r _ _ => ?_)
  · rw [Compilation.table_translated]
    exact resolvePackage_echoes c.table c.package
  · exact resolveDefinitions_mirrors c.definitions r.2

end ApiProto.Compile
