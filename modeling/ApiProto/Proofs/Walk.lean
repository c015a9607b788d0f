import ApiProto.Proofs.Growth

/-!
# The walk of a resolution

What a successful resolution does, step by step: how a type, a message, the declarations in a
container, and the fields of a message are resolved.

* `ResolveM.outcome` — what a step gives, with the laws of the steps that others are made of.
* `Task`, `Walks` — what is to be resolved, and how resolving it changes a graph.
* `walks_of_resolveType`, `walks_of_resolvePackage` — what succeeds is a walk.
* `Walks.visited_subset`, `Walks.message?_of_visited` — messages stay visited, and a message that
  has been visited is only changed by a walk through its own fields.
-/

namespace ApiProto.Proto

/-! ## Steps -/

namespace ResolveM

variable {α β : Type} {m : ResolveM α} {f : α → ResolveM β} {r r' : Resolution} {e : Error}

/-- What a step gives, with the graph that results. -/
def outcome (m : ResolveM α) (r : Resolution) : Except Error α × Resolution := m.run.run r

theorem outcome_bind (m : ResolveM α) (f : α → ResolveM β) (r : Resolution) :
    outcome (m >>= f) r = match m.outcome r with
      | (.ok a, r₁) => (f a).outcome r₁
      | (.error e, r₁) => (.error e, r₁) := by
  show ExceptT.bindCont f (m.outcome r).1 (m.outcome r).2 = _
  rcases m.outcome r with ⟨e | a, r₁⟩ <;> rfl

@[simp] theorem outcome_get_bind (f : Resolution → ResolveM β) (r : Resolution) :
    outcome (get >>= f) r = (f r).outcome r := rfl

theorem bind_ok_iff {b : β} : outcome (m >>= f) r = (.ok b, r') ↔
    ∃ a r₁, m.outcome r = (.ok a, r₁) ∧ (f a).outcome r₁ = (.ok b, r') := by
  rw [outcome_bind]
  rcases m.outcome r with ⟨e | a, r₁⟩
  · simp
  · simp only [Prod.mk.injEq, Except.ok.injEq]
    exact ⟨fun h => ⟨a, r₁, ⟨rfl, rfl⟩, h⟩, fun ⟨_, _, ⟨rfl, rfl⟩, h⟩ => h⟩

theorem bind_error_iff : outcome (m >>= f) r = (.error e, r') ↔
    m.outcome r = (.error e, r') ∨
      ∃ a r₁, m.outcome r = (.ok a, r₁) ∧ (f a).outcome r₁ = (.error e, r') := by
  rw [outcome_bind]
  rcases m.outcome r with ⟨e | a, r₁⟩
  · simp
  · simp only [Prod.mk.injEq, Except.ok.injEq, reduceCtorEq, false_and, false_or]
    exact ⟨fun h => ⟨a, r₁, ⟨rfl, rfl⟩, h⟩, fun ⟨_, _, ⟨rfl, rfl⟩, h⟩ => h⟩

theorem outcome_within (frame : String) (m : ResolveM α) (r : Resolution) :
    outcome (within frame m) r = (framed frame (m.outcome r).1, (m.outcome r).2) := rfl

theorem within_ok_iff {frame : String} {a : α} :
    outcome (within frame m) r = (.ok a, r') ↔ m.outcome r = (.ok a, r') := by
  rw [outcome_within]
  rcases m.outcome r with ⟨result, r₁⟩
  simp only [Prod.mk.injEq, framed_ok_iff]

theorem within_error {frame : String} (h : outcome (within frame m) r = (.error e, r')) :
    ∃ e₀, m.outcome r = (.error e₀, r') ∧ e.cause = e₀.cause := by
  rw [outcome_within] at h
  rcases hm : m.outcome r with ⟨e₀ | a, r₁⟩ <;> rw [hm] at h
  · obtain ⟨heq, rfl⟩ := Prod.mk.inj h
    refine ⟨e₀, rfl, ?_⟩
    obtain rfl := Except.error.inj heq
    unfold Error.within
    split <;> rfl
  · cases h

end ResolveM

/-! ## Walks -/

/-- What is to be resolved. -/
inductive Task where
  /-- A type, and the type that it gives. -/
  | type (t t' : TypeRef)
  | message (id : Nat)
  | children (l : List TypeRef)
  /-- Fields of a message, with their positions. -/
  | fields (id : Nat) (l : List (Field TypeRef Value × Nat))

/-- How resolving changes a graph, and which messages it visits. -/
inductive Walks (targets : Targets) : Task → Resolution → Resolution → Prop
  | builtin {b : Builtin} {r : Resolution} : Walks targets (.type (.builtin b) (.builtin b)) r r
  | reference {id : Nat} {ref : String} {t t' : TypeRef} {r r' : Resolution} :
      r.graph.node? id = some (.reference ref) → follow r.graph targets ref = .ok t →
      Walks targets (.type t t') r r' → Walks targets (.type (.node id) t') r r'
  | map {id : Nat} {key value value' : TypeRef} {r r' : Resolution} :
      r.graph.node? id = some (.map key value) → Walks targets (.type value value') r r' →
      Walks targets (.type (.node id) (.node id)) r (r'.setMapValue id key value')
  | declared {id : Nat} {m : Message} {r r' : Resolution} :
      r.graph.node? id = some (.message m) → Walks targets (.message id) r r' →
      Walks targets (.type (.node id) (.node id)) r r'
  /-- A type that holds no others. -/
  | leaf {id : Nat} {r : Resolution} : (∀ ref, r.graph.node? id ≠ some (.reference ref)) →
      (∀ key value, r.graph.node? id ≠ some (.map key value)) →
      (∀ m, r.graph.node? id ≠ some (.message m)) →
      Walks targets (.type (.node id) (.node id)) r r
  | noMessage {id : Nat} {r : Resolution} : r.graph.message? id = none →
      Walks targets (.message id) r r
  | visited {id : Nat} {r : Resolution} : id ∈ r.visited → Walks targets (.message id) r r
  | fresh {id : Nat} {m : Message} {r r₁ r' : Resolution} : r.graph.message? id = some m →
      id ∉ r.visited → Walks targets (.children m.children) (r.visit id) r₁ →
      Walks targets (.fields id m.fields.zipIdx) r₁ r' → Walks targets (.message id) r r'
  | noChildren {r : Resolution} : Walks targets (.children []) r r
  | builtinChild {b : Builtin} {rest : List TypeRef} {r r' : Resolution} :
      Walks targets (.children rest) r r' → Walks targets (.children (.builtin b :: rest)) r r'
  | child {id : Nat} {rest : List TypeRef} {r r₁ r' : Resolution} :
      Walks targets (.message id) r r₁ → Walks targets (.children rest) r₁ r' →
      Walks targets (.children (.node id :: rest)) r r'
  | noFields {id : Nat} {r : Resolution} : Walks targets (.fields id []) r r
  | field {id i : Nat} {f : Field TypeRef Value} {rest : List (Field TypeRef Value × Nat)}
      {t : TypeRef} {r r₁ r' : Resolution} : Walks targets (.type f.type t) r r₁ →
      Walks targets (.fields id rest) (r₁.setFieldType id i t) r' →
      Walks targets (.fields id ((f, i) :: rest)) r r'

section Runs

variable {targets : Targets} {r r' : Resolution}

/-- Resolves the messages among the declarations in a container. -/
def resolveChild (targets : Targets) (depth : Nat) (child : TypeRef) : ResolveM Unit := do
  match child with
  | .node c => if ((← get).graph.message? c).isSome then resolveMessage targets depth c
  | .builtin _ => return

/-- Resolves the field at a position of a message. -/
def resolveField (targets : Targets) (depth id : Nat) (name : String) :
    Field TypeRef Value × Nat → ResolveM Unit := fun (field, position) => do
  let type ← ResolveM.within
    ("failed to resolve type of field " ++ field.name ++ " in " ++ name)
    (resolveType targets depth field.type)
  modify fun r => r.setFieldType id position type

theorem outcome_resolveType (targets : Targets) (depth id : Nat) (r : Resolution) :
    (resolveType targets (depth + 1) (.node id)).outcome r =
      (match r.graph.node? id with
        | some (.reference ref) =>
          match follow r.graph targets ref with
          | .ok t => resolveType targets depth t
          | .error e => throw e
        | some (.map key value) => do
          let value ← resolveType targets depth value
          modify fun (r : Resolution) => r.setMapValue id key value
          return .node id
        | some (.message _) => do
          resolveMessage targets depth id
          return .node id
        | _ => return .node id).outcome r := by
  conv => lhs; unfold resolveType
  rw [ResolveM.outcome_get_bind]
  rcases r.graph.node? id with _ | ⟨_ | _ | _ | _ | _ | _ | _ | _⟩
  all_goals rfl

theorem outcome_resolveMessage (targets : Targets) (depth id : Nat) (r : Resolution) :
    (resolveMessage targets (depth + 1) id).outcome r = match r.graph.message? id with
      | none => (.ok (), r)
      | some m => if id ∈ r.visited then (.ok (), r) else
          (do
            m.children.forM (resolveChild targets depth)
            m.fields.zipIdx.forM (resolveField targets depth id m.name)).outcome (r.visit id) := by
  conv => lhs; unfold resolveMessage
  rw [ResolveM.outcome_get_bind]
  rcases hm : r.graph.message? id with _ | m
  · rfl
  · simp only [List.contains_iff_mem]
    split
    · rfl
    · rfl

theorem walks_child {depth : Nat} {child : TypeRef}
    (hmessage : ∀ {id r r'}, (resolveMessage targets depth id).outcome r = (.ok (), r') →
      Walks targets (.message id) r r')
    (h : (resolveChild targets depth child).outcome r = (.ok (), r')) :
    Walks targets (.children [child]) r r' := by
  cases child with
  | builtin b =>
    obtain ⟨-, rfl⟩ := Prod.mk.inj h
    exact .builtinChild .noChildren
  | node c =>
    rw [resolveChild, ResolveM.outcome_get_bind] at h
    split at h
    · exact .child (hmessage h) .noChildren
    · next hnone =>
      obtain ⟨-, rfl⟩ := Prod.mk.inj h
      exact .child (.noMessage (by simpa using hnone)) .noChildren

theorem Walks.children_cons {child : TypeRef} {rest : List TypeRef} {r₁ : Resolution}
    (h : Walks targets (.children [child]) r r₁) (h' : Walks targets (.children rest) r₁ r') :
    Walks targets (.children (child :: rest)) r r' := by
  cases h with
  | builtinChild hnone =>
    cases hnone
    exact .builtinChild h'
  | child hmessage hnone =>
    cases hnone
    exact .child hmessage h'

theorem walks_children {depth : Nat} {l : List TypeRef}
    (hmessage : ∀ {id r r'}, (resolveMessage targets depth id).outcome r = (.ok (), r') →
      Walks targets (.message id) r r')
    (h : ResolveM.outcome (l.forM (resolveChild targets depth)) r = (.ok (), r')) :
    Walks targets (.children l) r r' := by
  induction l generalizing r with
  | nil =>
    obtain ⟨-, rfl⟩ := Prod.mk.inj h
    exact .noChildren
  | cons child rest ih =>
    obtain ⟨_, r₁, hfirst, hrest⟩ := ResolveM.bind_ok_iff.1 h
    exact (walks_child hmessage hfirst).children_cons (ih hrest)

theorem walks_field {depth id : Nat} {name : String} {entry : Field TypeRef Value × Nat}
    (htype : ∀ {t t' r r'}, (resolveType targets depth t).outcome r = (.ok t', r') →
      Walks targets (.type t t') r r')
    (h : (resolveField targets depth id name entry).outcome r = (.ok (), r')) :
    ∃ t r₁, Walks targets (.type entry.1.type t) r r₁ ∧ r' = r₁.setFieldType id entry.2 t := by
  obtain ⟨t, r₁, ht, hset⟩ := ResolveM.bind_ok_iff.1 h
  obtain ⟨-, rfl⟩ := Prod.mk.inj hset
  exact ⟨t, r₁, htype (ResolveM.within_ok_iff.1 ht), rfl⟩

theorem walks_fields {depth id : Nat} {name : String} {l : List (Field TypeRef Value × Nat)}
    (htype : ∀ {t t' r r'}, (resolveType targets depth t).outcome r = (.ok t', r') →
      Walks targets (.type t t') r r')
    (h : ResolveM.outcome (l.forM (resolveField targets depth id name)) r = (.ok (), r')) :
    Walks targets (.fields id l) r r' := by
  induction l generalizing r with
  | nil =>
    obtain ⟨-, rfl⟩ := Prod.mk.inj h
    exact .noFields
  | cons entry rest ih =>
    obtain ⟨_, r₁, hfirst, hrest⟩ := ResolveM.bind_ok_iff.1 h
    obtain ⟨t, r₂, ht, rfl⟩ := walks_field htype hfirst
    exact .field ht (ih hrest)

mutual

/-- A type that is resolved is walked through. -/
theorem walks_of_resolveType : ∀ (depth : Nat) {t t' : TypeRef} {r r' : Resolution},
    (resolveType targets depth t).outcome r = (.ok t', r') → Walks targets (.type t t') r r'
  | _, .builtin b, t', r, r', h => by
    unfold resolveType at h
    obtain ⟨heq, rfl⟩ := Prod.mk.inj h
    obtain rfl := Except.ok.inj heq
    exact .builtin
  | 0, .node _, t', r, r', h => by
    unfold resolveType at h
    cases h
  | depth + 1, .node id, t', r, r', h => by
    rw [outcome_resolveType] at h
    split at h
    · next ref hn =>
      split at h
      · next t ht => exact .reference hn ht (walks_of_resolveType depth h)
      · cases h
    · next key value hn =>
      obtain ⟨value', r₁, hvalue, hset⟩ := ResolveM.bind_ok_iff.1 h
      obtain ⟨heq, rfl⟩ := Prod.mk.inj hset
      obtain rfl := Except.ok.inj heq
      exact .map hn (walks_of_resolveType depth hvalue)
    · next m hn =>
      obtain ⟨_, r₁, hmessage, hpure⟩ := ResolveM.bind_ok_iff.1 h
      obtain ⟨heq, rfl⟩ := Prod.mk.inj hpure
      obtain rfl := Except.ok.inj heq
      exact .declared hn (walks_of_resolveMessage depth hmessage)
    · next hreference hmap hmessage =>
      obtain ⟨heq, rfl⟩ := Prod.mk.inj h
      obtain rfl := Except.ok.inj heq
      exact .leaf hreference hmap hmessage
termination_by structural depth => depth

/-- A message that is resolved is walked through. -/
theorem walks_of_resolveMessage : ∀ (depth : Nat) {id : Nat} {r r' : Resolution},
    (resolveMessage targets depth id).outcome r = (.ok (), r') → Walks targets (.message id) r r'
  | 0, _, _, _, h => by
    unfold resolveMessage at h
    cases h
  | depth + 1, id, r, r', h => by
    rw [outcome_resolveMessage] at h
    split at h
    · next hm =>
      obtain ⟨-, rfl⟩ := Prod.mk.inj h
      exact .noMessage hm
    · next m hm =>
      split at h
      · next hv =>
        obtain ⟨-, rfl⟩ := Prod.mk.inj h
        exact .visited hv
      · next hv =>
        obtain ⟨_, r₁, hchildren, hfields⟩ := ResolveM.bind_ok_iff.1 h
        exact .fresh hm hv (walks_children (walks_of_resolveMessage depth) hchildren)
          (walks_fields (walks_of_resolveType depth) hfields)
termination_by structural depth => depth

end

/-- A package that is resolved is walked through. -/
theorem walks_of_resolvePackage {package : Nat}
    (h : (resolvePackage targets package).outcome r = (.ok (), r')) :
    Walks targets (.children (r.graph.children package)) r r' := by
  unfold resolvePackage at h
  rw [ResolveM.outcome_get_bind] at h
  exact walks_children (walks_of_resolveMessage _) h

theorem walks_of_resolveAt {t t' : TypeRef} (h : (resolveAt targets t).outcome r = (.ok t', r')) :
    Walks targets (.type t t') r r' := by
  unfold resolveAt at h
  rw [ResolveM.outcome_get_bind] at h
  exact walks_of_resolveType _ h

end Runs

theorem Graph.ext_node? {g g' : Graph} (h : ∀ id, g.node? id = g'.node? id) : g = g' := by
  obtain ⟨nodes⟩ := g
  obtain ⟨nodes'⟩ := g'
  exact congrArg Graph.mk (Array.ext_getElem? h)

/-! ## Visited messages -/

namespace Resolution

@[simp] theorem visited_visit (r : Resolution) (id : Nat) :
    (r.visit id).visited = id :: r.visited := rfl

@[simp] theorem visited_setMapValue (r : Resolution) (id : Nat) (key value : TypeRef) :
    (r.setMapValue id key value).visited = r.visited := rfl

@[simp] theorem visited_setFieldType (r : Resolution) (id i : Nat) (t : TypeRef) :
    (r.setFieldType id i t).visited = r.visited := by
  unfold setFieldType
  split <;> rfl

theorem node?_setFieldType_of_ne {r : Resolution} {id k : Nat} (h : k ≠ id) (i : Nat) (t : TypeRef) :
    (r.setFieldType id i t).graph.node? k = r.graph.node? k := by
  unfold setFieldType
  split
  · rw [Graph.node?_put, if_neg fun heq => h heq.1.symm]
  · rfl

theorem node?_setFieldType {r : Resolution} {id : Nat} {m : Message}
    (hm : r.graph.message? id = some m) (i : Nat) (t : TypeRef) :
    (r.setFieldType id i t).graph.node? id = some (.message (m.setFieldType i t)) := by
  unfold setFieldType
  rw [hm, Graph.node?_put, if_pos ⟨rfl, Graph.lt_size_of_node? (Graph.node?_of_message? hm)⟩]

theorem node?_setMapValue {r : Resolution} {id : Nat} (h : id < r.graph.size)
    (key value : TypeRef) :
    (r.setMapValue id key value).graph.node? id = some (.map key value) := by
  rw [setMapValue, Graph.node?_put, if_pos ⟨rfl, h⟩]

theorem node?_setMapValue_of_ne {r : Resolution} {id k : Nat} (h : k ≠ id) (key value : TypeRef) :
    (r.setMapValue id key value).graph.node? k = r.graph.node? k := by
  rw [setMapValue, Graph.node?_put, if_neg fun heq => h heq.1.symm]

end Resolution

namespace Walks

variable {targets : Targets} {task : Task} {r r' : Resolution}

/-- Messages stay visited. -/
theorem visited_subset (h : Walks targets task r r') : r.visited ⊆ r'.visited := by
  induction h with
  | builtin | leaf | noMessage | visited | noChildren | noFields => exact List.Subset.refl _
  | reference _ _ _ ih | declared _ _ ih | builtinChild _ ih => exact ih
  | map _ _ ih => rwa [Resolution.visited_setMapValue]
  | fresh _ _ _ _ ih ih' => exact fun _ hk => ih' (ih (List.mem_cons_of_mem _ hk))
  | child _ _ ih ih' => exact fun _ hk => ih' (ih hk)
  | field _ _ ih ih' =>
    rw [Resolution.visited_setFieldType] at ih'
    exact fun _ hk => ih' (ih hk)

/-- A message that has been visited is only changed by a walk through its own fields. -/
theorem message?_of_visited (h : Walks targets task r r') {k : Nat} (hk : k ∈ r.visited)
    {m : Message} (hm : r.graph.message? k = some m) (htask : ∀ l, task ≠ .fields k l) :
    r'.graph.message? k = some m := by
  induction h with
  | builtin | leaf | noMessage | visited | noChildren | noFields => exact hm
  | reference _ _ _ ih | declared _ _ ih | builtinChild _ ih => exact ih hk hm nofun
  | @map id key value value' r r' hn _ ih =>
    have hother : k ≠ id := by
      rintro rfl
      exact nomatch (Graph.node?_of_message? hm).symm.trans hn
    refine Graph.message?_of_node? ?_
    rw [Resolution.node?_setMapValue_of_ne hother]
    exact Graph.node?_of_message? (ih hk hm nofun)
  | @fresh id m' r r₁ r' _ hv hchildren _ ih ih' =>
    have hk₁ : k ∈ r₁.visited := hchildren.visited_subset (List.mem_cons_of_mem _ hk)
    refine ih' hk₁ (ih (List.mem_cons_of_mem _ hk) hm nofun) fun l hl => ?_
    obtain ⟨rfl, -⟩ := Task.fields.inj hl
    exact hv hk
  | child hfirst _ ih ih' => exact ih' (hfirst.visited_subset hk) (ih hk hm nofun) nofun
  | @field id i f rest t r r₁ r' hfirst _ ih ih' =>
    have hother : k ≠ id := by
      rintro rfl
      exact htask _ rfl
    refine ih' (by simpa using hfirst.visited_subset hk) (Graph.message?_of_node? ?_)
      fun l hl => hother (Task.fields.inj hl).1.symm
    rw [Resolution.node?_setFieldType_of_ne hother]
    exact Graph.node?_of_message? (ih hk hm nofun)

end Walks

end ApiProto.Proto
