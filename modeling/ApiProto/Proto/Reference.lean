import ApiProto.Error
import ApiProto.Proto.Graph

/-!
# Following references

A reference is looked up, in a table of definitions or in another way. What it stands for may be a
reference again, so a chain is followed to its end. It ends since the references in a graph are
finitely many, whatever they stand for.

* `Targets` — what references stand for; `Targets.ofTable`, by a table of definitions.
* `follow` — the first type of a chain that is no reference.
* `dangling` — the references that can be reached from given types.
-/

namespace ApiProto.Proto

/-- The reference that a type is, if it is one. -/
def Graph.reference? (g : Graph) : TypeRef → Option String
  | .builtin _ => none
  | .node id =>
    match g.node? id with
    | some (.reference ref) => some ref
    | _ => none

theorem Graph.reference?_eq_some_iff {g : Graph} {t : TypeRef} {ref : String} :
    g.reference? t = some ref ↔ ∃ id, t = .node id ∧ g.node? id = some (.reference ref) := by
  cases t with
  | builtin b => simp [Graph.reference?]
  | node id =>
    rcases hn : g.node? id with _ | n
    · simp [Graph.reference?, hn]
    · cases n <;> simp [Graph.reference?, hn]

/-- The references that stand in a graph. -/
def Graph.references (g : Graph) : List String :=
  (List.range g.size).filterMap fun id => g.reference? (.node id)

theorem Graph.mem_references {g : Graph} {t : TypeRef} {ref : String}
    (h : g.reference? t = some ref) : ref ∈ g.references := by
  obtain ⟨id, rfl, hn⟩ := reference?_eq_some_iff.1 h
  obtain ⟨hid, -⟩ := Array.getElem?_eq_some_iff.1 hn
  exact List.mem_filterMap.2 ⟨id, List.mem_range.2 hid, h⟩

/-- What references stand for: types, or errors. -/
structure Targets where
  resolve : String → Except Error TypeRef

/-- Types by the references that name them. -/
abbrev Definitions := List (String × TypeRef)

/-- What references stand for by a table of definitions. -/
def Targets.ofTable (table : Definitions) : Targets where
  resolve ref :=
    match table.lookup ref with
    | some t => .ok t
    | none => fail (.unresolved ref)

/-- A table of definitions says what references stand for. -/
instance : Coe Definitions Targets := ⟨Targets.ofTable⟩

@[simp] theorem Targets.resolve_ofTable_eq_ok {table : Definitions} {ref : String} {t : TypeRef} :
    (ofTable table).resolve ref = .ok t ↔ table.lookup ref = some t := by
  rcases ht : table.lookup ref with _ | t' <;> simp [ofTable, ht, fail]

@[simp] theorem Targets.resolve_ofTable_eq_error {table : Definitions} {ref : String} {e : Error} :
    (ofTable table).resolve ref = .error e ↔
      table.lookup ref = none ∧ e = .of (.unresolved ref) := by
  rcases ht : table.lookup ref with _ | t' <;> simp [ofTable, ht, fail, eq_comm]

/-- A list has more members of a class than of a smaller class that leaves one of them out. -/
theorem length_filter_lt {α : Type} {p q : α → Bool} {l : List α} {a : α}
    (hpq : ∀ x, p x = true → q x = true) (ha : a ∈ l) (hp : p a = false) (hq : q a = true) :
    (l.filter p).length < (l.filter q).length := by
  simp only [← List.countP_eq_length_filter]
  obtain ⟨before, after, rfl⟩ := List.append_of_mem ha
  have hle : ∀ l : List α, l.countP p ≤ l.countP q := fun l =>
    List.countP_mono_left fun x _ => hpq x
  have h₁ := hle before
  have h₂ := hle after
  simp only [List.countP_append, List.countP_cons, hp, hq]
  simp
  omega

/-- The number of references that have not been seen, among those in a graph and the one that a
chain has come to. -/
def unseen (g : Graph) (seen : List String) (ref : String) : Nat :=
  ((g.references.insert ref).filter fun r => !seen.contains r).length

/-- A chain comes to a reference of the graph, which was there to be seen before. -/
theorem unseen_next_lt {g : Graph} {seen : List String} {ref next : String} {t : TypeRef}
    (hs : seen.contains ref = false) (hnext : g.reference? t = some next) :
    unseen g (ref :: seen) next < unseen g seen ref := by
  have hsub : (g.references.insert next).Sublist (g.references.insert ref) := by
    rw [List.insert_of_mem (Graph.mem_references hnext), List.insert]
    split
    · exact List.Sublist.refl _
    · exact List.sublist_cons_self ..
  refine Nat.lt_of_le_of_lt (hsub.filter _).length_le ?_
  refine length_filter_lt (a := ref) (fun x hx => ?_) List.mem_insert_self (by simp)
    (by simpa using hs)
  simp at hx ⊢
  exact hx.2

/-- The error for a chain from `start` that comes back to `ref`. -/
def circularChain (start ref : String) : Error :=
  (Error.of (.unresolved start)).wrap ("circular reference chain through " ++ ref)

/-- Follows the chain that started at the reference `start` and has come to `ref` by way of the
references `seen`. -/
def followFrom (g : Graph) (targets : Targets) (start : String) (seen : List String)
    (ref : String) : Except Error TypeRef :=
  if _hs : seen.contains ref then .error (circularChain start ref)
  else match targets.resolve ref with
    | .error e => .error e
    | .ok t =>
      match _hnext : g.reference? t with
      | some next => followFrom g targets start (ref :: seen) next
      | none => .ok t
termination_by unseen g seen ref
decreasing_by exact unseen_next_lt (by simpa using _hs) _hnext

/-- The type at the end of the chain that starts at a reference (`resolve_reference`). -/
def follow (g : Graph) (targets : Targets) (ref : String) : Except Error TypeRef :=
  followFrom g targets ref [] ref

/-- The types that a node mentions, nested declarations first. -/
def Node.mentions : Node → List TypeRef
  | .map key value => [key, value]
  | .message m => m.children ++ m.fields.map (·.type)
  | .service s => s.rpcs.flatMap fun rpc => [rpc.parameter, rpc.response]
  | _ => []

/-- The number of nodes that have not been visited. -/
def unvisited (g : Graph) (visited : List Nat) : Nat :=
  ((List.range g.size).filter fun id => !visited.contains id).length

theorem unvisited_cons_lt {g : Graph} {visited : List Nat} {id : Nat} {n : Node}
    (hv : visited.contains id = false) (hn : g.node? id = some n) :
    unvisited g (id :: visited) < unvisited g visited := by
  have hid : id < g.size := by
    simp only [Graph.node?, Graph.size] at hn ⊢
    exact (Array.getElem?_eq_some_iff.1 hn).1
  refine length_filter_lt (fun x hx => ?_) (List.mem_range.2 hid) (by simp) (by simpa using hv)
  simp at hx ⊢
  exact hx.2

/-- The references met on a walk through the types `todo` and all that they mention, nodes being
visited once. -/
def danglingFrom (g : Graph) (visited : List Nat) : List TypeRef → List String
  | [] => []
  | .builtin _ :: todo => danglingFrom g visited todo
  | .node id :: todo =>
    if _hv : visited.contains id then danglingFrom g visited todo
    else match _hn : g.node? id with
      | none => danglingFrom g visited todo
      | some n =>
        let found := danglingFrom g (id :: visited) (n.mentions ++ todo)
        match n with
        | .reference ref => ref :: found
        | _ => found
termination_by todo => (unvisited g visited, todo.length)
decreasing_by
  · exact Prod.Lex.right _ (by simp)
  · exact Prod.Lex.right _ (by simp)
  · exact Prod.Lex.right _ (by simp)
  · exact Prod.Lex.left _ _ (unvisited_cons_lt (by simpa using _hv) _hn)

/-- The references that can be reached from the declarations of a package, in the order of a walk
that goes into each node before it goes on (`find_unresolved_references`). -/
def dangling (g : Graph) (package : Nat) : List String := danglingFrom g [] (g.children package)

end ApiProto.Proto
