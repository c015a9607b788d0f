import ApiProto.Proofs.Likeness

/-!
# The options of procedures

Nothing but the printer reads the options of procedures. So graphs that differ only in these options
are alike.

* `Graph.mapOptions` — changes the options of all procedures.
* `Likeness.ofOptions` — nodes that are the same once the options of procedures have been changed.
* `Graph.like_mapOptions` — a change of all options leaves a graph alike.
-/

namespace ApiProto.Proto

variable (change : List RpcOption → List RpcOption)

/-- Changes the options of a procedure. -/
def Rpc.mapOptions {τ : Type} (r : Rpc τ) : Rpc τ := { r with options := change r.options }

/-- Changes the options of the procedures of a node. -/
def Node.mapOptions : Node → Node
  | .service s => .service { s with rpcs := s.rpcs.map (Rpc.mapOptions change) }
  | n => n

theorem Node.relabelled_mapOptions (n : Node) : n.Relabelled (n.mapOptions change) := by
  cases n with
  | service s =>
    exact .service rfl (by simp [Node.mentions, Rpc.mapOptions, List.flatMap_map])
  | _ => exact .same _

/-- Nodes that are the same once options have been changed are akin. -/
theorem Node.akin_of_mapOptions_eq {n n' : Node} (h : n.mapOptions change = n'.mapOptions change) :
    n.Akin n' := by
  have hservice : ∀ s s' : Service TypeRef,
      (Node.service s).mapOptions change = (Node.service s').mapOptions change →
      (Node.service s).Akin (.service s') := by
    intro s s' h
    obtain ⟨hname, hrpcs⟩ := Service.mk.inj (Node.service.inj h)
    have hmap : ∀ {β : Type} (f : Rpc TypeRef → β), (∀ r, f (r.mapOptions change) = f r) →
        s'.rpcs.map f = s.rpcs.map f := by
      intro β f hf
      have hmaps := congrArg (List.map f) hrpcs
      simpa only [List.map_map, Function.comp_def, hf] using hmaps.symm
    refine .service hname.symm (hmap _ fun _ => rfl) ?_
    rw [mentions, mentions, List.flatMap_def, List.flatMap_def, hmap _ fun _ => rfl]
  cases n with
  | service s =>
    cases n' with
    | service s' => exact hservice s s' h
    | _ => cases h
  | _ =>
    cases n' <;> cases h
    exact .same _

/-- Nodes count as alike if they are the same once the options of procedures have been changed. -/
def Likeness.ofOptions : Likeness where
  alike n n' := n.mapOptions change = n'.mapOptions change
  akin := Node.akin_of_mapOptions_eq change
  fixed _ _ := rfl
  children _ _ _ h := by
    obtain rfl := Node.package.inj h
    rfl
  imports _ _ _ _ h := by
    obtain rfl := Node.package.inj h
    exact ⟨rfl, rfl⟩

/-- Packages that are the same stay so with any further import. -/
theorem Likeness.importsKeep_ofOptions (file : String) :
    ImportsKeep (Likeness.ofOptions change).alike file := by
  intro p p' h
  obtain rfl := Node.package.inj h
  exact ⟨rfl, rfl⟩

namespace Graph

/-- Changes the options of all procedures. -/
def mapOptions (g : Graph) : Graph := ⟨g.nodes.map (Node.mapOptions change)⟩

@[simp] theorem size_mapOptions (g : Graph) : (g.mapOptions change).size = g.size :=
  size_mapNodes _ g

@[simp] theorem node?_mapOptions (g : Graph) (id : Nat) :
    (g.mapOptions change).node? id = (g.node? id).map (Node.mapOptions change) :=
  node?_mapNodes _ g id

@[simp] theorem package?_mapOptions (g : Graph) (id : Nat) :
    (g.mapOptions change).package? id = g.package? id :=
  package?_mapNodes g (Node.relabelled_mapOptions change) id

/-- Without options, a graph is the same before and after they are changed. -/
theorem like_mapOptions (g : Graph) :
    g.Like (.ofOptions fun _ => []) (g.mapOptions change) where
  size_eq := g.size_mapOptions change
  nodes id := by
    rw [node?_mapOptions]
    rcases g.node? id with _ | n
    · exact .none
    · refine .some ?_
      show n.mapOptions _ = (n.mapOptions change).mapOptions _
      cases n with
      | service s => simp [Node.mapOptions, Rpc.mapOptions]
      | _ => rfl

@[simp] theorem typeName_mapOptions (g : Graph) (t : TypeRef) :
    (g.mapOptions change).typeName t = g.typeName t :=
  (g.like_mapOptions change).typeName_eq t

@[simp] theorem kindName_mapOptions (g : Graph) (t : TypeRef) :
    (g.mapOptions change).kindName t = g.kindName t :=
  (g.like_mapOptions change).kindName_eq t

/-- Graphs that are alike are the same once options have been changed. -/
theorem Like.mapOptions_eq {g g' : Graph} (h : g.Like (.ofOptions change) g') :
    g.mapOptions change = g'.mapOptions change := by
  refine congrArg Graph.mk (Array.ext_getElem? fun id => ?_)
  show (g.mapOptions change).node? id = (g'.mapOptions change).node? id
  rw [node?_mapOptions, node?_mapOptions]
  have hnode := h.nodes id
  generalize g.node? id = found at hnode ⊢
  generalize g'.node? id = found' at hnode ⊢
  cases hnode with
  | none => rfl
  | some halike => exact congrArg some halike

end Graph

end ApiProto.Proto
