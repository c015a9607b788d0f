import ApiProto.Proofs.ResolutionSteps
import Mathlib.Tactic.SplitIfs

/-!
# Relabelled graphs

A change of all nodes that leaves alone all but what references are called, and what procedures say
besides their names and types. Nearly all that is read of a graph is the same after the change, and
what is added to a graph may be added before or after it.

* `Node.Relabelled` — a node before and after such a change.
* `Graph.mapNodes` — a change of all nodes of a graph.
* `Graph.put_mapNodes`, `Graph.addChild_mapNodes`, … — additions before and after a change.
* `Graph.message?_mapNodes`, `Graph.children_mapNodes`, … — what is the same after it.
-/

namespace ApiProto.Proto

/-- A node before and after a change that keeps its kind and what it mentions: only the texts of
references and the procedures of services may differ. -/
inductive Node.Relabelled : Node → Node → Prop
  | same (n : Node) : Node.Relabelled n n
  | service {s s' : Service TypeRef} : s'.name = s.name →
      (Node.service s').mentions = (Node.service s).mentions →
      Node.Relabelled (.service s) (.service s')
  | reference (ref ref' : String) : Node.Relabelled (.reference ref) (.reference ref')

theorem Node.Relabelled.mentions_eq {n n' : Node} (h : n.Relabelled n') :
    n'.mentions = n.mentions := by
  cases h with
  | same => rfl
  | service _ hmentions => exact hmentions
  | reference => rfl

namespace Graph

/-- Changes all nodes. -/
def mapNodes (change : Node → Node) (g : Graph) : Graph := ⟨g.nodes.map change⟩

variable (change : Node → Node) (g : Graph)

@[simp] theorem size_mapNodes : (g.mapNodes change).size = g.size := by
  simp [mapNodes, size]

@[simp] theorem node?_mapNodes (id : Nat) :
    (g.mapNodes change).node? id = (g.node? id).map change := by
  simp [mapNodes, node?]

theorem add_mapNodes (n : Node) : (g.mapNodes change).add (change n) =
    ((g.add n).1.mapNodes change, (g.add n).2) := by
  simp [mapNodes, add]

theorem put_mapNodes (id : Nat) (n : Node) :
    (g.mapNodes change).put id (change n) = (g.put id n).mapNodes change := by
  simp [mapNodes, put, Array.map_setIfInBounds]

variable {change} (h : ∀ n : Node, n.Relabelled (change n))
include h

theorem change_package (p : Package) : change (.package p) = .package p := by
  have hp := h (.package p)
  generalize change (.package p) = n at hp ⊢
  cases hp
  rfl

theorem change_message (m : Message) : change (.message m) = .message m := by
  have hm := h (.message m)
  generalize change (.message m) = n at hm ⊢
  cases hm
  rfl

theorem message?_mapNodes (id : Nat) : (g.mapNodes change).message? id = g.message? id := by
  simp only [message?, node?_mapNodes]
  rcases g.node? id with _ | n
  · rfl
  · have hn := h n
    rw [Option.map_some]
    generalize change n = n' at hn ⊢
    cases hn <;> rfl

theorem package?_mapNodes (id : Nat) : (g.mapNodes change).package? id = g.package? id := by
  simp only [package?, node?_mapNodes]
  rcases g.node? id with _ | n
  · rfl
  · have hn := h n
    rw [Option.map_some]
    generalize change n = n' at hn ⊢
    cases hn <;> rfl

theorem kindName_mapNodes (t : TypeRef) : (g.mapNodes change).kindName t = g.kindName t := by
  rcases t with b | id
  · rfl
  · simp only [kindName, node?_mapNodes]
    rcases g.node? id with _ | n
    · rfl
    · have hn := h n
      rw [Option.map_some]
      generalize change n = n' at hn ⊢
      cases hn <;> rfl

theorem isMessage_mapNodes (t : TypeRef) : (g.mapNodes change).isMessage t = g.isMessage t := by
  rcases t with b | id
  · rfl
  · simp only [isMessage, node?_mapNodes]
    rcases g.node? id with _ | n
    · rfl
    · have hn := h n
      rw [Option.map_some]
      generalize change n = n' at hn ⊢
      cases hn <;> rfl

theorem isDeclared_mapNodes (t : TypeRef) : (g.mapNodes change).isDeclared t = g.isDeclared t := by
  rcases t with b | id
  · rfl
  · simp only [isDeclared, node?_mapNodes]
    rcases g.node? id with _ | n
    · rfl
    · have hn := h n
      rw [Option.map_some]
      generalize change n = n' at hn ⊢
      cases hn <;> rfl

theorem children_mapNodes (id : Nat) : (g.mapNodes change).children id = g.children id := by
  simp only [children, node?_mapNodes]
  rcases g.node? id with _ | n
  · rfl
  · have hn := h n
    rw [Option.map_some]
    generalize change n = n' at hn ⊢
    cases hn <;> rfl

theorem put_package_mapNodes (id : Nat) (p : Package) :
    (g.mapNodes change).put id (.package p) = (g.put id (.package p)).mapNodes change := by
  have hput := put_mapNodes change g id (.package p)
  rwa [change_package h] at hput

theorem put_message_mapNodes (id : Nat) (m : Message) :
    (g.mapNodes change).put id (.message m) = (g.put id (.message m)).mapNodes change := by
  have hput := put_mapNodes change g id (.message m)
  rwa [change_message h] at hput

theorem addChild_mapNodes (parent : Nat) (t : TypeRef) :
    (g.mapNodes change).addChild parent t = (g.addChild parent t).mapNodes change := by
  simp only [addChild, node?_mapNodes]
  rcases g.node? parent with _ | n
  · rfl
  · have hn := h n
    rw [Option.map_some]
    generalize change n = n' at hn ⊢
    cases hn with
    | same =>
      cases n with
      | package p => exact put_package_mapNodes g h parent _
      | message m => exact put_message_mapNodes g h parent _
      | _ => rfl
    | service => rfl
    | reference => rfl

theorem addImport_mapNodes (package : Nat) (file : String) :
    (g.mapNodes change).addImport package file = (g.addImport package file).mapNodes change := by
  simp only [addImport, package?_mapNodes g h]
  rcases g.package? package with _ | p
  · rfl
  · dsimp only
    split
    · rfl
    · exact put_package_mapNodes g h package _

/-- The references that are met on a walk are changed as the nodes are. -/
theorem danglingFrom_mapNodes {f : String → String}
    (hpending : ∀ n : Node, (change n).pending = n.pending.map f) (visited : List Nat)
    (todo : List TypeRef) : danglingFrom (g.mapNodes change) visited todo =
      (danglingFrom g visited todo).map f := by
  have hsome : ∀ {id n}, g.node? id = some n → (g.mapNodes change).node? id = some (change n) := by
    intro id n hn
    rw [node?_mapNodes, hn, Option.map_some]
  fun_induction danglingFrom g visited todo with
  | case1 => rw [danglingFrom, List.map_nil]
  | case2 visited b todo ih => rw [danglingFrom, ih]
  | case3 visited id todo hv ih => rw [danglingFrom_of_mem (by simpa using hv), ih]
  | case4 visited id todo hv hn ih =>
    rw [danglingFrom_of_none (by simpa using hv) (by simp [hn]), ih]
  | case5 visited id todo hv ref hn _ found ih =>
    rw [danglingFrom_of_some (by simpa using hv) (hsome hn), (h _).mentions_eq, ih, hpending]
    rfl
  | case6 visited id todo hv n hn found _ hr ih =>
    rw [danglingFrom_of_some (by simpa using hv) (hsome hn), (h _).mentions_eq, ih, hpending]
    cases n with
    | reference ref => exact (hr ref hn rfl .rfl).elim
    | _ => rfl

theorem dangling_mapNodes {f : String → String}
    (hpending : ∀ n : Node, (change n).pending = n.pending.map f) (package : Nat) :
    dangling (g.mapNodes change) package = (dangling g package).map f := by
  rw [dangling, children_mapNodes g h, danglingFrom_mapNodes g h hpending]
  rfl

end Graph

end ApiProto.Proto
