import ApiProto.Proofs.Relabelling

/-!
# Graphs that are alike

Little of what nodes hold is read while a package is compiled: names and kinds, what is mentioned and
what is inside, and the contents of messages. Graphs that differ only in the rest cannot be told
apart, and stay so when the same is added to both.

* `Node.Akin` — two nodes of the same kind and name that mention the same.
* `Likeness` — a relation of nodes that are akin, which is kept by what is added to a package.
* `Graph.Like` — two graphs, node by node in such a relation.
* `Graph.Like.typeName_eq`, `Graph.Like.lookup_eq`, `Graph.Like.dangling_eq` — what is read is the
  same.
* `Graph.Like.addChild`, `Graph.Like.addImport`, `Graph.Like.register` — what is added keeps graphs
  alike.
-/

namespace ApiProto.Proto

/-- Two nodes that can differ in the imports and options of a package, in the elements of an enum, and
in what procedures say besides their names and types. -/
inductive Node.Akin : Node → Node → Prop
  | same (n : Node) : Node.Akin n n
  | package {p p' : Package} : p'.name = p.name → p'.children = p.children →
      Node.Akin (.package p) (.package p')
  | enumeration {e e' : Enumeration} : e'.name = e.name →
      Node.Akin (.enumeration e) (.enumeration e')
  | service {s s' : Service TypeRef} : s'.name = s.name →
      s'.rpcs.map (·.name) = s.rpcs.map (·.name) →
      (Node.service s').mentions = (Node.service s).mentions → Node.Akin (.service s) (.service s')

namespace Node.Akin

variable {n n' : Node}

theorem mentions_eq (h : n.Akin n') : n'.mentions = n.mentions := by
  cases h with
  | service _ _ hmentions => exact hmentions
  | _ => rfl

theorem pending_eq (h : n.Akin n') : n'.pending = n.pending := by
  cases h <;> rfl

end Node.Akin

/-- Whether the contents of a node cannot differ between graphs that are alike. -/
def Node.isFixed : Node → Bool
  | .package _ | .service _ => false
  | _ => true

/-- Packages that are alike stay so with a further import. -/
def ImportsKeep (alike : Node → Node → Prop) (file : String) : Prop :=
  ∀ p p' : Package, alike (.package p) (.package p') →
    p'.imports.contains file = p.imports.contains file ∧
      alike (.package { p with imports := p.imports ++ [file] })
        (.package { p' with imports := p'.imports ++ [file] })

/-- When nodes count as alike: they are akin, and packages stay alike when something is added. -/
structure Likeness where
  alike : Node → Node → Prop
  akin : ∀ {n n' : Node}, alike n n' → n.Akin n'
  fixed : ∀ n : Node, n.isFixed = true → alike n n
  children : ∀ (p p' : Package) (t : TypeRef), alike (.package p) (.package p') →
    alike (.package { p with children := p.children ++ [t] })
      (.package { p' with children := p'.children ++ [t] })
  imports : ∀ entry ∈ knownImports, ImportsKeep alike entry.2

/-- Two graphs of which the nodes are alike. -/
structure Graph.Like (like : Likeness) (g g' : Graph) : Prop where
  size_eq : g'.size = g.size
  nodes : ∀ id, Option.Rel like.alike (g.node? id) (g'.node? id)

namespace Graph.Like

variable {like : Likeness} {g g' : Graph}

/-! ## What is read -/

section Read

variable (h : g.Like like g')
include h

theorem node?_of_some {id : Nat} {n : Node} (hn : g.node? id = some n) :
    ∃ n', g'.node? id = some n' ∧ like.alike n n' := by
  have hrel := h.nodes id
  rw [hn] at hrel
  generalize g'.node? id = found at hrel
  cases hrel with
  | some halike => exact ⟨_, rfl, halike⟩

theorem node?_of_none {id : Nat} (hn : g.node? id = none) : g'.node? id = none := by
  have hrel := h.nodes id
  rw [hn] at hrel
  generalize g'.node? id = found at hrel
  cases hrel
  rfl

/-- What holds of nothing and of akin nodes holds of what is found in two graphs. -/
@[elab_as_elim]
theorem node?_rec {motive : Option Node → Option Node → Prop} (id : Nat)
    (none : motive none none)
    (some : ∀ n n' : Node, n.Akin n' → motive (some n) (some n')) :
    motive (g.node? id) (g'.node? id) := by
  rcases hn : g.node? id with _ | n
  · rw [h.node?_of_none hn]
    exact none
  · obtain ⟨n', hn', halike⟩ := h.node?_of_some hn
    rw [hn']
    exact some n n' (like.akin halike)

theorem message?_eq (id : Nat) : g'.message? id = g.message? id := by
  unfold Graph.message?
  refine h.node?_rec id rfl fun n n' hakin => ?_
  cases hakin <;> rfl

theorem children_eq (id : Nat) : g'.children id = g.children id := by
  unfold Graph.children
  refine h.node?_rec id rfl fun n n' hakin => ?_
  cases hakin with
  | package _ hchildren => exact hchildren
  | _ => rfl

theorem kindName_eq (t : TypeRef) : g'.kindName t = g.kindName t := by
  cases t with
  | builtin b => rfl
  | node id =>
    unfold Graph.kindName
    dsimp only
    refine h.node?_rec id rfl fun n n' hakin => ?_
    cases hakin <;> rfl

theorem isMessage_eq (t : TypeRef) : g'.isMessage t = g.isMessage t := by
  cases t with
  | builtin b => rfl
  | node id =>
    unfold Graph.isMessage
    dsimp only
    refine h.node?_rec id rfl fun n n' hakin => ?_
    cases hakin <;> rfl

theorem isDeclared_eq (t : TypeRef) : g'.isDeclared t = g.isDeclared t := by
  cases t with
  | builtin b => rfl
  | node id =>
    unfold Graph.isDeclared
    dsimp only
    refine h.node?_rec id rfl fun n n' hakin => ?_
    cases hakin <;> rfl

theorem nameWithin_eq (depth : Nat) (t : TypeRef) :
    g'.nameWithin depth t = g.nameWithin depth t := by
  induction depth generalizing t with
  | zero =>
    rcases t with b | id
    · simp only [nameWithin]
    · simp only [nameWithin]
      rcases hn : g.node? id with _ | n
      · rw [h.node?_of_none hn]
      · obtain ⟨n', hn', halike⟩ := h.node?_of_some hn
        rw [hn']
        cases like.akin halike with
        | package hname | enumeration hname | service hname => exact hname
        | same => rfl
  | succ depth ih =>
    rcases t with b | id
    · simp only [nameWithin]
    · simp only [nameWithin]
      rcases hn : g.node? id with _ | n
      · rw [h.node?_of_none hn]
      · obtain ⟨n', hn', halike⟩ := h.node?_of_some hn
        rw [hn']
        cases like.akin halike with
        | package hname | enumeration hname | service hname => exact hname
        | same => cases n <;> simp only [ih]

theorem typeName_eq (t : TypeRef) : g'.typeName t = g.typeName t := by
  rw [typeName, typeName, h.size_eq, h.nameWithin_eq]

theorem lookup_eq (r : Registry) (name : String) (scope : Scope) :
    r.lookup g' name scope = r.lookup g name scope := by
  simp only [Registry.lookup, h.typeName_eq]

theorem key_eq (scope : Scope) (name : String) :
    Registry.key g' scope name = Registry.key g scope name := by
  simp only [Registry.key, h.typeName_eq]

/-- The references that are met on a walk are the same. -/
theorem danglingFrom_eq (visited : List Nat) (todo : List TypeRef) :
    danglingFrom g' visited todo = danglingFrom g visited todo := by
  fun_induction danglingFrom g visited todo with
  | case1 => rw [danglingFrom]
  | case2 visited b todo ih => rw [danglingFrom, ih]
  | case3 visited id todo hv ih => rw [danglingFrom_of_mem (by simpa using hv), ih]
  | case4 visited id todo hv hn ih =>
    rw [danglingFrom_of_none (by simpa using hv) (h.node?_of_none hn), ih]
  | case5 visited id todo hv ref hn _ found ih =>
    obtain ⟨n', hn', halike⟩ := h.node?_of_some hn
    have hakin := like.akin halike
    rw [danglingFrom_of_some (by simpa using hv) hn', hakin.mentions_eq, hakin.pending_eq, ih]
    rfl
  | case6 visited id todo hv n hn found _ hr ih =>
    obtain ⟨n', hn', halike⟩ := h.node?_of_some hn
    have hakin := like.akin halike
    rw [danglingFrom_of_some (by simpa using hv) hn', hakin.mentions_eq, hakin.pending_eq, ih]
    cases n with
    | reference ref => exact (hr ref hn rfl .rfl).elim
    | _ => rfl

theorem dangling_eq (package : Nat) : dangling g' package = dangling g package := by
  rw [dangling, dangling, h.children_eq, h.danglingFrom_eq]

end Read

/-! ## What is added -/

theorem refl (hrefl : ∀ n, like.alike n n) (g : Graph) : g.Like like g where
  size_eq := rfl
  nodes id := by
    rcases g.node? id with _ | n
    · exact .none
    · exact .some (hrefl n)

section Add

variable (h : g.Like like g')
include h

theorem add {n n' : Node} (hn : like.alike n n') :
    (g.add n).1.Like like (g'.add n').1 ∧ (g'.add n').2 = (g.add n).2 := by
  refine ⟨⟨by rw [size_add, size_add, h.size_eq], fun id => ?_⟩, h.size_eq⟩
  rw [node?_add, node?_add, h.size_eq]
  split
  · exact .some hn
  · exact h.nodes id

theorem put {n n' : Node} (hn : like.alike n n') (id : Nat) :
    (g.put id n).Like like (g'.put id n') := by
  refine ⟨by rw [size_put, size_put, h.size_eq], fun k => ?_⟩
  rw [node?_put, node?_put, h.size_eq]
  split
  · exact .some hn
  · exact h.nodes k

theorem addChild (parent : Nat) (t : TypeRef) :
    (g.addChild parent t).Like like (g'.addChild parent t) := by
  unfold Graph.addChild
  rcases hn : g.node? parent with _ | n
  · rw [h.node?_of_none hn]
    exact h
  · obtain ⟨n', hn', halike⟩ := h.node?_of_some hn
    rw [hn']
    cases like.akin halike with
    | package => exact h.put (like.children _ _ t halike) parent
    | same =>
      cases n with
      | package => exact h.put (like.children _ _ t halike) parent
      | message => exact h.put (like.fixed _ rfl) parent
      | _ => exact h
    | _ => exact h

theorem addImport {file : String} (hfile : ImportsKeep like.alike file) (package : Nat) :
    (g.addImport package file).Like like (g'.addImport package file) := by
  have hput : ∀ {p p'}, like.alike (.package p) (.package p') →
      Graph.Like like
        (if p.imports.contains file then g
          else g.put package (.package { p with imports := p.imports ++ [file] }))
        (if p'.imports.contains file then g'
          else g'.put package (.package { p' with imports := p'.imports ++ [file] })) := by
    intro p p' halike
    obtain ⟨hcontains, hkeeps⟩ := hfile p p' halike
    rw [hcontains]
    split
    · exact h
    · exact h.put hkeeps package
  unfold Graph.addImport package?
  rcases hn : g.node? package with _ | n
  · rw [h.node?_of_none hn]
    exact h
  · obtain ⟨n', hn', halike⟩ := h.node?_of_some hn
    rw [hn']
    cases like.akin halike with
    | package => exact hput halike
    | same =>
      cases n with
      | package => exact hput halike
      | _ => exact h
    | _ => exact h

/-- A type is declared in both graphs or in neither. -/
theorem register (r : Registry) (t : TypeRef) (parent : Nat) (scope : Scope) :
    (r.register g t parent scope).2.1.Like like (r.register g' t parent scope).2.1 ∧
      (r.register g' t parent scope).2.2 = (r.register g t parent scope).2.2 := by
  rcases t with b | id
  · exact ⟨h, rfl⟩
  · simp only [Registry.register, h.typeName_eq, h.isDeclared_eq, h.key_eq]
    split
    · exact ⟨h, rfl⟩
    · split
      · exact ⟨h, rfl⟩
      · exact ⟨h.addChild parent _, rfl⟩

end Add

end Graph.Like

end ApiProto.Proto
