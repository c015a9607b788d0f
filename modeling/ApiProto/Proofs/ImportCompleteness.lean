import ApiProto.Document.Build
import ApiProto.Proofs.Imports

/-!
# Completeness of the imports

No file is imported twice, and every type that a package uses is imported, but for types at places
that the compiler passes over: items of list wrappers, what took the place of a reference, and
values of maps that are not themselves the type of a field.

* `Runs.announces`, `Builds.announces` — runs and building keep what they announce.
-/

namespace ApiProto.Compile

open Proto Document CompileM

variable {env : Environment} {scope : Scope} {g₀ : Graph} {c c' : Compilation}

/-! ## Runs -/

theorem Compilation.Announces.listWrapper (h : c.Announces g₀) (hc : c.Closed)
    (name field about : String) (comment : Value) (item : TypeRef) :
    (c.withNode (.message (listWrapper name field about comment item))).Announces g₀ := by
  refine h.withNode hc (fun m heq => .inl ?_) (by simp) (by simp)
  obtain rfl := Node.message.inj heq
  exact ⟨about, rfl⟩

/-- A run announces what it uses. -/
theorem Runs.announces {ts : List TypeRef} (h : Runs env scope c ts c') (hpackage : c.package ∈ scope)
    (hc : c.Closed) (ha : c.Announces g₀) : c'.Announces g₀ := by
  induction h with
  | nil => exact ha
  | cons hfirst _ ih ih' =>
    have hpackage' := (hfirst.grows hpackage).package ▸ hpackage
    exact ih' hpackage' (hfirst.closed hpackage hc).1 (ih hpackage hc ha)
  | builtin b _ ih => exact ih hpackage hc ha
  | importing name hrun ih => exact (ih hpackage hc ha).importing (hrun.closed hpackage hc).1 name
  | reference href => exact ha.compileReference hc href
  | found => exact ha
  | declared hrun ih => exact (ih hpackage hc ha).declareHere (hrun.closed hpackage hc).1 _ _
  | enumeration rawName elements =>
    have hnode := ha.withNode hc (n := .enumeration ⟨Name.pascal rawName, elements, ""⟩) (by simp)
      (by simp) (by simp)
    exact hnode.declareHere (hc.withNode (by simp [Node.mentions])) _ _
  | map hrun ih =>
    exact (ih hpackage hc ha).withNode (hrun.closed hpackage hc).1 (by simp) (by simp) (by simp)
  | @objectWrapper _ _ c₁ item rawName field about comment hrun ih =>
    obtain ⟨hc₁, hitem⟩ := hrun.closed hpackage hc
    have hnode := (ih hpackage hc ha).listWrapper hc₁
      (withoutMessage (Name.pascal rawName) ++ "List") field about comment item
    exact hnode.declareHere (hc₁.withNode (by
      simpa [Node.mentions, Compile.listWrapper] using hitem)) _ _
  | @sharedWrapper _ c c₁ ref d rawName _ href =>
    obtain ⟨hc₁, hitem⟩ := hc.compileReference href
    have hnode := (ha.compileReference hc href).listWrapper hc₁
      (listWrapperName env.spec c₁ (Name.pascal rawName)) "items" (Name.pascal rawName) (.text "")
      d.unwrap
    have hclosed := hc₁.withNode (n := .message (Compile.listWrapper
      (listWrapperName env.spec c₁ (Name.pascal rawName)) "items" (Name.pascal rawName) (.text "")
      d.unwrap)) (by simpa [Node.mentions, Compile.listWrapper] using hitem)
    exact (hnode.remember _ _).declare (hclosed.remember (Name.pascal rawName) (has_withNode c₁ _)) _ _ _
  | wrapped => exact ha
  | @message scope c c₁ c₂ ts rawName comment fields _ hrun htypes hadd ih =>
    have hinner : c.package ∈ c.graph.size :: scope := List.mem_cons_of_mem _ hpackage
    have hclosed := hc.withNode (n := .message ⟨Name.pascal rawName, [], [], comment⟩)
      (by simp [Node.mentions])
    have hnode := ha.withNode hc (n := .message ⟨Name.pascal rawName, [], [], comment⟩) (by simp)
      (by simp) (by simp)
    obtain ⟨hc₁, hts⟩ := hrun.closed hinner hclosed
    have hhas := fun field hfield => hts _ (htypes field hfield)
    exact ((ih hinner hclosed hnode).addFields hc₁ hhas hadd).declareHere
      (hc₁.addFields hhas hadd) _ _
  | @arrayResponse _ _ c₁ item name _ hrun ih =>
    obtain ⟨hc₁, hitem⟩ := hrun.closed hpackage hc
    have hnode := (ih hpackage hc ha).arrayMessage hc₁ (hitem item (by simp)) name
    exact hnode.declareHere ((hc₁.withNode (by
      simpa [Node.mentions, Compile.arrayMessage] using hitem)).importing _) _ _

/-! ## Building -/

theorem Compilation.Announces.importingAll (h : c.Announces g₀) (hc : c.Closed)
    (names : List String) : (c.importingAll names).Announces g₀ := by
  induction names generalizing c with
  | nil => exact h
  | cons name rest ih => exact ih (h.importing hc name) (hc.importing name)

theorem importingAll_imports (hc : c.Closed) {names : List String} {name : String}
    (hname : name ∈ names) : (c.importingAll names).graph.Imports c.package name := by
  induction names generalizing c with
  | nil => cases hname
  | cons first rest ih =>
    have hfirst : c.Grows [c.package] (c.importing first) := .importing (by simp) first
    rcases List.mem_cons.1 hname with rfl | hmem
    · have hrest : (c.importing name).Grows [c.package] ((c.importing name).importingAll rest) :=
        importingAll_grows (by simp [hfirst.package]) rest
      exact (Compilation.importing_imports hc name).mono hrest.nodes
    · exact hfirst.package ▸ ih (hc.importing first) hmem

theorem Compilation.Announces.defining (h : c.Announces g₀) (ref : String) (d : Definition) :
    (c.defining ref d).Announces g₀ := by
  unfold Compilation.defining
  split
  · exact h
  · exact h.of_graph_eq rfl rfl

/-- An extension is added after the imports for the names that it mentions. -/
theorem Compilation.Announces.extending (h : c.Announces g₀) (hc : c.Closed) {e : Proto.Extension}
    (hnames : ∀ name ∈ e.base :: e.fields.map (·.type), c.graph.Imports c.package name) :
    (c.extending e).Announces g₀ := by
  have hgrows : c.Grows [] (c.withNode (.extension e)) := .withNode c _
  have hclosed := hc.withNode (n := .extension e) (by simp [Node.mentions])
  refine Compilation.Announces.addChild ?_ hclosed c.package _
  have hold : ∀ id n, (c.withNode (.extension e)).graph.node? id = some n →
      c.graph.node? id = some n ∨ n = .extension e := by
    intro id n hn
    have hadd : (c.graph.add (.extension e)).1.node? id = some n := hn
    rw [Graph.node?_add] at hadd
    split at hadd
    · exact .inr (Option.some.inj hadd).symm
    · exact .inl hadd
  refine h.of_grows hc hgrows ?_ ?_ ?_ ?_
  · obtain ⟨p, hp⟩ := hc.package
    show ((c.graph.add (.extension e)).1.imports c.package).Nodup
    rw [imports_eq hp (Graph.node?_add_of_some hp _) rfl]
    exact h.nodup
  · intro id m hm _ i f hf hnew
    rcases hold id _ hm with hm₀ | heq
    · exact absurd (List.getElem?_eq_some_iff.1 hf).1 (Nat.not_lt.2 (hnew m hm₀))
    · cases heq
  · intro id s hs rpc hrpc hnew
    rcases hold id _ hs with hs₀ | heq
    · exact absurd hrpc (hnew s hs₀)
    · cases heq
  · intro id e' he hge name hname
    rcases hold id _ he with he₀ | heq
    · exact absurd (Graph.lt_size_of_node? he₀) (Nat.not_lt.2 hge)
    · obtain rfl := Node.extension.inj heq
      exact (hnames name hname).mono hgrows.nodes

/-- A procedure is added to a service, if what its request and its response need is imported. -/
theorem Compilation.Announces.addRpc (h : c.Announces g₀) (hc : c.Closed) {service : Nat}
    {s : Service TypeRef} {rpc : Rpc TypeRef} {g : Graph}
    (hnode : c.graph.node? service = some (.service s))
    (hg : g = c.graph.put service (.service { s with rpcs := s.rpcs ++ [rpc] }))
    (hrequest : g.Imports c.package (g.typeName rpc.parameter))
    (hresponse : g.Imports c.package (g.typeName rpc.response)) :
    ({ c with graph := g } : Compilation).Announces g₀ := by
  have hgrow : (Node.service s).Grows (.service { s with rpcs := s.rpcs ++ [rpc] }) :=
    .service rfl (List.prefix_append ..)
  have hgrows : c.Grows [service] { c with graph := g } := hg ▸ .put (by simp) hnode hgrow
  -- the service is the only node that is not what it was
  have hcases : ∀ {id n}, g.node? id = some n →
      id = service ∧ n = .service { s with rpcs := s.rpcs ++ [rpc] } ∨
        c.graph.node? id = some n := by
    intro id n hn
    rw [hg] at hn
    rcases Decidable.em (id = service) with rfl | hne
    · rw [Graph.node?_put_self hnode] at hn
      exact .inl ⟨rfl, (Option.some.inj hn).symm⟩
    · rw [Graph.node?_put_of_ne hne] at hn
      exact .inr hn
  refine h.of_grows hc hgrows ?_ ?_ ?_ ?_
  · obtain ⟨p, hp⟩ := hc.package
    have hne : c.package ≠ service := fun heq => by
      rw [heq, hnode] at hp
      cases hp
    show (g.imports c.package).Nodup
    rw [hg, imports_eq hp ((Graph.node?_put_of_ne hne _).trans hp) rfl]
    exact h.nodup
  · intro id m hm _ i f hf hnew
    rcases hcases hm with ⟨-, heq⟩ | hm₀
    · cases heq
    · exact absurd (List.getElem?_eq_some_iff.1 hf).1 (Nat.not_lt.2 (hnew m hm₀))
  · intro id s' hs' rpc' hrpc' hnew
    rcases hcases hs' with ⟨rfl, heq⟩ | hs₀
    · obtain rfl := Node.service.inj heq
      obtain rfl : rpc' = rpc :=
        (List.mem_append.1 hrpc').elim (absurd · (hnew s hnode)) List.mem_singleton.1
      exact ⟨hrequest, hresponse⟩
    · exact absurd hrpc' (hnew s' hs₀)
  · intro id e he hge
    rcases hcases he with ⟨-, heq⟩ | he₀
    · cases heq
    · exact absurd (Graph.lt_size_of_node? he₀) (Nat.not_lt.2 hge)

/-- A procedure is added after the imports for its request and response. -/
theorem Compilation.Announces.serving (h : c.Announces g₀) (hc : c.Closed) {rpc : Rpc TypeRef}
    (hrequest : c.graph.Has rpc.parameter) (hresponse : c.graph.Has rpc.response) :
    (c.serving rpc).Announces g₀ := by
  rcases serving_cases (c := c) rpc with heq | ⟨s, c₁, c₂, hfirst, hsecond, -, hnode, heq⟩ <;>
    rw [heq]
  · exact h
  · subst hfirst hsecond
    have hgrows₁ : c.Grows [c.package] (c.importing (c.graph.typeName rpc.parameter)) :=
      .importing (by simp) _
    have hc₁ := hc.importing (c.graph.typeName rpc.parameter)
    have hinRequest := Compilation.importing_imports hc (c.graph.typeName rpc.parameter)
    have hinResponse := Compilation.importing_imports hc₁
      ((c.importing (c.graph.typeName rpc.parameter)).graph.typeName rpc.response)
    have hannounces := (h.importing hc (c.graph.typeName rpc.parameter)).importing hc₁
      ((c.importing (c.graph.typeName rpc.parameter)).graph.typeName rpc.response)
    generalize c.importing (c.graph.typeName rpc.parameter) = c₁ at *
    have hgrows₂ : c₁.Grows [c.package] (c₁.importing (c₁.graph.typeName rpc.response)) :=
      .importing (by simp [hgrows₁.package]) _
    have hc₂ := hc₁.importing (c₁.graph.typeName rpc.response)
    generalize c₁.importing (c₁.graph.typeName rpc.response) = c₂ at *
    have hgrow : (Node.service s).Grows (.service { s with rpcs := s.rpcs ++ [rpc] }) :=
      .service rfl (List.prefix_append ..)
    have hput : c₂.graph.Grows
        (c₂.graph.put c.service (.service { s with rpcs := s.rpcs ++ [rpc] })) := .put hnode hgrow
    have hpackage : c₂.package = c.package := hgrows₂.package.trans hgrows₁.package
    have hall := hgrows₂.nodes.trans hput
    -- the imports stay, and the types keep their names, while the procedure is added
    refine hannounces.addRpc hc₂ hnode rfl ?_ ?_ <;> rw [hpackage]
    · exact (hinRequest.mono hall).rename (hgrows₁.nodes.trans hall).keepsNames hrequest
    · exact ((hgrows₁.package ▸ hinResponse).mono hput).rename hall.keepsNames
        (hresponse.mono hgrows₁.size_le)

/-- Building announces what it uses. -/
theorem Builds.announces {package : Nat} (h : Builds env package c c') (hp : c.package = package)
    (hc : c.Closed) (ha : c.Announces g₀) : c'.Announces g₀ := by
  induction h with
  | refl => exact ha
  | importFile file hbuilds ih => exact ih.importFile (hbuilds.closed hp hc) file
  | define ref d hbuilds hrun ih =>
    have hpackage := (hbuilds.grows hp).package.trans hp
    exact (hrun.announces (by simp [hpackage]) (hbuilds.closed hp hc) ih).defining ref d
  | extension e hbuilds ih =>
    have hclosed := hbuilds.closed hp hc
    refine (ih.importingAll hclosed _).extending (hclosed.importingAll _) fun name hname => ?_
    rw [(importingAll_grows (List.mem_singleton.2 rfl) _).package]
    exact importingAll_imports hclosed (by simpa [or_comm] using hname)
  | procedure rpc hbuilds hrun ih =>
    have hpackage := (hbuilds.grows hp).package.trans hp
    have hclosed := hbuilds.closed hp hc
    obtain ⟨hc₂, hts⟩ := hrun.closed (by simp [hpackage]) hclosed
    exact (hrun.announces (by simp [hpackage]) hclosed ih).serving hc₂ (hts _ (by simp))
      (hts _ (by simp))

/-! ## Resolution -/

section Resolution

variable (h : c.Resolved c') (hc : c.Closed)
include h hc

theorem Compilation.Resolved.imports_eq : c'.graph.imports c'.package = c.graph.imports c.package := by
  obtain ⟨p, hp⟩ := hc.package
  obtain ⟨n', hn', hres⟩ := h.graph.nodes _ _ hp
  cases hres
  rw [Compilation.package, h.registry]
  exact Compile.imports_eq hp hn' rfl

theorem Compilation.Resolved.imports {t : TypeRef} (ht : c.graph.Has t)
    (himports : c.graph.Imports c.package (c.graph.typeName t)) :
    c'.graph.Imports c'.package (c'.graph.typeName t) := by
  refine Graph.Imports.rename h.graph.keepsNames ht fun file hfile => ?_
  rw [h.imports_eq hc]
  exact himports file hfile

theorem Covers.resolved {t : TypeRef} (ht : c.graph.Has t) {repeated : Bool}
    (hcovers : Covers c.graph c.graph c.package t repeated) :
    Covers c.graph c'.graph c'.package t repeated where
  type := h.imports hc ht hcovers.type
  values hrepeated id key value' hid hn' := by
    obtain ⟨n, hn, hres⟩ := h.graph.of_node? hn'
    obtain ⟨value, rfl, hbecome⟩ : ∃ value, n = .map key value ∧
        c.graph.MayBecome c.Given value value' := by
      cases hres with
      | same => exact ⟨value', rfl, .inl rfl⟩
      | map hbecome => exact ⟨_, rfl, hbecome⟩
    rcases hcovers.values hrepeated id key value hid hn with hdefers | hreference | himport
    · exact .inl hdefers
    · exact .inl ⟨key, value, hn, hreference⟩
    · rcases hbecome with rfl | ⟨hreference, -⟩
      · exact .inr (.inr (h.imports hc (hc.mentions id _ hn _ (by simp [Node.mentions])) himport))
      · exact .inl ⟨key, value, hn, hreference⟩

/-- What stood at a reference before resolution counts as passed over after it. -/
theorem Compilation.Announces.resolved (ha : c.Announces c.graph) : c'.Announces c.graph where
  nodup := by
    rw [h.imports_eq hc]
    exact ha.nodup
  fields id m' hm' hwrapper i f' hf' := by
    obtain ⟨m, hm, hres⟩ := h.graph.message?_of_some (Graph.message?_of_node? hm')
    have hn := Graph.node?_of_message? hm
    obtain ⟨hcomment, f, hf, t, rfl, ht⟩ : m'.comment = m.comment ∧
        ∃ f, m.fields[i]? = some f ∧ f.Resolved c.graph c.Given f' := by
      cases hres with
      | same => exact ⟨rfl, f', hf', f'.type, rfl, .inl rfl⟩
      | message _ _ hcomment hlength hfields =>
        have hlt : i < m.fields.length := hlength ▸ (List.getElem?_eq_some_iff.1 hf').1
        obtain ⟨f'', hf'', hfield⟩ := hfields i _ (List.getElem?_eq_getElem hlt)
        obtain rfl := Option.some.inj (hf'.symm.trans hf'')
        exact ⟨hcomment, _, List.getElem?_eq_getElem hlt, hfield⟩
    have hhas := hc.mentions id _ hn f.type
      (List.mem_append_right _ (List.mem_map.2 ⟨f, List.mem_of_getElem? hf, rfl⟩))
    rcases ht with rfl | ⟨hreference, -⟩
    · rcases ha.fields id m hn (by rwa [IsListWrapper, ← hcomment]) i f hf with
        hdefers | hreference | hcovers
      · exact .inl hdefers
      · exact .inl ⟨m, f, hn, hf, hreference⟩
      · exact .inr (.inr (hcovers.resolved h hc hhas))
    · exact .inl ⟨m, f, hn, hf, hreference⟩
  procedures id s hs rpc hrpc := by
    obtain ⟨n, hn, hres⟩ := h.graph.of_node? hs
    cases hres
    obtain ⟨hrequest, hresponse⟩ := ha.procedures id s hn rpc hrpc
    have hhas := fun t ht => hc.mentions id _ hn t (List.mem_flatMap.2 ⟨rpc, hrpc, ht⟩)
    exact ⟨h.imports hc (hhas _ (by simp)) hrequest, h.imports hc (hhas _ (by simp)) hresponse⟩
  extensions id e he name hname file hfile := by
    obtain ⟨n, hn, hres⟩ := h.graph.of_node? he
    cases hres
    rw [h.imports_eq hc]
    exact ha.extensions id e hn name hname file hfile

end Resolution

/-! ## Completeness -/

/-- Every type and every name that a package uses is imported. -/
structure ImportsComplete (g : Graph) (package : Nat) : Prop where
  types : ∀ t, g.Uses package t → g.Imports package (g.typeName t)
  extensions : ∀ id e, g.Reachable package (.node id) → g.node? id = some (.extension e) →
    ∀ name ∈ e.base :: e.fields.map (·.type), g.Imports package name

/-- The maps that are the type of a field that is not repeated, has been made for a property, and
did not stand at a reference. -/
def HeldByField (g₀ g : Graph) (package id : Nat) : Prop :=
  ∃ message m i f, g.Reachable package (.node message) ∧ g.node? message = some (.message m) ∧
    ¬ IsListWrapper m ∧ m.fields[i]? = some f ∧ f.type = .node id ∧ f.repeated = false ∧
    ¬ DefersField g₀ message i

/-- The types that are used where the compiler does not look at imports. In `g₀` references have
not been resolved yet. -/
inductive PassedOver (g₀ g : Graph) (package : Nat) : TypeRef → Prop
  /-- The items of a list wrapper. -/
  | items {id : Nat} {m : Message} {f : Proto.Field TypeRef Value} :
      g.Reachable package (.node id) → g.node? id = some (.message m) → IsListWrapper m →
      f ∈ m.fields → PassedOver g₀ g package f.type
  /-- The type of a field that stood at a reference. -/
  | field {id i : Nat} {m : Message} {f : Proto.Field TypeRef Value} :
      g.Reachable package (.node id) → g.node? id = some (.message m) → m.fields[i]? = some f →
      DefersField g₀ id i → PassedOver g₀ g package f.type
  /-- The values of a map that stood at a reference. -/
  | value {id : Nat} {key value : TypeRef} :
      g.Reachable package (.node id) → g.node? id = some (.map key value) → DefersValue g₀ id →
      PassedOver g₀ g package value
  /-- The values of a map that is not itself the type of a field. -/
  | inner {id : Nat} {key value : TypeRef} :
      g.Reachable package (.node id) → g.node? id = some (.map key value) →
      ¬ HeldByField g₀ g package id → PassedOver g₀ g package value

theorem PassedOver.uses {g : Graph} {package : Nat} {t : TypeRef}
    (h : PassedOver g₀ g package t) : g.Uses package t := by
  cases h with
  | items hid hn _ hf => exact .field hid hn hf
  | field hid hn hf _ => exact .field hid hn (List.mem_of_getElem? hf)
  | value hid hn _ => exact .value hid hn
  | inner hid hn _ => exact .value hid hn

/-- Without references left over, all that is used is imported or has been passed over. -/
theorem Compilation.Announces.passedOver_or (ha : c.Announces g₀)
    (hdangling : dangling c.graph c.package = []) {t : TypeRef} (ht : c.graph.Uses c.package t) :
    PassedOver g₀ c.graph c.package t ∨ c.graph.Imports c.package (c.graph.typeName t) := by
  have hreference := not_isReference_of_reachable hdangling ht.reachable
  cases ht with
  | @field id m f hid hn hf =>
    by_cases hwrapper : IsListWrapper m
    · exact .inl (.items hid hn hwrapper hf)
    · obtain ⟨i, hi⟩ := List.mem_iff_getElem?.1 hf
      rcases ha.fields id m hn hwrapper i f hi with hdefers | href | hcovers
      · exact .inl (.field hid hn hi hdefers)
      · exact absurd href hreference
      · exact .inr hcovers.type
  | @value id key t hid hn =>
    by_cases hheld : HeldByField g₀ c.graph c.package id
    · obtain ⟨message, m, i, f, hmessage, hm, hwrapper, hf, htype, hrepeated, hdefers⟩ := hheld
      rcases ha.fields message m hm hwrapper i f hf with hdefers' | ⟨k, ref, hk, href⟩ | hcovers
      · exact absurd hdefers' hdefers
      · obtain rfl := TypeRef.node.inj (htype.symm.trans hk)
        cases hn.symm.trans href
      · rcases hcovers.values hrepeated id key t htype hn with hdeferred | href | himports
        · exact .inl (.value hid hn hdeferred)
        · exact absurd href hreference
        · exact .inr himports
    · exact .inl (.inner hid hn hheld)
  | request hid hs hrpc => exact .inr (ha.procedures _ _ hs _ hrpc).1
  | response hid hs hrpc => exact .inr (ha.procedures _ _ hs _ hrpc).2

theorem start_announces (packageName serviceName : String) (options : List (String × String)) :
    (start packageName serviceName options).Announces g₀ := by
  refine ⟨List.nodup_nil, fun id m hm => ?_, fun id s hs rpc hrpc => ?_, fun id e he => ?_⟩
  · rcases start_node? hm with ⟨-, heq⟩ | ⟨-, heq⟩ <;> cases heq
  · rcases start_node? hs with ⟨-, heq⟩ | ⟨-, heq⟩
    · cases heq
    · obtain rfl := Node.service.inj heq
      cases hrpc
  · rcases start_node? he with ⟨-, heq⟩ | ⟨-, heq⟩ <;> cases heq

/-- The imports of a package are complete if and only if they cover the types that have been passed
over, and no file is imported twice. What has been passed over depends on the graph before
references were resolved. -/
theorem imports_complete_iff {options : Options} {spec : Spec} {o : Output}
    (h : compile options spec = .ok o) :
    (o.graph.imports o.package).Nodup ∧
    ∃ c₀, compileNamed ⟨options, spec⟩ (startOf ⟨options, spec⟩) = .ok ((), c₀) ∧
      (ImportsComplete o.graph o.package ↔
        ∀ t, PassedOver c₀.graph o.graph o.package t →
          o.graph.Imports o.package (o.graph.typeName t)) := by
  obtain ⟨c₀, c₁, c₂, hcompiled, rfl⟩ := compile_ok h
  have hnamed : c₀.Announces c₀.graph := by
    obtain ⟨packageName, serviceName, options, heq⟩ := startOf_is_start ⟨options, spec⟩
    have hbuilds := hcompiled.start_builds
    rw [heq] at hbuilds
    exact hbuilds.announces rfl (start_closed ..) (start_announces ..)
  have hresolved := hnamed.resolved hcompiled.resolved hcompiled.named_closed
  have hannounces : c₂.Announces c₀.graph :=
    hcompiled.builds.announces rfl hcompiled.resolved_closed (hresolved.of_graph_eq rfl rfl)
  refine ⟨hannounces.nodup, c₀, hcompiled.named, fun hcomplete t ht => ?_, fun hpassed => ?_⟩
  · exact hcomplete.types t ht.uses
  · refine ⟨fun t ht => ?_, fun id e _ he => hannounces.extensions id e he⟩
    rcases hannounces.passedOver_or hcompiled.dangling ht with hover | himports
    · exact hpassed t hover
    · exact himports

/-- Lists of times under arbitrary keys. -/
def timestampLists : Spec := .ofDefinitions [("Log", .object [("entries", .map (.array
  (.reference "google/protobuf/timestamp.proto#/google.protobuf.Timestamp")))])]

/-- Whether no file is imported, although a declared message has a field for a time. -/
def lacksTimestampImport (c : Compilation) : Bool :=
  c.graph.imports c.package == [] && (c.graph.children c.package).any fun t => match t with
    | .node id => ((c.graph.message? id).map (·.fields.map (·.type))) ==
        some [.builtin ⟨"google.protobuf.Timestamp", true⟩]
    | .builtin _ => false

theorem imports_complete_iff_timestampLists : ∃ o,
    compile ⟨false, false, false, false, "log"⟩ timestampLists = .ok o ∧
    (o.graph.imports o.package).Nodup ∧
    ∃ c₀, compileNamed ⟨⟨false, false, false, false, "log"⟩, timestampLists⟩
        (startOf ⟨⟨false, false, false, false, "log"⟩, timestampLists⟩) = .ok ((), c₀) ∧
      (ImportsComplete o.graph o.package ↔
        ∀ t, PassedOver c₀.graph o.graph o.package t →
          o.graph.Imports o.package (o.graph.typeName t)) := by
  obtain ⟨c, hcompile, -⟩ := compile_of_compilesTo
    (show compilesTo ⟨false, false, false, false, "log"⟩ timestampLists (fun _ => true) = true by
      decide +kernel)
  exact ⟨_, hcompile, imports_complete_iff hcompile⟩

/-- The wrapper for lists of times uses their type without an import for it. -/
theorem not_importsComplete_timestampLists : ∃ o,
    compile ⟨false, false, false, false, "log"⟩ timestampLists = .ok o ∧
      ¬ ImportsComplete o.graph o.package := by
  obtain ⟨c, hcompile, htest⟩ := compile_of_compilesTo
    (show compilesTo ⟨false, false, false, false, "log"⟩ timestampLists lacksTimestampImport = true
      by decide +kernel)
  refine ⟨_, hcompile, fun hcomplete => ?_⟩
  obtain ⟨hnone, hfield⟩ := Bool.and_eq_true_iff.1 htest
  obtain ⟨t, hchild, ht⟩ := List.any_eq_true.1 hfield
  cases t with
  | builtin => cases ht
  | node id =>
    have hmap := eq_of_beq ht
    obtain ⟨m, hm, hfields⟩ := Option.map_eq_some_iff.1 hmap
    have htime : TypeRef.builtin ⟨"google.protobuf.Timestamp", true⟩ ∈ m.fields.map (·.type) := by
      rw [hfields]
      exact List.mem_singleton.2 rfl
    obtain ⟨f, hf, htype⟩ := List.mem_map.1 htime
    have huse : c.graph.Uses c.package f.type :=
      .field (.child hchild) (Graph.node?_of_message? hm) hf
    have himports := hcomplete.types _ huse
    rw [htype] at himports
    have hname : c.graph.typeName (.builtin ⟨"google.protobuf.Timestamp", true⟩) =
        "google.protobuf.Timestamp" := by
      unfold Graph.typeName
      cases c.graph.size <;> rfl
    have hfile := himports "google/protobuf/timestamp.proto" (by rw [hname]; decide)
    rw [eq_of_beq hnone] at hfile
    cases hfile

end ApiProto.Compile
