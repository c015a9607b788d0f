import ApiProto.Document.Build
import ApiProto.Proofs.AtRest
import ApiProto.Proofs.Reachable

/-!
# What printed names denote

Types are printed by their names, and a name denotes the first message or enum of that name in the
containers around the place where it is printed, from the innermost one to the package.

* `Graph.denotes` — what a name denotes inside a chain of containers.
* `Graph.UsedIn` — the types that are printed inside a chain of containers.
* `denotes_of_usedIn` — a printed name denotes a type of that name, and the type that it is printed
  for unless another one of the same name stands in a container around it.
-/

namespace ApiProto.Proto

/-- The first message or enum of a name that a container declares. -/
def Graph.declaredAs (g : Graph) (name : String) (container : Nat) : Option TypeRef :=
  (g.children container).find? fun t => g.isDeclared t && g.typeName t == name

/-- What a name denotes inside a chain of containers, the innermost first. -/
def Graph.denotes (g : Graph) (chain : List Nat) (name : String) : Option TypeRef :=
  chain.findSome? (g.declaredAs name)

/-- Chains of containers, from a message of a package outwards to the package. -/
inductive Graph.Chain (g : Graph) (package : Nat) : List Nat → Prop
  | package : g.Chain package [package]
  | message {id container : Nat} {outer : List Nat} {m : Message} :
      g.Chain package (container :: outer) → .node id ∈ g.children container →
      g.node? id = some (.message m) → g.Chain package (id :: container :: outer)

/-- The types that are printed inside a chain of containers: those of the fields of the innermost
message, the values of the maps among them, and in the package those of its procedures. -/
inductive Graph.UsedIn (g : Graph) (package : Nat) : List Nat → TypeRef → Prop
  | field {id : Nat} {outer : List Nat} {m : Message} {f : Field TypeRef Value} :
      g.Chain package (id :: outer) → g.node? id = some (.message m) → f ∈ m.fields →
      g.UsedIn package (id :: outer) f.type
  | value {chain : List Nat} {id : Nat} {key value : TypeRef} : g.UsedIn package chain (.node id) →
      g.node? id = some (.map key value) → g.UsedIn package chain value
  | request {id : Nat} {s : Service TypeRef} {rpc : Rpc TypeRef} : .node id ∈ g.children package →
      g.node? id = some (.service s) → rpc ∈ s.rpcs → g.UsedIn package [package] rpc.parameter
  | response {id : Nat} {s : Service TypeRef} {rpc : Rpc TypeRef} : .node id ∈ g.children package →
      g.node? id = some (.service s) → rpc ∈ s.rpcs → g.UsedIn package [package] rpc.response

/-- Every name that is printed for a message or an enum denotes it. -/
def Graph.NamesDenote (g : Graph) (package : Nat) : Prop :=
  ∀ chain t, g.UsedIn package chain t → g.isDeclared t = true →
    g.denotes chain (g.typeName t) = some t

variable {g : Graph} {package : Nat} {chain : List Nat} {name : String} {t : TypeRef}

theorem Graph.Chain.package_mem (h : g.Chain package chain) : package ∈ chain := by
  induction h with
  | package => exact List.mem_singleton.2 rfl
  | message _ _ _ ih => exact List.mem_cons_of_mem _ ih

theorem Graph.UsedIn.package_mem (h : g.UsedIn package chain t) : package ∈ chain := by
  induction h with
  | field hchain => exact hchain.package_mem
  | value _ _ ih => exact ih
  | request => exact List.mem_singleton.2 rfl
  | response => exact List.mem_singleton.2 rfl

/-- What a name denotes is a message or an enum of that name in a container of the chain. -/
theorem Graph.of_denotes (h : g.denotes chain name = some t) :
    (∃ container ∈ chain, t ∈ g.children container) ∧ g.isDeclared t = true ∧
      g.typeName t = name := by
  obtain ⟨container, hmem, hfound⟩ := List.exists_of_findSome?_eq_some h
  have hboth := List.find?_some hfound
  rw [Bool.and_eq_true, beq_iff_eq] at hboth
  exact ⟨⟨container, hmem, List.mem_of_find?_eq_some hfound⟩, hboth⟩

/-- A name that is declared in a container of the chain denotes something. -/
theorem Graph.denotes_isSome {container : Nat} (hmem : container ∈ chain)
    (hchild : t ∈ g.children container) (ht : g.isDeclared t = true) :
    ∃ t', g.denotes chain (g.typeName t) = some t' := by
  rcases h : g.denotes chain (g.typeName t) with _ | t'
  · have hnone := List.find?_eq_none.1 (List.findSome?_eq_none_iff.1 h container hmem) t hchild
    simp [ht] at hnone
  · exact ⟨t', rfl⟩

end ApiProto.Proto

namespace ApiProto.Compile

open Proto Document

variable {home : Nat → Scope} {c : Compilation} {chain : List Nat} {t : TypeRef}

/-- A shared list wrapper that the package does not declare. -/
def Compilation.Dropped (c : Compilation) (t : TypeRef) : Prop :=
  t ∉ c.graph.children c.package ∧ ∃ base id, t = .node id ∧ (base, id) ∈ c.wrappers

/-- The containers around a message include all of its home. -/
theorem Homed.home_subset (h : Homed home c) {id : Nat} {outer : List Nat}
    (hchain : c.graph.Chain c.package (id :: outer)) : home id ⊆ outer := by
  generalize heq : id :: outer = chain at hchain
  induction hchain generalizing id outer with
  | package =>
    obtain ⟨rfl, rfl⟩ := List.cons.inj heq
    rw [h.package]
    exact List.Subset.refl _
  | @message id container outer m _ hchild hm ih =>
    obtain ⟨rfl, rfl⟩ := List.cons.inj heq
    have hdeclared : c.graph.isDeclared (.node id) = true := Graph.isDeclared_iff.2 ⟨_, hm, rfl⟩
    have hlog := (h.registered.children container id hdeclared).1 hchild
    exact List.Subset.trans (h.edges _ hlog) (List.cons_subset_cons container (ih rfl))

/-- What is printed in a chain of containers is sound there. -/
theorem Homed.sound_of_usedIn (h : Homed home c) (huse : c.graph.UsedIn c.package chain t) :
    Sound home c chain t := by
  induction huse with
  | @field id outer m f hchain hm hf =>
    have hsound := h.uses id _ hm f.type (List.mem_map.2 ⟨f, hf, rfl⟩)
    exact hsound.subset (List.cons_subset_cons id (h.home_subset hchain))
  | @value chain id key value _ hmap ih =>
    have hsound := h.uses id _ hmap value (List.mem_singleton.2 rfl)
    rcases ih.2 id rfl with ⟨_, ref, heq, href⟩ | ⟨hhome, -⟩
    · obtain rfl := TypeRef.node.inj heq
      exact absurd (hmap.symm.trans href) (by simp)
    · exact hsound.subset hhome
  | @request id s rpc _ hs hrpc => exact h.uses id _ hs _ (List.mem_flatMap.2 ⟨rpc, hrpc, by simp⟩)
  | @response id s rpc _ hs hrpc => exact h.uses id _ hs _ (List.mem_flatMap.2 ⟨rpc, hrpc, by simp⟩)

/-- A type that is sound in a chain has a name that denotes something there. -/
theorem Homed.denotes_isSome (h : Homed home c) (hpackage : c.package ∈ chain)
    (hsound : Sound home c chain t) (ht : c.graph.isDeclared t = true) (hdropped : ¬ c.Dropped t) :
    ∃ t', c.graph.denotes chain (c.graph.typeName t) = some t' := by
  obtain ⟨id, rfl⟩ : ∃ id, t = .node id := by
    cases t with
    | builtin => cases ht
    | node id => exact ⟨id, rfl⟩
  rcases hsound.2 id rfl with href | ⟨-, hvisible⟩
  · exact absurd href (Graph.not_isReference_of_isDeclared ht)
  · rcases hvisible ht with ⟨container, hmem, k, hlog, hname⟩ | ⟨base, hwrapper⟩
    · have hdeclared := h.registered.declared _ hlog
      rw [← hname]
      exact Graph.denotes_isSome hmem ((h.registered.children container k hdeclared).2 hlog) hdeclared
    · have hchild : .node id ∈ c.graph.children c.package :=
        Decidable.byContradiction fun hnot => hdropped ⟨hnot, base, id, rfl, hwrapper⟩
      exact Graph.denotes_isSome hpackage hchild ht

/-- A printed name denotes a type of that name. It is the type that the name is printed for, unless a
container around the place declares another one of the same name. Shared list wrappers that the
package does not declare are left out. -/
theorem denotes_of_usedIn {options : Options} {spec : Spec} {o : Output}
    (h : compile options spec = .ok o) :
    ∃ c, compileAll ⟨options, spec⟩ (startOf ⟨options, spec⟩) = .ok ((), c) ∧
      o = ⟨c.graph, c.package⟩ ∧
      ∀ chain t, o.graph.UsedIn o.package chain t → o.graph.isDeclared t = true → ¬ c.Dropped t →
        ∃ t', o.graph.denotes chain (o.graph.typeName t) = some t' ∧
          o.graph.isDeclared t' = true ∧ o.graph.typeName t' = o.graph.typeName t ∧
          ((∀ container ∈ chain, ∀ s ∈ o.graph.children container, o.graph.isDeclared s = true →
            o.graph.typeName s = o.graph.typeName t → s = t) → t' = t) := by
  obtain ⟨c, hrun, rfl⟩ := compile_ok_iff.1 h
  obtain ⟨c₀, c₁, hcompiled⟩ := compiled_of_compileAll hrun
  obtain ⟨home, hhomed, -⟩ := hcompiled.atRest
  refine ⟨c, hrun, rfl, fun chain t huse ht hdropped => ?_⟩
  obtain ⟨t', hdenotes⟩ := hhomed.denotes_isSome huse.package_mem (hhomed.sound_of_usedIn huse) ht
    hdropped
  obtain ⟨⟨container, hmem, hchild⟩, hdeclared, hname⟩ := Graph.of_denotes hdenotes
  exact ⟨t', hdenotes, hdeclared, hname, fun honly =>
    honly container hmem t' hchild hdeclared hname⟩

/-- Two enums in one message, under keys that give the same name. -/
def petSizes : Spec := .ofDefinitions [("Pet", .object [("size1", .enumeration ["small", "large"]),
  ("size_1", .enumeration ["light", "heavy"])])]

theorem denotes_of_usedIn_petSizes : ∃ o, compile ⟨false, false, false, false, "pet"⟩ petSizes = .ok o ∧
    ∃ c, compileAll ⟨⟨false, false, false, false, "pet"⟩, petSizes⟩
        (startOf ⟨⟨false, false, false, false, "pet"⟩, petSizes⟩) = .ok ((), c) ∧
      o = ⟨c.graph, c.package⟩ ∧
      ∀ chain t, o.graph.UsedIn o.package chain t → o.graph.isDeclared t = true → ¬ c.Dropped t →
        ∃ t', o.graph.denotes chain (o.graph.typeName t) = some t' ∧
          o.graph.isDeclared t' = true ∧ o.graph.typeName t' = o.graph.typeName t ∧
          ((∀ container ∈ chain, ∀ s ∈ o.graph.children container, o.graph.isDeclared s = true →
            o.graph.typeName s = o.graph.typeName t → s = t) → t' = t) := by
  obtain ⟨c, hcompile, -⟩ := compile_of_compilesTo
    (show compilesTo ⟨false, false, false, false, "pet"⟩ petSizes (fun _ => true) = true by
      decide +kernel)
  exact ⟨_, hcompile, denotes_of_usedIn hcompile⟩

/-- Whether a message of the package has a field with a type that its name does not denote. -/
def misnames (c : Compilation) : Bool :=
  (c.graph.children c.package).any fun t => match t with
    | .node id => ((c.graph.message? id).map (·.fields)).any fun fields => fields.any fun f =>
        c.graph.isDeclared f.type &&
          c.graph.denotes [id, c.package] (c.graph.typeName f.type) != some f.type
    | .builtin _ => false

/-- The second enum is not declared: its name denotes the first one. -/
theorem not_namesDenote_petSizes : ∃ o,
    compile ⟨false, false, false, false, "pet"⟩ petSizes = .ok o ∧
      ¬ o.graph.NamesDenote o.package := by
  obtain ⟨c, hcompile, htest⟩ := compile_of_compilesTo
    (show compilesTo ⟨false, false, false, false, "pet"⟩ petSizes misnames = true by
      decide +kernel)
  refine ⟨_, hcompile, fun hdenote => ?_⟩
  obtain ⟨t, hchild, ht⟩ := List.any_eq_true.1 htest
  cases t with
  | builtin => cases ht
  | node id =>
    obtain ⟨fields, hfields, hany⟩ := (Option.any_eq_true _ _).1 ht
    obtain ⟨m, hm, rfl⟩ := Option.map_eq_some_iff.1 hfields
    obtain ⟨f, hf, htype⟩ := List.any_eq_true.1 hany
    obtain ⟨hdeclared, hother⟩ := Bool.and_eq_true_iff.1 htype
    have hn := Graph.node?_of_message? hm
    have huse : c.graph.UsedIn c.package [id, c.package] f.type :=
      .field (.message .package hchild hn) hn hf
    exact bne_iff_ne.1 hother (hdenote _ _ huse hdeclared)

end ApiProto.Compile
