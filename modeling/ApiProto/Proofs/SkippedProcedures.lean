import ApiProto.Proofs.OptionAgreement
import ApiProto.Proofs.Procedures

/-!
# Packages without procedures

Named schemas are compiled before any operation, and what operations add leaves them as they are. So
a description that can be compiled can be compiled without its operations, and gives the first part
of the same package.

* `Likeness.exact` — nodes that are the same; `Agree.eq` — steps that agree on these are equal.
* `Compilation.Grows.reachable`, `Compilation.Grows.dangling_eq_nil` — what is added to a package
  leaves all that could be reached within reach.
* `Output.ExtendedBy` — what stays of a package when procedures are added.
* `compile_skipRpcs` — the package without procedures is there, and is extended by the whole one.
-/

namespace ApiProto.Proto

/-- Nodes count as alike if they are the same. -/
def Likeness.exact : Likeness where
  alike := Eq
  akin h := h ▸ .same _
  fixed _ _ := rfl
  children _ _ _ h := by rw [Node.package.inj h]
  imports _ _ _ _ h := by
    obtain rfl := Node.package.inj h
    exact ⟨rfl, rfl⟩

theorem Graph.Like.eq {g g' : Graph} (h : g.Like .exact g') : g = g' := by
  refine congrArg Graph.mk (Array.ext_getElem? fun id => ?_)
  show g.node? id = g'.node? id
  have hnode := h.nodes id
  generalize g.node? id = found at hnode ⊢
  generalize g'.node? id = found' at hnode ⊢
  cases hnode with
  | none => rfl
  | some halike => exact congrArg some halike

/-- What is added to a node leaves what it mentions. -/
theorem Node.Grows.mentions_subset {n n' : Node} (h : n.Grows n') : n.mentions ⊆ n'.mentions := by
  cases h with
  | same => exact fun _ => id
  | message _ _ hfields hchildren =>
    intro t ht
    rcases List.mem_append.1 ht with hchild | hfield
    · exact List.mem_append_left _ (hchildren.subset hchild)
    · exact List.mem_append_right _ ((hfields.map _).subset hfield)
  | package => exact fun _ => id
  | service _ hrpcs =>
    intro t ht
    obtain ⟨rpc, hrpc, ht⟩ := List.mem_flatMap.1 ht
    exact List.mem_flatMap.2 ⟨rpc, hrpcs.subset hrpc, ht⟩

namespace Graph.Grows

variable {g g' : Graph} (h : g.Grows g')
include h

theorem children_prefix (id : Nat) : g.children id <+: g'.children id := by
  unfold Graph.children
  rcases hn : g.node? id with _ | n
  · exact List.nil_prefix
  · obtain ⟨n', hn', hgrows⟩ := h id n hn
    rw [hn']
    cases hgrows with
    | same => exact List.prefix_rfl
    | message _ _ _ hchildren => exact hchildren
    | package _ _ _ hchildren => exact hchildren
    | service => exact List.prefix_rfl

/-- What a package may become. -/
theorem package?_of_some {id : Nat} {p : Package} (hp : g.node? id = some (.package p)) :
    ∃ p', g'.node? id = some (.package p') ∧ p'.name = p.name ∧ p'.options = p.options ∧
      p.imports <+: p'.imports ∧ p.children <+: p'.children := by
  obtain ⟨n', hn', hgrows⟩ := h id _ hp
  cases hgrows with
  | same => exact ⟨p, hn', rfl, rfl, List.prefix_rfl, List.prefix_rfl⟩
  | package hname hoptions himports hchildren =>
    exact ⟨_, hn', hname, hoptions, himports, hchildren⟩

/-- What could be reached stays within reach. -/
theorem reachable {package : Nat} {t : TypeRef} (ht : g.Reachable package t) :
    g'.Reachable package t := by
  induction ht with
  | child hmem => exact .child ((h.children_prefix package).subset hmem)
  | mention _ hn hmem ih =>
    obtain ⟨n', hn', hgrows⟩ := h _ _ hn
    exact ih.mention hn' (hgrows.mentions_subset hmem)

/-- If no reference is left over in the end, there was none before. -/
theorem dangling_eq_nil {package : Nat} (hend : dangling g' package = []) :
    dangling g package = [] := by
  refine dangling_eq_nil_iff.2 fun t ht => ?_
  rintro ⟨id, ref, rfl, hn⟩
  obtain ⟨n', hn', hgrows⟩ := h id _ hn
  cases hgrows
  exact dangling_eq_nil_iff.1 hend _ (h.reachable ht) ⟨id, ref, rfl, hn'⟩

end Graph.Grows

end ApiProto.Proto

namespace ApiProto.Compile

open Proto Document CompileM

variable {options : Options} {spec : Spec} {env : Environment} {c c₀ c₁ c₂ : Compilation}

theorem Compilation.Alike.eq {c c' : Compilation} (h : c.Alike .exact c') : c = c' := by
  have heq : c' = ⟨c.graph, c.registry, c.service, c.definitions, c.wrappers, c.deferring⟩ := by
    rw [h.graph.eq, ← h.registry_eq, ← h.service_eq, ← h.definitions_eq, ← h.wrappers_eq,
      ← h.deferring_eq]
  exact heq.symm

/-- Steps that agree on the very nodes are equal. -/
theorem Agree.eq {α : Type} {m m' : CompileM α} (h : Agree .exact Eq m m') : m = m' := by
  funext c
  have hruns := h c c (.refl (fun _ => rfl) c)
  exact (hruns.imp fun p p' hp => Prod.ext hp.1 hp.2.eq).eq_of_eq

/-! ## Phases without operations -/

/-- Named schemas and shared parameters are compiled without a look at whether there will be
procedures. -/
theorem compileNamed_skipRpcs (skip skip' : Bool) :
    compileNamed ⟨{ options with skipRpcs := skip }, spec⟩ =
      compileNamed ⟨{ options with skipRpcs := skip' }, spec⟩ := by
  have hakin : Environment.Akin .exact ⟨{ options with skipRpcs := skip }, spec⟩
      ⟨{ options with skipRpcs := skip' }, spec⟩ := ⟨rfl, .refl _, fun _ _ _ => rfl⟩
  have hdeclared : ∀ scope, compileDeclared ⟨{ options with skipRpcs := skip }, spec⟩ scope =
      compileDeclared ⟨{ options with skipRpcs := skip' }, spec⟩ scope := fun scope =>
    Agree.eq (.bind_eq (.within _ (compileDefinitions_agree_self hakin rfl scope)) fun _ =>
      .within _ (compileParameters_agree_self hakin rfl scope))
  unfold compileNamed
  simp only [hdeclared]

/-- Without procedures, the phases end when references have been resolved and extensions added. -/
theorem compilePhases_of_states (hskip : env.options.skipRpcs = true)
    (hnamed : compileNamed env c = .ok ((), c₀)) (hresolve : resolveAll c₀ = .ok ((), c₁))
    (hextensions : env.spec.extensions.forM compileExtension { c₁ with deferring := false } =
      .ok ((), c₂)) : compilePhases env c = .ok ((), c₂) := by
  unfold compilePhases
  rw [get_bind]
  refine bind_ok_iff.2 ⟨_, c₀, hnamed, bind_ok_iff.2 ⟨_, c₁, within_ok_iff.2 hresolve, ?_⟩⟩
  rw [modify_bind]
  refine bind_ok_iff.2 ⟨_, c₂, hextensions, ?_⟩
  rw [hskip]
  rfl

/-! ## Packages -/

/-- What stays of an outcome when procedures are added: imports and declarations are added to the
package at the end, and messages, enums, extensions and maps are not touched. -/
structure Output.ExtendedBy (o o' : Output) : Prop where
  package_eq : o'.package = o.package
  package : ∃ p p', o.graph.node? o.package = some (.package p) ∧
    o'.graph.node? o.package = some (.package p') ∧ p'.name = p.name ∧ p'.options = p.options ∧
    p.imports <+: p'.imports ∧ p.children <+: p'.children
  nodes : ∀ id n, o.graph.node? id = some n → n.isFixed = true → o'.graph.node? id = some n
  reachable : ∀ t, o.graph.Reachable o.package t → o'.graph.Reachable o'.package t

/-- A description that can be compiled can be compiled without procedures, to the first part of the
same package. -/
theorem compile_skipRpcs {o : Output}
    (h : compile { options with skipRpcs := false } spec = .ok o) :
    ∃ o', compile { options with skipRpcs := true } spec = .ok o' ∧ o'.ExtendedBy o := by
  obtain ⟨c, hrun, rfl⟩ := compile_ok_iff.1 h
  obtain ⟨hphases, hdangling⟩ := compileAll_ok_iff.1 hrun
  obtain ⟨c₀, c₁, c₂, hnamed, hresolve, hextensions, hpaths⟩ := compilePhases_states hphases
  obtain ⟨hunderway, -, s, hs, -⟩ := ReachesPaths.serves ⟨c₀, c₁, hnamed, hresolve, hextensions⟩
  have hgrows := hunderway.builds_grows (compilePaths_builds hpaths)
  obtain ⟨p, hp⟩ := hunderway.closed.package
  have hskipped : compileAll ⟨{ options with skipRpcs := true }, spec⟩
      (startOf ⟨{ options with skipRpcs := true }, spec⟩) = .ok ((), c₂) := by
    refine compileAll_ok_iff.2 ⟨compilePhases_of_states rfl ?_ hresolve hextensions, ?_⟩
    · rw [compileNamed_skipRpcs true false]
      exact hnamed
    · exact hgrows.nodes.dangling_eq_nil (hgrows.package ▸ hdangling)
  refine ⟨⟨c₂.graph, c₂.package⟩, compile_ok_iff.2 ⟨c₂, hskipped, rfl⟩, hgrows.package, ?_, ?_, ?_⟩
  · obtain ⟨p', hp', hname, hoptions, himports, hchildren⟩ := hgrows.nodes.package?_of_some hp
    exact ⟨p, p', hp, hp', hname, hoptions, himports, hchildren⟩
  · intro id n hn hfixed
    refine hgrows.closed id n hn fun hopened => ?_
    -- what is open is the package or the service
    rcases List.mem_cons.1 hopened with rfl | hrest
    · rw [← hunderway.package, hp] at hn
      obtain rfl := Option.some.inj hn
      cases hfixed
    · obtain rfl := List.mem_singleton.1 hrest
      rw [← hunderway.service, node?_of_service? hs] at hn
      obtain rfl := Option.some.inj hn
      cases hfixed
  · intro t ht
    exact hgrows.package ▸ hgrows.nodes.reachable ht

/-- A named schema, and an operation that takes a colour and answers with it. -/
def petsByColour : Spec := { Spec.ofDefinitions [("Pet", .object [("name", .scalar "string")])] with
  paths := [("/pets", .single [.scalar "colour" "query" "string"]
    (finding .get "find" (.reference "#/definitions/Pet")))] }

theorem compile_skipRpcs_petsByColour : ∃ o,
    compile ⟨true, false, false, false, "pets"⟩ petsByColour = .ok o ∧
    ∃ o', compile ⟨true, true, false, false, "pets"⟩ petsByColour = .ok o' ∧ o'.ExtendedBy o := by
  obtain ⟨c, hcompile, -⟩ := compile_of_compilesTo
    (show compilesTo ⟨true, false, false, false, "pets"⟩ petsByColour (fun c =>
      (c.graph.children c.package).length == 3) = true by decide +kernel)
  have hskipped := compile_skipRpcs
    (show compile { (⟨true, false, false, false, "pets"⟩ : Options) with skipRpcs := false }
      petsByColour = .ok ⟨c.graph, c.package⟩ from hcompile)
  exact ⟨_, hcompile, hskipped⟩

end ApiProto.Compile
