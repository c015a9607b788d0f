import ApiProto.Proofs.RpcOptions
import ApiProto.Proofs.Tours

/-!
# What a package uses

All that is printed of a package can be reached from its declarations.

* `Graph.Uses` — the types that are written in a package: those of fields, of values of maps, and
  of procedures.
* `dangling_eq_nil` — nothing is left over in a graph without references.
* `compilesTo` — compilations that end in such a graph, as a test.
-/

namespace ApiProto.Proto

variable {g : Graph} {package : Nat}

/-- The types that are written in a package: those of fields, of values of maps, and of the
requests and responses of procedures. -/
inductive Graph.Uses (g : Graph) (package : Nat) : TypeRef → Prop
  | field {id : Nat} {m : Message} {f : Field TypeRef Value} : g.Reachable package (.node id) →
      g.node? id = some (.message m) → f ∈ m.fields → g.Uses package f.type
  | value {id : Nat} {key value : TypeRef} : g.Reachable package (.node id) →
      g.node? id = some (.map key value) → g.Uses package value
  | request {id : Nat} {s : Service TypeRef} {rpc : Rpc TypeRef} :
      g.Reachable package (.node id) → g.node? id = some (.service s) → rpc ∈ s.rpcs →
      g.Uses package rpc.parameter
  | response {id : Nat} {s : Service TypeRef} {rpc : Rpc TypeRef} :
      g.Reachable package (.node id) → g.node? id = some (.service s) → rpc ∈ s.rpcs →
      g.Uses package rpc.response

theorem Graph.Uses.reachable {t : TypeRef} (h : g.Uses package t) : g.Reachable package t := by
  cases h with
  | @field id m f hid hn hf =>
    refine hid.mention hn (List.mem_append_right _ ?_)
    exact List.mem_map.2 ⟨f, hf, rfl⟩
  | value hid hn => exact hid.mention hn (by simp [Node.mentions])
  | request hid hn hrpc => exact hid.mention hn (List.mem_flatMap.2 ⟨_, hrpc, by simp⟩)
  | response hid hn hrpc => exact hid.mention hn (List.mem_flatMap.2 ⟨_, hrpc, by simp⟩)

/-- Whether a graph has no references. -/
def Graph.isResolved (g : Graph) : Bool :=
  g.nodes.all fun n => match n with
    | .reference _ => false
    | _ => true

theorem not_isReference_of_isResolved (h : g.isResolved = true) (t : TypeRef) :
    ¬ g.IsReference t := by
  rintro ⟨id, ref, rfl, hn⟩
  obtain ⟨hlt, hget⟩ := Array.getElem?_eq_some_iff.1 hn
  have hall := Array.all_eq_true.1 h id hlt
  rw [hget] at hall
  cases hall

/-- A graph without references has none left over. -/
theorem dangling_eq_nil (h : g.isResolved = true) : dangling g package = [] :=
  dangling_eq_nil_iff.2 fun t _ => not_isReference_of_isResolved h t

end ApiProto.Proto

namespace ApiProto.Compile

open Proto Document

/-- Whether a description can be compiled, without references to what comes later, to a state that
passes a test. -/
def compilesTo (options : Options) (spec : Spec) (test : Compilation → Bool) : Bool :=
  match compilePhases ⟨options, spec⟩ (startOf ⟨options, spec⟩) with
  | .ok (_, c) => c.graph.isResolved && test c
  | .error _ => false

theorem compileAll_of_compilesTo {options : Options} {spec : Spec} {test : Compilation → Bool}
    (h : compilesTo options spec test = true) :
    ∃ c, compileAll ⟨options, spec⟩ (startOf ⟨options, spec⟩) = .ok ((), c) ∧ test c = true := by
  unfold compilesTo at h
  split at h
  · next c hphases =>
    obtain ⟨hresolved, htest⟩ := Bool.and_eq_true_iff.1 h
    exact ⟨c, compileAll_ok_iff.2 ⟨hphases, dangling_eq_nil hresolved⟩, htest⟩
  · cases h

theorem compile_of_compilesTo {options : Options} {spec : Spec} {test : Compilation → Bool}
    (h : compilesTo options spec test = true) :
    ∃ c, compile options spec = .ok ⟨c.graph, c.package⟩ ∧ test c = true := by
  obtain ⟨c, hrun, htest⟩ := compileAll_of_compilesTo h
  exact ⟨c, compile_ok_iff.2 ⟨c, hrun, rfl⟩, htest⟩

end ApiProto.Compile
