import ApiProto.Proofs.AtRest

/-!
# States in active scopes

While something is compiled in a scope, all is at home, and the scope is active: its containers are
the package and messages with plain names, and what cannot be declared in it has a visible name.

* `Compilation.At` — a state in which something is compiled in a scope.
* `Runs.at`, `Builds.at` — runs and phases lead to such states.
* `At.declared_or_visible`, `At.declared_or_inside` — where a new type is declared.
-/

namespace ApiProto.Compile

open Proto Document CompileM

variable {env : Environment} {scope : Scope} {c c' : Compilation}

/-- A state while something is compiled in a scope: all is at home, and the scope is active. -/
def Compilation.At (c : Compilation) (scope : Scope) : Prop :=
  ∃ home, Homed home c ∧ Active home c scope

theorem Runs.at {ts : List TypeRef} (h : Runs env scope c ts c') (hat : c.At scope) :
    c'.At scope := by
  obtain ⟨home, hhomed, hactive⟩ := hat
  obtain ⟨home', honward, -⟩ := h.sound hhomed hactive
  exact ⟨home', honward.homed, honward.active⟩

namespace Compilation.At

variable (h : c.At scope)
include h

theorem package_mem : c.package ∈ scope := by
  obtain ⟨home, -, hactive⟩ := h
  exact hactive.package_mem

/-- A new message is entered. -/
theorem enter {name : String} (plain : Name.IsPlain name) (comment : Value)
    (hfree : c.registry.lookup c.graph name scope = none) :
    (c.withNode (.message ⟨name, [], [], comment⟩)).At (c.graph.size :: scope) := by
  obtain ⟨home, hhomed, hactive⟩ := h
  refine ⟨_, ?_, hactive.enter hhomed comment hfree (plain.not_mem (by decide))⟩
  exact hhomed.withNode hactive.package_mem (by simp [Node.mentions])
    (fun name _ heq => Option.some.inj heq ▸ plain) rfl (by simp) (by simp [Node.uses])

/-- Only the package is the innermost container of its scope alone. -/
theorem eq_of_head? (hhead : scope.head? = some c.package) : scope = [c.package] := by
  obtain ⟨home, hhomed, hactive⟩ := h
  obtain ⟨parent, outer, rfl⟩ := List.exists_cons_of_ne_nil (List.ne_nil_of_mem hactive.package_mem)
  obtain rfl := Option.some.inj hhead
  rw [← hactive.homes _ outer (List.suffix_refl _), hhomed.package]

/-- The containers inside the package are messages. -/
theorem message {message : Nat} {outer : Scope} (hscope : scope = message :: outer)
    (houter : outer ≠ []) : ∃ m, c.graph.node? message = some (.message m) := by
  obtain ⟨home, hhomed, hactive⟩ := h
  subst hscope
  refine hactive.messages message (List.mem_cons_self ..) ?_
  rintro rfl
  exact houter ((hactive.homes _ outer (List.suffix_refl _)).symm.trans hhomed.package)

/-- They have plain names. -/
theorem typeName_plain {message : Nat} {outer : Scope} (hscope : scope = message :: outer)
    (houter : outer ≠ []) : Name.IsPlain (c.graph.typeName (.node message)) := by
  obtain ⟨m, hm⟩ := h.message hscope houter
  obtain ⟨home, hhomed, -⟩ := h
  exact hhomed.registered.plain message (Graph.isDeclared_iff.2 ⟨_, hm, rfl⟩)

section Declaration

variable {n : Node} {name : String} (hdeclared : n.isDeclared = true)
  (hname : n.ownName? = some name) (plain : Name.IsPlain name)
include hdeclared hname plain

/-- A new type is declared unless a type of its name is visible. -/
theorem declared_or_visible (parent : Nat) :
    (parent, c.graph.size) ∈ ((c.withNode n).declare scope parent
      (.node c.graph.size)).registry.log ∨ c.Visible scope name := by
  obtain ⟨home, hhomed, hactive⟩ := h
  have hnode : (c.withNode n).graph.node? c.graph.size = some n := Graph.node?_add_self _
  have hown : (c.withNode n).graph.typeName (.node c.graph.size) = name :=
    Graph.typeName_of_ownName? hnode hname
  have hgrows : c.Grows [] (c.withNode n) := .withNode c _
  unfold Compilation.declare
  rcases Registry.register_cases (c.withNode n).graph (c.withNode n).registry
      (.node c.graph.size) parent scope with
    ⟨-, hnot | hpoint | ⟨id, hid, hlog⟩ | htaken⟩ | ⟨id, hid, -, -, -, ⟨hlog, heq⟩ | ⟨-, heq⟩⟩
  · rw [Graph.isDeclared_of_node? hnode, hdeclared] at hnot
    cases hnot
  · exact absurd (hown ▸ hpoint) (plain.not_mem (by decide))
  · obtain rfl := TypeRef.node.inj hid
    exact absurd (hhomed.closed.log _ hlog) (Nat.lt_irrefl _)
  · rw [hown, key_eq_of_grows hgrows fun x hx => hactive.named hhomed.closed hx] at htaken
    exact .inr (hactive.taken scope (List.suffix_refl _) (List.ne_nil_of_mem hactive.package_mem)
      name (plain.not_mem (by decide)) htaken)
  · obtain rfl := TypeRef.node.inj hid
    rw [heq]
    exact .inl hlog
  · obtain rfl := TypeRef.node.inj hid
    rw [heq]
    exact .inl (List.mem_append_right _ (List.mem_singleton.2 rfl))

/-- A new type whose name is free is declared. -/
theorem declared_of_free (parent : Nat)
    (hfree : c.registry.lookup c.graph name scope = none) :
    (parent, c.graph.size) ∈ ((c.withNode n).declare scope parent
      (.node c.graph.size)).registry.log :=
  (h.declared_or_visible hdeclared hname plain parent).resolve_right (not_visible_of_lookup hfree)

/-- A new type whose name is free in the package is declared there, unless a message of the scope
has a type of its name. -/
theorem declared_or_inside (hfree : c.registry.lookup c.graph name [c.package] = none) :
    (c.package, c.graph.size) ∈ ((c.withNode n).declare scope c.package
        (.node c.graph.size)).registry.log ∨
      ∃ container id n, container ≠ c.package ∧ (container, id) ∈ c.registry.log ∧
        c.graph.node? id = some n ∧ n.ownName? = some name := by
  refine (h.declared_or_visible hdeclared hname plain c.package).imp_right ?_
  obtain ⟨home, hhomed, -⟩ := h
  rintro ⟨container, -, id, hlog, rfl⟩
  obtain ⟨n', hn', hdeclared'⟩ := Graph.isDeclared_iff.1 (hhomed.registered.declared _ hlog)
  obtain ⟨own, hown⟩ := Node.ownName?_of_isDeclared hdeclared'
  refine ⟨container, id, n', fun heq => ?_, hlog, hn',
    hown.trans (congrArg some (Graph.typeName_of_ownName? hn' hown).symm)⟩
  exact not_visible_of_lookup hfree ⟨c.package, List.mem_singleton_self _, id, heq ▸ hlog, rfl⟩

end Declaration

end Compilation.At

/-- Between the types of a package, the package alone is open. -/
theorem Builds.at {package : Nat} (h : Builds env package c c') (hat : c.At [package]) :
    c'.At [package] := by
  have hpackage : c.package = package := List.mem_singleton.1 hat.package_mem
  have hrest : c'.AtRest := h.atRest hpackage (by rwa [Compilation.AtRest, hpackage])
  rwa [Compilation.AtRest, (h.grows hpackage).package, hpackage] at hrest

end ApiProto.Compile
