import ApiProto.Proofs.ScopeSoundness

/-!
# States at rest

Between the parts of a description only the package is open, and all is at home. A compilation starts
at rest, and building and resolution come back to rest.

* `Compilation.AtRest` — all is at home, and nothing is being compiled.
* `Builds.atRest`, `AtRest.resolved` — building and resolution come back to rest.
* `Compiled.atRest` — a compilation ends at rest.
-/

namespace ApiProto.Compile

open Proto Document CompileM
open Compilation (ChangesGraph)

variable {home home' : Nat → Scope} {c c' : Compilation} {opened : Scope}

/-- All is at home, and only the package is open. -/
def Compilation.AtRest (c : Compilation) : Prop :=
  ∃ home, Homed home c ∧ Active home c [c.package]

/-! ## Building -/

/-- The package stays open while nothing is declared. -/
theorem Active.of_same_registry (ha : Active home c [c.package]) (h : Homed home c)
    (hgrows : c.Grows opened c') (hregistry : c'.registry = c.registry)
    (hhome : ∀ id, id < c.graph.size → home' id = home id) : Active home' c' [c'.package] := by
  rw [hgrows.package]
  exact ha.of_grows h hgrows (congrArg Registry.keys hregistry) hhome

theorem defining_registry (ref : String) (d : Definition) :
    (c.defining ref d).registry = c.registry := by
  unfold Compilation.defining
  split <;> rfl

/-- An extension is at home in the package. -/
theorem Homed.extending (h : Homed home c) (e : Proto.Extension) :
    Homed (settle home c.graph.size [c.package]) (c.extending e) := by
  have hnode : Homed (settle home c.graph.size [c.package]) (c.withNode (.extension e)) :=
    h.withNode (List.mem_singleton.2 rfl) (by simp [Node.mentions])
      (fun _ hdeclared => nomatch hdeclared) rfl (by simp) (by simp [Node.uses])
  have hnot : (c.withNode (.extension e)).graph.isDeclared (.node c.graph.size) = false :=
    Graph.isDeclared_of_node? (Graph.node?_add_self _)
  refine hnode.of_same_uses (.addChild (List.mem_singleton.2 rfl) _) (h.closed.extending e)
    (hnode.registered.addChild (has_withNode c _) hnot) (fun id n' hn' => ?_)
    (fun _ hmem hnew => absurd hmem hnew) rfl rfl
  have hchild : ((c.graph.add (.extension e)).1.addChild c.package
      (.node c.graph.size)).node? id = some n' := hn'
  rw [Graph.node?_addChild] at hchild
  split at hchild
  · obtain ⟨n, hn, rfl⟩ := Option.map_eq_some_iff.1 hchild
    exact ⟨n, hn, by cases n <;> rfl⟩
  · exact ⟨n', hchild, rfl⟩

theorem Homed.serving (h : Homed home c) {rpc : Rpc TypeRef}
    (hparameter : Sound home c [c.package] rpc.parameter)
    (hresponse : Sound home c [c.package] rpc.response) : Homed home (c.serving rpc) := by
  rcases serving_cases (c := c) rpc with heq | ⟨s, c₁, c₂, rfl, rfl, -, hnode, heq⟩ <;> rw [heq]
  · exact h
  · have h₁ := h.importing (c.graph.typeName rpc.parameter)
    have h₂ := h₁.importing ((c.importing (c.graph.typeName rpc.parameter)).graph.typeName rpc.response)
    have hfirst : c.Grows [c.package] (c.importing (c.graph.typeName rpc.parameter)) :=
      .importing (by simp) _
    have hgrows := hfirst.trans (.importing (by simp [hfirst.package])
      ((c.importing (c.graph.typeName rpc.parameter)).graph.typeName rpc.response))
    refine h₂.put hnode (.service rfl (List.prefix_append ..)) rfl (by simp) (fun t ht => .inr ht)
      fun t ht hnew => ?_
    have hpart : t = rpc.parameter ∨ t = rpc.response := by
      simp only [Node.uses, List.flatMap_append, List.mem_append] at ht hnew
      simpa using ht.resolve_left hnew
    have hsound : Sound home c [c.package] t := by
      rcases hpart with rfl | rfl
      · exact hparameter
      · exact hresponse
    show Sound home _ [Compilation.package _] t
    rw [hgrows.package]
    exact hsound.of_grows h.registered hgrows fun _ _ => rfl

variable {env : Environment} {package : Nat}

/-- A run in the package comes back to rest. -/
theorem Runs.atRest {ts : List TypeRef} (h : Runs env [c.package] c ts c') (hc : c.AtRest) :
    ∃ home, Homed home c' ∧ Active home c' [c'.package] ∧
      ∀ t ∈ ts, Sound home c' [c'.package] t := by
  obtain ⟨home, hhomed, hactive⟩ := hc
  obtain ⟨home', h', hts⟩ := h.sound hhomed hactive
  rw [h'.grows.package]
  exact ⟨home', h'.homed, h'.active, hts⟩

/-- Building comes back to rest. -/
theorem Builds.atRest (h : Builds env package c c') (hp : c.package = package) (hc : c.AtRest) :
    c'.AtRest := by
  induction h with
  | refl => exact hc
  | importFile file _ ih =>
    obtain ⟨home, hhomed, hactive⟩ := ih
    exact ⟨home, hhomed.importFile file,
      hactive.of_same_registry hhomed (.importFile (List.mem_singleton.2 rfl) file) rfl
        fun _ _ => rfl⟩
  | define ref d hbuilds hrun ih =>
    rw [← (hbuilds.grows hp).package.trans hp] at hrun
    obtain ⟨home₂, hhomed, hactive, hts⟩ := hrun.atRest ih
    exact ⟨home₂, hhomed.defining ref (hts _ (by simp)),
      hactive.of_same_registry hhomed (@defining_grows [] _ ref d) (defining_registry ..)
        fun _ _ => rfl⟩
  | @extension c₁ e _ ih =>
    obtain ⟨home, hhomed, hactive⟩ := ih
    have hmem : c₁.package ∈ [c₁.package] := List.mem_singleton.2 rfl
    have himported := hhomed.importingAll (e.fields.map (·.type) ++ [e.base])
    have hopen := hactive.of_same_registry hhomed
      (importingAll_grows hmem (e.fields.map (·.type) ++ [e.base]))
      (ChangesGraph.importingAll _ _).registry
      fun _ _ => rfl
    exact ⟨_, himported.extending e, hopen.of_same_registry himported
      (extending_grows (List.mem_singleton.2 rfl) e) rfl fun id hid => settle_of_lt hid⟩
  | procedure rpc hbuilds hrun ih =>
    rw [← (hbuilds.grows hp).package.trans hp] at hrun
    obtain ⟨home₂, hhomed, hactive, hts⟩ := hrun.atRest ih
    exact ⟨home₂, hhomed.serving (hts _ (by simp)) (hts _ (by simp)),
      hactive.of_same_registry hhomed
        (serving_grows (List.mem_cons_self ..) (List.mem_cons_of_mem _ (List.mem_singleton.2 rfl)) rpc)
        (ChangesGraph.serving _ rpc).registry fun _ _ => rfl⟩

/-! ## Resolution -/

section Resolution

variable (h : c.Resolved c')
include h

theorem Compilation.Resolved.package_eq : c'.package = c.package :=
  congrArg Registry.package h.registry

theorem Compilation.Resolved.visible {scope : Scope} {name : String} (hr : c.Registered)
    (hvisible : c.Visible scope name) : c'.Visible scope name := by
  obtain ⟨container, hmem, id, hlog, hname⟩ := hvisible
  refine ⟨container, hmem, id, by rwa [h.registry], ?_⟩
  rw [h.graph.keepsNames.typeName_eq_of_isDeclared (hr.declared _ hlog), hname]

/-- What is sound stays so. -/
theorem Sound.resolved {scope : Scope} {t : TypeRef} (ht : Sound home c scope t)
    (hr : c.Registered) : Sound home c' scope t := by
  refine ⟨h.graph.has_iff.2 ht.1, fun id hid => ?_⟩
  rcases ht.2 id hid with href | ⟨hhome, hvisible⟩
  · exact .inl (h.graph.isReference_iff.2 href)
  · refine .inr ⟨hhome, fun hdeclared => ?_⟩
    subst hid
    have hold := h.graph.isDeclared_iff.1 hdeclared
    rw [h.graph.keepsNames.typeName_eq_of_isDeclared hold, h.wrappers]
    exact (hvisible hold).imp_left (h.visible hr)

/-- What references stand for is sound in the package. -/
theorem Homed.sound_given (hc : Homed home c) {t : TypeRef} (ht : c.Given t) :
    Sound home c' [c.package] t := by
  obtain ⟨ref, hmem⟩ := ht
  rcases List.mem_append.1 hmem with hknown | hdefined
  · obtain ⟨⟨_, b⟩, -, heq⟩ := List.mem_map.1 hknown
    obtain ⟨-, rfl⟩ := Prod.mk.inj heq
    exact .builtin ..
  · obtain ⟨entry, hentry, heq⟩ := List.mem_map.1 hdefined
    obtain ⟨-, rfl⟩ := Prod.mk.inj heq
    exact (hc.definitions entry hentry).resolved h hc.registered

/-- What takes the place of a type is sound where the type was. -/
theorem Sound.becomes {scope : Scope} {t t' : TypeRef} (ht : Sound home c scope t)
    (hc : Homed home c) (hscope : c.package ∈ scope)
    (hbecomes : c.graph.MayBecome c.Given t t') : Sound home c' scope t' := by
  rcases hbecomes with rfl | ⟨-, hgiven⟩
  · exact ht.resolved h hc.registered
  · exact (hc.sound_given h hgiven).subset (by simpa using hscope)

theorem Homed.resolved (hc : Homed home c) : Homed home c' where
  closed := hc.closed.resolved h
  registered := hc.registered.resolved h
  package := by rw [h.package_eq, hc.package]
  around := by rw [h.package_eq]; exact hc.around
  uses id n' hn' t ht := by
    obtain ⟨n, hn, hres⟩ := h.graph.of_node? hn'
    have huses := hc.uses id n hn
    rw [h.package_eq]
    cases hres with
    | same => exact (huses t ht).resolved h hc.registered
    | @message m m' _ _ _ hlength hfields =>
      obtain ⟨f', hf', rfl⟩ := List.mem_map.1 ht
      obtain ⟨i, hi⟩ := List.mem_iff_getElem?.1 hf'
      have hlt : i < m.fields.length := hlength ▸ (List.getElem?_eq_some_iff.1 hi).1
      have hf := List.getElem?_eq_getElem hlt
      obtain ⟨_, hi', t', rfl, ht'⟩ := hfields i _ hf
      obtain rfl := Option.some.inj (hi.symm.trans hi')
      have hold := huses _ (List.mem_map.2 ⟨_, List.mem_of_getElem? hf, rfl⟩)
      refine hold.becomes h hc ?_ ht'
      rcases Decidable.em (id = c.package) with rfl | hne
      · exact List.mem_cons_self ..
      · exact List.mem_cons_of_mem _ (hc.around id hne)
    | @map key value value' hvalue =>
      obtain rfl := List.mem_singleton.1 ht
      refine (huses value (by simp [Node.uses])).becomes h hc (hc.around id ?_) hvalue
      rintro rfl
      obtain ⟨p, hp⟩ := hc.closed.package
      exact absurd (hp.symm.trans hn) (by simp)
  edges := by rw [h.registry]; exact hc.edges
  definitions entry hentry := by
    obtain ⟨d, hd, t, heq, ht⟩ := h.definitions entry hentry
    rw [h.package_eq, heq]
    have hsound : Sound home c' [c.package] t :=
      (hc.definitions _ hd).becomes h hc (List.mem_singleton.2 rfl) ht
    cases d <;> exact hsound
  wrappers := by rw [h.package_eq, h.wrappers]; exact hc.wrappers

/-- Resolution comes back to rest. -/
theorem Compilation.AtRest.resolved (hc : c.AtRest) : c'.AtRest := by
  obtain ⟨home, hhomed, hactive⟩ := hc
  have hnamed : ∀ x ∈ [c.package], c.graph.Named x := fun x => hactive.named hhomed.closed
  have hkey : ∀ {outer : Scope} {name : String}, outer <:+ [c.package] →
      Registry.key c'.graph outer name = Registry.key c.graph outer name := by
    intro outer name houter
    refine Registry.key_congr fun x hx => ?_
    obtain ⟨n, own, hn, hown⟩ := hnamed x (houter.subset hx)
    exact h.graph.keepsNames.typeName_eq hn hown
  refine ⟨home, hhomed.resolved h, ?_⟩
  rw [h.package_eq]
  refine ⟨by simp [h.package_eq], hactive.homes, fun x hx hne => ?_,
    fun outer houter hne name hname hmem => ?_, fun outer houter hne name rest hname hmem => ?_⟩
  · exact absurd ((List.mem_singleton.1 hx).trans h.package_eq.symm) hne
  · rw [hkey houter, h.registry] at hmem
    exact h.visible hhomed.registered (hactive.taken outer houter hne name hname hmem)
  · rw [hkey houter, h.registry] at hmem
    refine (hactive.entered outer houter hne name rest hname hmem).imp
      (h.visible hhomed.registered) fun ⟨x, hx, hxname⟩ => ?_
    obtain ⟨n, own, hn, hown⟩ := hnamed x (hx.subset (List.mem_cons_self ..))
    exact ⟨x, hx, (h.graph.keepsNames.typeName_eq hn hown).trans hxname⟩

end Resolution

/-- The state in which references are no longer put off. -/
theorem Compilation.AtRest.deferring (hc : c.AtRest) (b : Bool) :
    Compilation.AtRest { c with deferring := b } := by
  obtain ⟨home, hhomed, hactive⟩ := hc
  have hclosed := hhomed.closed
  have hregistered := hhomed.registered
  exact ⟨home,
    ⟨⟨hclosed.mentions, hclosed.definitions, hclosed.wrappers, hclosed.log, hclosed.package⟩,
      ⟨hregistered.inside, hregistered.declared, hregistered.plain, hregistered.children,
        hregistered.inner⟩,
      hhomed.package, hhomed.around, hhomed.uses, hhomed.edges, hhomed.definitions,
      hhomed.wrappers⟩,
    ⟨hactive.package, hactive.homes, hactive.messages, hactive.taken, hactive.entered⟩⟩

/-! ## Compilations -/

section Start

variable (packageName serviceName : String) (options : List (String × String))

theorem start_registered : (start packageName serviceName options).Registered where
  inside container t ht := by
    obtain ⟨n, hn, hmem⟩ := Graph.mem_children_iff.1 ht
    rcases start_node? hn with ⟨-, rfl⟩ | ⟨-, rfl⟩
    · obtain rfl := List.mem_singleton.1 hmem
      exact Nat.lt_succ_self 1
    · cases hmem
  declared _ hmem := nomatch hmem
  plain id hid := by
    obtain ⟨n, hn, hdeclared⟩ := Graph.isDeclared_iff.1 hid
    rcases start_node? hn with ⟨-, rfl⟩ | ⟨-, rfl⟩ <;> cases hdeclared
  children container id hid := by
    obtain ⟨n, hn, hdeclared⟩ := Graph.isDeclared_iff.1 hid
    rcases start_node? hn with ⟨-, rfl⟩ | ⟨-, rfl⟩ <;> cases hdeclared
  inner container t ht := by
    obtain ⟨n, hn, hmem⟩ := Graph.mem_children_iff.1 ht
    rcases start_node? hn with ⟨rfl, -⟩ | ⟨-, rfl⟩
    · exact .inl rfl
    · cases hmem

theorem start_homed : Homed (settle (fun _ => [0]) 0 []) (start packageName serviceName options) where
  closed := start_closed packageName serviceName options
  registered := start_registered packageName serviceName options
  package := rfl
  around id hid := by
    have hhome : settle (fun _ => [0]) 0 [] id = [0] := settle_of_ne hid
    rw [hhome]
    exact List.mem_singleton.2 rfl
  uses id n hn t ht := by
    rcases start_node? hn with ⟨-, rfl⟩ | ⟨-, rfl⟩ <;> cases ht
  edges _ hmem := nomatch hmem
  definitions _ hmem := nomatch hmem
  wrappers _ hmem := nomatch hmem

theorem start_active :
    Active (settle (fun _ => [0]) 0 []) (start packageName serviceName options) [0] where
  package := List.suffix_refl _
  homes x outer hx := by
    rcases List.suffix_cons_iff.1 hx with heq | hnil
    · obtain ⟨rfl, rfl⟩ := List.cons.inj heq
      rfl
    · exact absurd hnil.length_le (by simp)
  messages _ hx hne := absurd (List.mem_singleton.1 hx) hne
  taken _ _ _ _ _ hmem := nomatch hmem
  entered _ _ _ _ _ _ hmem := nomatch hmem

end Start

theorem startOf_atRest : (startOf env).AtRest := by
  obtain ⟨packageName, serviceName, options, heq⟩ := startOf_is_start env
  rw [heq]
  exact ⟨_, start_homed packageName serviceName options, start_active packageName serviceName options⟩

/-- A compilation ends at rest. -/
theorem Compiled.atRest {c₀ c₁ c₂ : Compilation} (h : Compiled env c₀ c₁ c₂) : c₂.AtRest := by
  have hnamed : c₀.AtRest := h.start_builds.atRest rfl startOf_atRest
  exact h.builds.atRest rfl ((hnamed.resolved h.resolved).deferring false)

end ApiProto.Compile
