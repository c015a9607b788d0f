import ApiProto.Document.Build
import ApiProto.Proofs.AtRest
import ApiProto.Proofs.Awaiting
import ApiProto.Proofs.Reachable
import ApiProto.Proofs.WrapperNames

/-!
# Names of siblings

A type is declared unless its name has been offered under the same scope, so two declarations in one
container have different names. A shared list wrapper is declared in the package under the scope in
which it is made, so a later declaration in the package may take its name again.

* `Compilation.Keyed` — the names that have been offered, and the names of siblings.
* `Runs.keyed`, `Builds.keyed` — runs and building keep siblings apart.
* `siblings_differ` — only shared list wrappers and services share their names with siblings.
-/

namespace ApiProto.Compile

open Proto Document CompileM
open Compilation (ChangesGraph)

/-! ## Offered names -/

/-- A shared list wrapper. -/
def Compilation.IsWrapper (c : Compilation) (id : Nat) : Prop := ∃ base, (base, id) ∈ c.wrappers

/-- Two declarations in one container have different names, unless the first one is a shared list
wrapper in the package. -/
def Compilation.Distinct (c : Compilation) : Prop :=
  c.registry.log.Pairwise fun e e' => e.1 = e'.1 →
    c.graph.typeName (.node e.2) = c.graph.typeName (.node e'.2) →
    e.1 = c.package ∧ c.IsWrapper e.2

/-- The declarations in the containers of a scope have been offered there, but for the shared list
wrappers in the package, and siblings have different names. -/
structure Compilation.Keyed (scope : Scope) (c : Compilation) : Prop where
  nodup : scope.Nodup
  package : c.package ∈ scope
  named : ∀ x ∈ scope, c.graph.Named x
  declared : ∀ entry ∈ c.registry.log, c.graph.isDeclared (.node entry.2) = true
  containers : ∀ entry ∈ c.registry.log, entry.1 < c.graph.size
  offered : ∀ x outer, x :: outer <:+ scope → ∀ id, (x, id) ∈ c.registry.log →
    x = c.package ∧ c.IsWrapper id ∨
      Registry.key c.graph (x :: outer) (c.graph.typeName (.node id)) ∈ c.registry.keys
  distinct : c.Distinct

variable {env : Environment} {scope opened : Scope} {c c' : Compilation}

/-- A later state, in which what is there has kept its name. -/
structure Compilation.KeepsNames (c c' : Compilation) : Prop where
  names : c.graph.KeepsNames c'.graph
  declared : ∀ id, c.graph.isDeclared (.node id) = true → c'.graph.isDeclared (.node id) = true
  size : c.graph.size ≤ c'.graph.size
  package : c'.package = c.package
  keys : c.registry.keys ⊆ c'.registry.keys
  wrappers : c.wrappers ⊆ c'.wrappers

theorem Compilation.Grows.keepsNames (h : c.Grows opened c') : c.KeepsNames c' where
  names := h.nodes.keepsNames
  declared _ hid := h.nodes.isDeclared hid
  size := h.size_le
  package := h.package
  keys := h.keys.subset
  wrappers := h.wrappers.subset

theorem Compilation.Resolved.keepsNames (h : c.Resolved c') : c.KeepsNames c' where
  names := h.graph.keepsNames
  declared _ hid := h.graph.isDeclared_iff.2 hid
  size := Nat.le_of_eq h.graph.size.symm
  package := h.package_eq
  keys := h.registry ▸ List.Subset.refl _
  wrappers := h.wrappers ▸ List.Subset.refl _

theorem Compilation.IsWrapper.mono {id : Nat} (hnames : c.KeepsNames c') (h : c.IsWrapper id) :
    c'.IsWrapper id :=
  h.imp fun _ hmem => hnames.wrappers hmem

/-- In a scope without repetitions, nothing stands around a container but what stands around it. -/
theorem eq_of_cons_suffix {x : Nat} {outer outer' : Scope} (hscope : (x :: outer).Nodup)
    (h : x :: outer' <:+ x :: outer) : outer' = outer := by
  rcases List.suffix_cons_iff.1 h with heq | hinner
  · exact (List.cons.inj heq).2
  · exact absurd (hinner.subset (List.mem_cons_self ..)) (List.nodup_cons.1 hscope).1

namespace Compilation.Keyed

variable (h : c.Keyed scope)
include h

theorem typeName_eq (hnames : c.KeepsNames c') {entry : Nat × Nat}
    (hentry : entry ∈ c.registry.log) :
    c'.graph.typeName (.node entry.2) = c.graph.typeName (.node entry.2) :=
  hnames.names.typeName_eq_of_isDeclared (h.declared entry hentry)

theorem key_eq (hnames : c.KeepsNames c') {outer : Scope} (houter : outer ⊆ scope) (name : String) :
    Registry.key c'.graph outer name = Registry.key c.graph outer name := by
  refine Registry.key_congr fun x hx => ?_
  obtain ⟨n, own, hn, hown⟩ := h.named x (houter hx)
  exact hnames.names.typeName_eq hn hown

theorem named_mono (hnames : c.KeepsNames c') {x : Nat} (hx : x ∈ scope) : c'.graph.Named x := by
  obtain ⟨n, own, hn, hown⟩ := h.named x hx
  obtain ⟨n', hn', hsame⟩ := hnames.names x n hn
  exact ⟨n', own, hn', hsame.trans hown⟩

/-- What has been offered is still offered later. -/
theorem offered_mono (hnames : c.KeepsNames c') {x : Nat} {outer : Scope}
    (hx : x :: outer <:+ scope) {id : Nat} (hid : (x, id) ∈ c.registry.log) :
    x = c'.package ∧ c'.IsWrapper id ∨
      Registry.key c'.graph (x :: outer) (c'.graph.typeName (.node id)) ∈ c'.registry.keys := by
  rw [h.key_eq hnames hx.subset, h.typeName_eq hnames hid, hnames.package]
  exact (h.offered x outer hx id hid).imp (fun ⟨heq, hw⟩ => ⟨heq, hw.mono hnames⟩)
    fun hkey => hnames.keys hkey

/-- Siblings have different names later, too. -/
theorem distinct_mono (hnames : c.KeepsNames c') :
    c.registry.log.Pairwise fun e e' => e.1 = e'.1 →
      c'.graph.typeName (.node e.2) = c'.graph.typeName (.node e'.2) →
      e.1 = c'.package ∧ c'.IsWrapper e.2 := by
  refine h.distinct.imp_of_mem fun {e e'} he he' hpair heq hname => ?_
  rw [h.typeName_eq hnames he, h.typeName_eq hnames he'] at hname
  rw [hnames.package]
  exact (hpair heq hname).imp_right (·.mono hnames)

/-- Names stay apart while nothing is declared. -/
theorem mono (hnames : c.KeepsNames c') (hlog : c'.registry.log = c.registry.log) :
    c'.Keyed scope where
  nodup := h.nodup
  package := hnames.package ▸ h.package
  named _ hx := h.named_mono hnames hx
  declared entry hentry := hnames.declared _ (h.declared entry (hlog ▸ hentry))
  containers entry hentry := Nat.lt_of_lt_of_le (h.containers entry (hlog ▸ hentry)) hnames.size
  offered x outer hx id hid := h.offered_mono hnames hx (hlog ▸ hid)
  distinct := by
    unfold Distinct
    rw [hlog]
    exact h.distinct_mono hnames

theorem of_grows (hgrows : c.Grows opened c') (hregistry : c'.registry = c.registry) :
    c'.Keyed scope :=
  h.mono hgrows.keepsNames (congrArg Registry.log hregistry)

/-- A type is declared whose name has not been offered, if that keeps it from having the name of a
sibling, and if it has been offered where it is declared. -/
theorem declareIn {parent : Nat} (hparent : parent ∈ scope) (t : TypeRef)
    (hfresh : Registry.key c.graph scope (c.graph.typeName t) ∉ c.registry.keys →
      ∀ entry ∈ c.registry.log, entry.1 = parent →
        c.graph.typeName (.node entry.2) = c.graph.typeName t →
        entry.1 = c.package ∧ c.IsWrapper entry.2)
    (hplace : ∀ id outer, t = .node id → parent :: outer <:+ scope →
      parent = c.package ∧ c.IsWrapper id ∨ parent :: outer = scope) :
    (c.declare scope parent t).Keyed scope := by
  have hgrows : c.Grows scope (c.declare scope parent t) := .declare hparent t
  have hnames := hgrows.keepsNames
  rcases Registry.register_cases c.graph c.registry t parent scope with
    ⟨heq, -⟩ | ⟨id, rfl, hdeclared, -, hkey, ⟨-, heq⟩ | ⟨-, heq⟩⟩
  · refine h.mono hnames ?_
    unfold Compilation.declare
    rw [heq]
  · refine h.mono hnames ?_
    unfold Compilation.declare
    rw [heq]
  · have hlog : (c.declare scope parent (.node id)).registry.log =
        c.registry.log ++ [(parent, id)] := by
      unfold Compilation.declare
      rw [heq]
    have hkeys : (c.declare scope parent (.node id)).registry.keys =
        c.registry.keys ++ [Registry.key c.graph scope (c.graph.typeName (.node id))] := by
      unfold Compilation.declare
      rw [heq]
    have hname : (c.declare scope parent (.node id)).graph.typeName (.node id) =
        c.graph.typeName (.node id) := hnames.names.typeName_eq_of_isDeclared hdeclared
    have hmem : ∀ {entry : Nat × Nat},
        entry ∈ (c.declare scope parent (.node id)).registry.log →
        entry ∈ c.registry.log ∨ entry = (parent, id) := fun hentry =>
      (List.mem_append.1 (hlog ▸ hentry)).imp_right List.mem_singleton.1
    refine ⟨h.nodup, hnames.package ▸ h.package, fun x hx => h.named_mono hnames hx,
      fun entry hentry => ?_, fun entry hentry => ?_, fun x outer hx k hk => ?_, ?_⟩
    · rcases hmem hentry with hold | rfl
      · exact hnames.declared _ (h.declared entry hold)
      · exact hnames.declared _ hdeclared
    · rcases hmem hentry with hold | rfl
      · exact Nat.lt_of_lt_of_le (h.containers entry hold) hnames.size
      · obtain ⟨n, _, hn, -⟩ := h.named parent hparent
        exact Nat.lt_of_lt_of_le (Graph.lt_size_of_node? hn) hnames.size
    · rcases hmem hk with hold | heq
      · exact h.offered_mono hnames hx hold
      · obtain ⟨rfl, rfl⟩ := Prod.mk.inj heq
        rw [hnames.package]
        refine (hplace k outer rfl hx).imp (fun ⟨hp, hw⟩ => ⟨hp, hw.mono hnames⟩) fun hall => ?_
        rw [hname, hkeys, hall, h.key_eq hnames (List.Subset.refl _)]
        exact List.mem_append_right _ (List.mem_singleton.2 rfl)
    · unfold Distinct
      rw [hlog, List.pairwise_append]
      refine ⟨h.distinct_mono hnames, List.pairwise_singleton .., fun e he e' he' => ?_⟩
      obtain rfl := List.mem_singleton.1 he'
      intro hparent' hsame
      rw [h.typeName_eq hnames he, hname] at hsame
      rw [hnames.package]
      exact (hfresh hkey e he hparent' hsame).imp_right (·.mono hnames)

/-- What is declared in the innermost container is offered there. -/
theorem declareHere (t : TypeRef) : (c.declareHere scope t).Keyed scope := by
  cases scope with
  | nil => exact h
  | cons parent outer =>
    refine h.declareIn (List.mem_cons_self ..) t (fun hkey entry hentry hparent hname => ?_)
      fun id outer' _ hsuffix => .inr ?_
    · obtain ⟨x, id⟩ := entry
      obtain rfl : x = parent := hparent
      refine (h.offered x outer (List.suffix_refl _) id hentry).resolve_right fun hmem => hkey ?_
      exact hname ▸ hmem
    · rw [eq_of_cons_suffix h.nodup hsuffix]

/-- A shared list wrapper whose name is free is declared in the package. -/
theorem declareWrapper {wrapper : Nat} (hw : c.IsWrapper wrapper)
    (hfree : ¬ c.Visible [c.package] (c.graph.typeName (.node wrapper))) :
    (c.declare scope c.package (.node wrapper)).Keyed scope := by
  refine h.declareIn h.package _ (fun _ entry hentry hparent hname => absurd ?_ hfree)
    fun id outer heq _ => .inl ⟨rfl, TypeRef.node.inj heq ▸ hw⟩
  exact ⟨c.package, List.mem_singleton.2 rfl, entry.2, hparent ▸ hentry, hname⟩

/-- In a message that is new nothing has been declared yet. -/
theorem enter {m : Message} :
    (c.withNode (.message m)).Keyed (c.graph.size :: scope) := by
  have hgrows : c.Grows [] (c.withNode (.message m)) := .withNode c _
  have hnode := h.of_grows hgrows rfl
  have hnew : c.graph.size ∉ scope := fun hmem => by
    obtain ⟨n, _, hn, -⟩ := h.named _ hmem
    exact Nat.lt_irrefl _ (Graph.lt_size_of_node? hn)
  refine ⟨List.nodup_cons.2 ⟨hnew, h.nodup⟩, List.mem_cons_of_mem _ hnode.package,
    fun x hx => ?_, hnode.declared, hnode.containers, fun x outer hx id hid => ?_, hnode.distinct⟩
  · rcases List.mem_cons.1 hx with rfl | hx
    · exact ⟨_, _, Graph.node?_add_self _, rfl⟩
    · exact hnode.named x hx
  · rcases List.suffix_cons_iff.1 hx with heq | hx
    · obtain rfl := (List.cons.inj heq).1
      exact absurd (h.containers _ hid) (Nat.lt_irrefl _)
    · exact hnode.offered x outer hx id hid

theorem suffix {outer : Scope} (houter : outer <:+ scope) (hpackage : c.package ∈ outer) :
    c.Keyed outer where
  nodup := h.nodup.sublist houter.sublist
  package := hpackage
  named x hx := h.named x (houter.subset hx)
  declared := h.declared
  containers := h.containers
  offered x inner hx := h.offered x inner (hx.trans houter)
  distinct := h.distinct

end Compilation.Keyed

/-- A run keeps siblings apart. -/
theorem Runs.keyed {ts : List TypeRef} (h : Runs env scope c ts c') (hc : c.Keyed scope) :
    c'.Keyed scope := by
  induction h with
  | nil | found | wrapped => exact hc
  | cons _ _ ih ih' => exact ih' (ih hc)
  | builtin _ _ ih => exact ih hc
  | importing name _ ih =>
    have hc₁ := ih hc
    exact hc₁.of_grows (.importing hc₁.package name) (ChangesGraph.importing _ name).registry
  | reference href =>
    rcases compileReference_ok href with ⟨-, rfl⟩ | ⟨-, -, -, rfl⟩
    · exact hc
    · exact hc.of_grows (@Compilation.Grows.withNode [] _ _) rfl
  | declared _ ih => exact (ih hc).declareHere _
  | enumeration => exact (hc.of_grows (@Compilation.Grows.withNode [] _ _) rfl).declareHere _
  | map _ ih => exact (ih hc).of_grows (@Compilation.Grows.withNode [] _ _) rfl
  | objectWrapper _ _ _ _ _ ih =>
    exact ((ih hc).of_grows (@Compilation.Grows.withNode [] _ _) rfl).declareHere _
  | @sharedWrapper scope c c₁ ref d rawName _ hitem =>
    have hc₁ : c₁.Keyed scope := by
      rcases compileReference_ok hitem with ⟨-, rfl⟩ | ⟨-, -, -, rfl⟩
      · exact hc
      · exact hc.of_grows (@Compilation.Grows.withNode [] _ _) rfl
    generalize hm : listWrapper (listWrapperName env.spec c₁ (Name.pascal rawName)) "items"
      (Name.pascal rawName) (.text "") d.unwrap = m
    have hname : m.name = listWrapperName env.spec c₁ (Name.pascal rawName) := hm ▸ rfl
    have hnode := hc₁.of_grows (@Compilation.Grows.withNode [] c₁ (.message m)) rfl
    have hremembered := hnode.of_grows (@Compilation.Grows.remember [] (c₁.withNode (.message m))
      (Name.pascal rawName) c₁.graph.size) rfl
    refine hremembered.declareWrapper
      ⟨Name.pascal rawName, List.mem_append_right _ (List.mem_singleton.2 rfl)⟩ ?_
    rintro ⟨container, hcontainer, id, hlog, hsame⟩
    refine not_visible_of_lookup (listWrapperName_free env.spec c₁ (Name.pascal rawName)).2
      ⟨container, hcontainer, id, hlog, ?_⟩
    have hown : (c₁.withNode (.message m)).graph.typeName (.node c₁.graph.size) = m.name :=
      Graph.typeName_of_ownName? (Graph.node?_add_self _) rfl
    have hnames := (@Compilation.Grows.withNode [] c₁ (.message m)).keepsNames
    rw [← hname, ← hown, ← hc₁.typeName_eq hnames hlog]
    exact hsame
  | @message scope c c₁ c₂ ts rawName comment fields _ hrun _ hadd ih =>
    have hc₁ := ih hc.enter
    have hc₂ := hc₁.of_grows (addFields_grows hc₁.package (List.mem_cons_self ..) hadd)
      (ChangesGraph.addFields hadd).registry
    refine (hc₂.suffix (List.suffix_cons ..) ?_).declareHere _
    have hgrows := hrun.grows (List.mem_cons_of_mem _ hc.package)
    have hfields := addFields_grows hc₁.package (List.mem_cons_self ..) hadd
    rw [hfields.package, hgrows.package]
    exact hc.package
  | @arrayResponse scope c c₁ item name _ _ ih =>
    have hnode := (ih hc).of_grows (@Compilation.Grows.withNode [] c₁
      (.message (arrayMessage name item))) rfl
    refine Compilation.Keyed.declareHere ?_ _
    exact hnode.of_grows (.importing hnode.package _) (ChangesGraph.importing _ _).registry

/-! ## Compilations -/

/-- Building keeps siblings apart. -/
theorem Builds.keyed {package : Nat} (h : Builds env package c c') (hc : c.Keyed [package]) :
    c'.Keyed [package] := by
  induction h with
  | refl => exact hc
  | importFile file _ ih => exact ih.of_grows (.importFile ih.package file) rfl
  | define ref d _ hrun ih =>
    exact (hrun.keyed ih).of_grows (@defining_grows [] _ ref d) (defining_registry ..)
  | extension e _ ih =>
    have himported := ih.of_grows
      (importingAll_grows ih.package (e.fields.map (·.type) ++ [e.base]))
      (ChangesGraph.importingAll _ _).registry
    exact himported.of_grows (extending_grows himported.package e) rfl
  | procedure rpc hbuilds hrun ih =>
    have hrun' := hrun.keyed ih
    exact hrun'.of_grows (serving_grows (List.mem_cons_of_mem _ hrun'.package)
      (List.mem_cons_self ..) rpc) (ChangesGraph.serving _ rpc).registry

theorem start_keyed (packageName serviceName : String) (options : List (String × String)) :
    (start packageName serviceName options).Keyed [0] where
  nodup := List.nodup_singleton 0
  package := List.mem_singleton.2 rfl
  named x hx := by
    obtain rfl := List.mem_singleton.1 hx
    exact ⟨_, _, rfl, rfl⟩
  declared _ hentry := nomatch hentry
  containers _ hentry := nomatch hentry
  offered _ _ _ _ hentry := nomatch hentry
  distinct := List.Pairwise.nil

theorem Compiled.keyed {c₀ c₁ c₂ : Compilation} (h : Compiled env c₀ c₁ c₂) :
    c₂.Keyed [c₂.package] := by
  obtain ⟨packageName, serviceName, options, heq⟩ := startOf_is_start env
  have hstart : (startOf env).Keyed [(startOf env).package] := by
    rw [heq]
    exact start_keyed packageName serviceName options
  have hresolved := (h.start_builds.keyed hstart).mono h.resolved.keepsNames
    (congrArg Registry.log h.resolved.registry)
  rw [← h.package_eq, ← h.resolved_package_eq] at hresolved
  have hdeferred : Compilation.Keyed [c₁.package] { c₁ with deferring := false } :=
    { hresolved with }
  rw [(h.builds.grows rfl).package]
  exact h.builds.keyed hdeferred

/-- Two declarations of one name in one container: one of them is a shared list wrapper in the
package. -/
theorem Compilation.Distinct.of_mem (h : c.Distinct) {container a b : Nat}
    (ha : (container, a) ∈ c.registry.log) (hb : (container, b) ∈ c.registry.log) (hne : a ≠ b)
    (hname : c.graph.typeName (.node a) = c.graph.typeName (.node b)) :
    container = c.package ∧ (c.IsWrapper a ∨ c.IsWrapper b) := by
  obtain ⟨i, hi, hgeti⟩ := List.mem_iff_getElem.1 ha
  obtain ⟨j, hj, hgetj⟩ := List.mem_iff_getElem.1 hb
  have hpairs := List.pairwise_iff_getElem.1 h
  rcases Nat.lt_trichotomy i j with hlt | heq | hgt
  · have hpair := hpairs i j hi hj hlt
    rw [hgeti, hgetj] at hpair
    exact (hpair rfl hname).imp_right .inl
  · subst heq
    exact absurd (congrArg Prod.snd (hgeti.symm.trans hgetj)) hne
  · have hpair := hpairs j i hj hi hgt
    rw [hgeti, hgetj] at hpair
    exact (hpair rfl hname.symm).imp_right .inr

/-! ## Namesakes -/

/-- Two different messages, enums or services of one name in one container. -/
structure Compilation.Namesakes (c : Compilation) (container a b : Nat) : Prop where
  left : .node a ∈ c.graph.children container
  right : .node b ∈ c.graph.children container
  kinds : ∀ id ∈ [a, b], (c.graph.node? id).any Node.isDeclaration = true
  ne : a ≠ b
  name : c.graph.typeName (.node a) = c.graph.typeName (.node b)

instance (c : Compilation) (container a b : Nat) : Decidable (c.Namesakes container a b) :=
  decidable_of_iff (.node a ∈ c.graph.children container ∧ .node b ∈ c.graph.children container ∧
      (∀ id ∈ [a, b], (c.graph.node? id).any Node.isDeclaration = true) ∧ a ≠ b ∧
      c.graph.typeName (.node a) = c.graph.typeName (.node b))
    ⟨fun ⟨ha, hb, hkinds, hne, hname⟩ => ⟨ha, hb, hkinds, hne, hname⟩,
      fun h => ⟨h.left, h.right, h.kinds, h.ne, h.name⟩⟩

/-- A child that is neither a message nor an enum is in the package, and if it is no extension, it
is the service. -/
theorem Compilation.Registered.service_of_not_isDeclared (hr : c.Registered) {container id : Nat}
    (hmem : .node id ∈ c.graph.children container)
    (hkind : (c.graph.node? id).any Node.isDeclaration = true)
    (hnot : c.graph.isDeclared (.node id) = false) :
    container = c.package ∧ (c.graph.service? id).isSome = true := by
  refine ⟨(hr.inner container _ hmem).resolve_right (by simp [hnot]), ?_⟩
  obtain ⟨n, hn, hkind⟩ := (Option.any_eq_true ..).1 hkind
  rw [Graph.isDeclared_of_node? hn] at hnot
  cases n with
  | service s => simp [Graph.service?, hn]
  | message | enumeration => cases hnot
  | _ => cases hkind

/-- Messages, enums and services in one container have different names, unless the container is the
package and one of them is a shared list wrapper or a service. -/
theorem siblings_differ (h : compileAll env (startOf env) = .ok ((), c)) {container a b : Nat}
    (hsame : c.Namesakes container a b) :
    container = c.package ∧
      ∃ id ∈ [a, b], c.IsWrapper id ∨ (c.graph.service? id).isSome = true := by
  obtain ⟨c₀, c₁, hcompiled⟩ := compiled_of_compileAll h
  obtain ⟨home, hhomed, -⟩ := hcompiled.atRest
  have hregistered := hhomed.registered
  rcases hdeclareda : c.graph.isDeclared (.node a) with _ | _
  · exact (hregistered.service_of_not_isDeclared hsame.left (hsame.kinds a (by simp))
      hdeclareda).imp_right fun hs => ⟨a, by simp, .inr hs⟩
  rcases hdeclaredb : c.graph.isDeclared (.node b) with _ | _
  · exact (hregistered.service_of_not_isDeclared hsame.right (hsame.kinds b (by simp))
      hdeclaredb).imp_right fun hs => ⟨b, by simp, .inr hs⟩
  have hla := (hregistered.children container a hdeclareda).1 hsame.left
  have hlb := (hregistered.children container b hdeclaredb).1 hsame.right
  refine (hcompiled.keyed.distinct.of_mem hla hlb hsame.ne hsame.name).imp_right fun hw => ?_
  exact hw.elim (fun hw => ⟨a, by simp, .inl hw⟩) fun hw => ⟨b, by simp, .inl hw⟩

/-- The shared wrapper for lists of animals takes the name that an enum gets later. -/
def animalLists : Spec := Spec.ofDefinitions [
  ("Animal", .object [("name", .scalar "string")]),
  ("Home", .object [("animals", .map (.array (.reference "#/definitions/Animal")))]),
  ("animalListMessage", .enumeration ["a"])]

theorem siblings_differ_animalLists : ∃ c,
    compileAll ⟨⟨false, false, false, false, "pet"⟩, animalLists⟩
      (startOf ⟨⟨false, false, false, false, "pet"⟩, animalLists⟩) = .ok ((), c) ∧
    c.Namesakes 0 4 6 ∧ 0 = c.package ∧
      ∃ id ∈ [4, 6], c.IsWrapper id ∨ (c.graph.service? id).isSome = true := by
  obtain ⟨c, hrun, htest⟩ := compileAll_of_compilesTo
    (show compilesTo ⟨false, false, false, false, "pet"⟩ animalLists
      (fun c => decide (c.Namesakes 0 4 6)) = true by decide +kernel)
  exact ⟨c, hrun, of_decide_eq_true htest, siblings_differ hrun (of_decide_eq_true htest)⟩

/-- The package declares a message and an enum of one name. -/
theorem exists_namesakes_animalLists : ∃ c,
    compileAll ⟨⟨false, false, false, false, "pet"⟩, animalLists⟩
      (startOf ⟨⟨false, false, false, false, "pet"⟩, animalLists⟩) = .ok ((), c) ∧
    c.Namesakes c.package 4 6 ∧ c.graph.typeName (.node 4) = "AnimalList" := by
  obtain ⟨c, hrun, htest⟩ := compileAll_of_compilesTo
    (show compilesTo ⟨false, false, false, false, "pet"⟩ animalLists
      (fun c => decide (c.Namesakes c.package 4 6 ∧ c.graph.typeName (.node 4) = "AnimalList")) =
        true by decide +kernel)
  exact ⟨c, hrun, of_decide_eq_true htest⟩

end ApiProto.Compile
