import ApiProto.Proofs.ActiveScopes
import ApiProto.Proofs.DrawnPackages

/-!
# Where enums come from

Each enum of a package lists the values of a schema of the description. Its elements are named for
these values, all of them with the name of the enum in front, or only those that are numbers.

* `elementName`, `Enumeration.Lists` — how the elements of an enum are named.
* `Compilation.EnumsMade` — all enums have been made so, and what is known of those that do not have
  their name in front.
* `Draws.enumsMade`, `DrawsAll.enumsMade` — runs with sources make enums so.
* `enumsMade_of_phases` — so do compilations.
-/

namespace ApiProto.Compile

open Proto Document CompileM

variable {env : Environment} {scope opened : Scope} {c c₁ c' : Compilation}

namespace Compilation

@[simp] theorem size_importFile (c : Compilation) (file : String) :
    (c.importFile file).graph.size = c.graph.size :=
  Graph.size_addImport ..

@[simp] theorem size_importing (c : Compilation) (name : String) :
    (c.importing name).graph.size = c.graph.size := by
  unfold importing
  split
  · exact Graph.size_addImport ..
  · rfl

@[simp] theorem size_importingAll (c : Compilation) (names : List String) :
    (c.importingAll names).graph.size = c.graph.size := by
  induction names generalizing c with
  | nil => rfl
  | cons name rest ih => exact (ih _).trans (size_importing c name)

@[simp] theorem size_declare (c : Compilation) (scope : Scope) (parent : Nat) (t : TypeRef) :
    (c.declare scope parent t).graph.size = c.graph.size := by
  unfold declare
  rcases Registry.register_cases c.graph c.registry t parent scope with
    ⟨h, -⟩ | ⟨id, -, -, -, -, ⟨-, h⟩ | ⟨-, h⟩⟩ <;> rw [h]
  exact Graph.size_addChild ..

@[simp] theorem size_declareHere (c : Compilation) (scope : Scope) (t : TypeRef) :
    (c.declareHere scope t).graph.size = c.graph.size := by
  cases scope with
  | nil => rfl
  | cons parent outer => exact size_declare ..

@[simp] theorem size_defining (c : Compilation) (ref : String) (d : Definition) :
    (c.defining ref d).graph.size = c.graph.size := by
  unfold defining
  split <;> rfl

@[simp] theorem size_serving (c : Compilation) (rpc : Rpc TypeRef) :
    (c.serving rpc).graph.size = c.graph.size := by
  rcases serving_cases (c := c) rpc with h | ⟨s, c₁, c₂, rfl, rfl, -, -, h⟩ <;> rw [h]
  exact (Graph.size_put ..).trans (by simp)

theorem size_addFields {message : Nat} {fields : List (CompiledProperty × Int)}
    (h : addFields message fields c = .ok ((), c')) : c'.graph.size = c.graph.size := by
  refine forM_ok_induct (P := fun d => d.graph.size = c.graph.size)
    (fun field _ d d' hstep hd => ?_) h rfl
  obtain ⟨d₁, hadd, rfl⟩ := addPropertyField_ok hstep
  rw [size_importing]
  rcases addField_ok hadd with ⟨-, rfl⟩ | ⟨m, -, -, -, rfl⟩
  · exact hd
  · exact (Graph.size_put ..).trans hd

end Compilation

/-! ## Enums -/

/-- The name that an enum is made from: one of letters and digits, or the name of a message with the
key of a property. -/
inductive IsEnumName (spec : Spec) : String → Prop
  | own {name : String} : Name.IsPlain name → IsEnumName spec name
  | member {owner key : String} : Name.IsPlain owner → spec.HasKey key →
      IsEnumName spec (owner ++ "_" ++ key)

/-- The element for a listed value: if it is `named`, or a number, it starts with the name of the
enum. -/
def elementName (named : Bool) (name choice : String) : String :=
  Name.enumValueName
    (if named || Name.allDigits choice.toList then name ++ "_" ++ choice else choice)

/-- An enum with an element for each value in a list of the description. -/
structure Enumeration.Lists (spec : Spec) (named : Bool) (name : String) (choices : List String)
    (e : Enumeration) : Prop where
  isName : IsEnumName spec name
  listed : choices ∈ spec.choiceLists
  name_eq : e.name = Name.pascal name
  elements_eq : e.elements = choices.map (elementName named name)

/-- A name that no named schema or shared parameter gets by losing the end `Message`. -/
def IsUncut (spec : Spec) (name : String) : Prop :=
  ∀ reserved ∈ reservedNames spec, Name.pascal (withoutMessage reserved) = name →
    withoutMessage reserved = reserved

/-- An enum lists values of the description. If its elements do not start with its name, the options
do not ask for that, and it is declared in the package unless its name is cut. -/
def Compilation.EnumMade (env : Environment) (c : Compilation) (id : Nat) (e : Enumeration) : Prop :=
  ∃ named name choices, Enumeration.Lists env.spec named name choices e ∧ (named = false →
    env.options.prefixEnums = false ∧
      (IsUncut env.spec e.name → (c.package, id) ∈ c.registry.log))

/-- All enums list values of the description. -/
def Compilation.EnumsMade (env : Environment) (c : Compilation) : Prop :=
  ∀ id e, c.graph.node? id = some (.enumeration e) → c.EnumMade env id e

namespace Compilation.EnumsMade

variable (h : c.EnumsMade env)
include h

/-- Enums stay what they are. -/
theorem of_grows (hgrows : c.Grows opened c')
    (hnew : ∀ id e, c.graph.size ≤ id → c'.graph.node? id = some (.enumeration e) →
      c'.EnumMade env id e) : c'.EnumsMade env := by
  intro id e he
  rcases Nat.lt_or_ge id c.graph.size with hid | hid
  · obtain ⟨n, hn⟩ := Graph.node?_isSome hid
    obtain ⟨n', hn', hgrow⟩ := hgrows.nodes id n hn
    obtain rfl := Option.some.inj (he.symm.trans hn')
    cases hgrow
    obtain ⟨named, name, choices, hlists, hnamed⟩ := h id e hn
    refine ⟨named, name, choices, hlists, fun hfalse => ⟨(hnamed hfalse).1, fun huncut => ?_⟩⟩
    rw [hgrows.package]
    exact hgrows.log.subset ((hnamed hfalse).2 huncut)
  · exact hnew id e hid he

/-- Without a new node there is no new enum. -/
theorem of_size_eq (hgrows : c.Grows opened c') (hsize : c'.graph.size = c.graph.size) :
    c'.EnumsMade env :=
  h.of_grows hgrows fun _ _ hid he =>
    absurd (hsize ▸ Graph.lt_size_of_node? he) (Nat.not_lt.2 hid)

theorem withNode {n : Node} (hn : ∀ e, n ≠ .enumeration e) : (c.withNode n).EnumsMade env := by
  refine h.of_grows (@Compilation.Grows.withNode [] c n) fun id e hid he => ?_
  have hadd : (c.graph.add n).1.node? id = some (.enumeration e) := he
  rw [Graph.node?_add] at hadd
  split at hadd
  · exact absurd (Option.some.inj hadd) (hn e)
  · exact absurd (Graph.lt_size_of_node? hadd) (Nat.not_lt.2 hid)

theorem declareHere (scope : Scope) (t : TypeRef) : (c.declareHere scope t).EnumsMade env :=
  h.of_size_eq (.declareHere (List.Subset.refl _) t) (size_declareHere ..)

theorem importing (name : String) : (c.importing name).EnumsMade env :=
  h.of_size_eq (.importing (List.mem_singleton.2 rfl) name) (size_importing ..)

theorem compileReference {ref : String} {d : Definition}
    (href : compileReference ref c = .ok (d, c')) : c'.EnumsMade env := by
  rcases compileReference_ok href with ⟨-, rfl⟩ | ⟨-, -, -, rfl⟩
  · exact h
  · exact h.withNode (by simp)

/-- An enum is made in a scope. -/
theorem enumeration (hat : c.At scope) {name : String} {choices : List String}
    (hname : EnumName env scope c name) (hlisted : choices ∈ env.spec.choiceLists) :
    ((c.withNode (.enumeration (madeEnum env scope c name choices))).declareHere scope
      (.node c.graph.size)).EnumsMade env := by
  have hnode : c.Grows scope (c.withNode (.enumeration (madeEnum env scope c name choices))) :=
    .withNode c _
  have hdeclare := @Compilation.Grows.declareHere scope
    (c.withNode (.enumeration (madeEnum env scope c name choices))) scope (List.Subset.refl _)
    (.node c.graph.size)
  refine h.of_grows (hnode.trans hdeclare) fun id e hid he => ?_
  have hlt := Graph.lt_size_of_node? he
  rw [size_declareHere] at hlt
  have hsize : (c.withNode (.enumeration (madeEnum env scope c name choices))).graph.size =
      c.graph.size + 1 := Graph.size_add ..
  obtain rfl : id = c.graph.size := by omega
  obtain ⟨n', hn', hgrow⟩ := hdeclare.nodes c.graph.size _ (Graph.node?_add_self _)
  obtain rfl := Option.some.inj (he.symm.trans hn')
  cases hgrow
  refine ⟨decide (scope.head? ≠ some c.package) || env.options.prefixEnums, name, choices,
    ⟨?_, hlisted, rfl, rfl⟩, fun hfalse => ?_⟩
  · cases hname with
    | own => exact .own ((Name.pascal_plain _).withoutEnd _)
    | member hscope houter hkey => exact .member (hat.typeName_plain hscope houter) hkey
  · obtain ⟨hhead, hbare⟩ := Bool.or_eq_false_iff.1 hfalse
    refine ⟨hbare, fun huncut => ?_⟩
    have hscope := hat.eq_of_head? (by simpa using hhead)
    rw [(hnode.trans hdeclare).package]
    cases hname with
    | @own rawName hfree hplaced =>
      -- the name has not been cut, so it is the one that has been looked up
      have hsame : withoutMessage (Name.pascal rawName) = Name.pascal rawName :=
        (hplaced.name (by rw [hscope]; rfl)).elim id fun hreserved => huncut _ hreserved rfl
      have hmade : (Node.enumeration (madeEnum env scope c (withoutMessage (Name.pascal rawName))
          choices)).ownName? = some (Name.pascal rawName) := by
        show some (Name.pascal (withoutMessage (Name.pascal rawName))) = _
        rw [hsame, Name.pascal_pascal]
      subst hscope
      exact hat.declared_of_free rfl hmade (Name.pascal_plain rawName) c.package hfree
    | member heq houter =>
      rw [heq] at hscope
      exact absurd (List.cons.inj hscope).2 houter

end Compilation.EnumsMade

/-! ## Runs and packages -/

/-- A run with sources makes enums of listed values. -/
theorem Draws.enumsMade {ts : List TypeRef} (h : Draws env scope c ts c') (hat : c.At scope)
    (hc : c.EnumsMade env) : c'.EnumsMade env := by
  induction h with
  | nil | found | wrapped => exact hc
  | cons hfirst _ ih ih' => exact ih' (hfirst.runs.at hat) (ih hat hc)
  | builtin _ _ ih => exact ih hat hc
  | importing name _ ih => exact (ih hat hc).importing name
  | reference href => exact hc.compileReference href
  | declared _ ih => exact (ih hat hc).declareHere _ _
  | enumeration hname hlisted => exact hc.enumeration hat hname hlisted
  | map _ ih => exact (ih hat hc).withNode (by simp)
  | objectWrapper _ _ _ _ _ ih => exact ((ih hat hc).withNode (by simp)).declareHere _ _
  | @sharedWrapper scope c c₁ ref d _ _ href =>
    have hnode := (hc.compileReference href).withNode
      (n := .message (madeWrapper env c₁ ref d.unwrap)) (by simp)
    have hremembered := hnode.of_size_eq
      (@Compilation.Grows.remember [] _ (refBase ref) c₁.graph.size) rfl
    exact hremembered.of_size_eq (.declare (List.mem_singleton.2 rfl) _) (Compilation.size_declare ..)
  | @message scope c c₁ c₂ ts rawName comment fields hfree hinner _ hadd ih =>
    have hentered := hat.enter (Name.pascal_plain rawName) comment hfree
    have hc₁ := ih hentered (hc.withNode (by simp))
    have hfields : c₁.Grows [c₁.package, c.graph.size] c₂ :=
      addFields_grows (by simp) (by simp) hadd
    exact (hc₁.of_size_eq hfields (Compilation.size_addFields hadd)).declareHere _ _
  | arrayResponse _ _ _ ih => exact (((ih hat hc).withNode (by simp)).importing _).declareHere _ _

/-- What is built in runs with sources has enums of listed values. -/
theorem DrawsAll.enumsMade {package : Nat} (h : DrawsAll env package c c')
    (hpackage : c.package = package) (hrest : c.AtRest) (hc : c.EnumsMade env) :
    c'.EnumsMade env := by
  have hat : c.At [package] := by rwa [Compilation.AtRest, hpackage] at hrest
  induction h with
  | refl => exact hc
  | importFile file _ ih =>
    exact ih.of_size_eq (.importFile (List.mem_singleton.2 rfl) file) (Compilation.size_importFile ..)
  | @define c₁ c₂ ref d hbuilt hdraws ih =>
    exact (hdraws.enumsMade (hbuilt.builds.at hat) ih).of_size_eq (@defining_grows [] _ ref d)
      (Compilation.size_defining ..)
  | @extension c₁ e _ ih =>
    have himported := ih.of_size_eq (importingAll_grows (List.mem_singleton.2 rfl)
      (e.fields.map (·.type) ++ [e.base])) (Compilation.size_importingAll ..)
    exact (himported.withNode (n := .extension e) (by simp)).of_size_eq
      (.addChild (List.mem_singleton.2 rfl) _) (Graph.size_addChild ..)
  | @procedure c₁ c₂ rpc hbuilt hdraws ih =>
    have hserving : c₂.Grows [c₂.package, c₂.service] (c₂.serving rpc) :=
      serving_grows (by simp) (by simp) rpc
    exact (hdraws.enumsMade (hbuilt.builds.at hat) ih).of_size_eq hserving (Compilation.size_serving ..)

/-- Resolution keeps enums and declarations. -/
theorem Compilation.EnumsMade.resolved (h : c.EnumsMade env) (hresolved : c.Resolved c') :
    c'.EnumsMade env := by
  intro id e he
  obtain ⟨n, hn, hnode⟩ := hresolved.graph.of_node? he
  cases hnode with
  | same =>
    obtain ⟨named, name, choices, hlists, hnamed⟩ := h id e hn
    exact ⟨named, name, choices, hlists, fun hfalse => by
      rw [hresolved.package_eq, hresolved.registry]
      exact hnamed hfalse⟩

/-- The enums of a package list values of the description. -/
theorem enumsMade_of_phases (h : compilePhases env (startOf env) = .ok ((), c')) :
    c'.EnumsMade env := by
  obtain ⟨c₀, c₁, hnamed, hbuilt, hresolve, hrest⟩ := compilePhases_draws h
  have hstart : (startOf env).EnumsMade env := by
    obtain ⟨packageName, serviceName, options, heq⟩ := startOf_is_start env
    rw [heq]
    intro id e he
    rcases start_node? he with ⟨-, heq⟩ | ⟨-, heq⟩ <;> cases heq
  have hresolved := resolveAll_ok hresolve
  have hc₀ : c₀.AtRest := hbuilt.builds.atRest rfl startOf_atRest
  have hpackage : c₁.package = env.package :=
    hresolved.package_eq.trans (hbuilt.builds.grows rfl).package
  have hc₁ : c₁.EnumsMade env :=
    (hbuilt.enumsMade rfl startOf_atRest hstart).resolved hresolved
  exact hrest.enumsMade hpackage ((hc₀.resolved hresolved).deferring false) hc₁

end ApiProto.Compile
