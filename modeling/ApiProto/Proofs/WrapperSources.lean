import ApiProto.Proofs.ActiveScopes
import ApiProto.Proofs.DrawnPackages
import ApiProto.Proofs.ResolvedReferences
import ApiProto.Proofs.SiblingNames

/-!
# Where shared list wrappers come from

A shared list wrapper is made for the first reference of its name that a map of lists has for its
items. Its message has one field, of the type that this reference stands for, and resolving puts what
the reference refers to in the place of that type.

* `Compilation.Represents` — a type stands for what a reference refers to.
* `Compilation.WrapperMade`, `Compilation.WrappersMade` — what is known of the wrappers of a state.
* `Draws.wrappersMade`, `DrawsAll.wrappersMade` — runs with sources make wrappers so.
* `wrappersMade_of_phases` — so do compilations.
-/

namespace ApiProto.Proto

open Relation

variable {g g' : Graph} {targets : Targets} {t t' : TypeRef}

/-- What stands for a type of a graph is the same in a graph that keeps its references. -/
theorem Graph.KeepsReferences.yields_iff (h : g.KeepsReferences g')
    (htargets : ∀ ref t, targets.resolve ref = .ok t → g.Has t) (ht : g.Has t) :
    g'.Yields targets t t' ↔ g.Yields targets t t' := by
  unfold Graph.Yields
  rw [h.isReference_iff ht]
  refine or_congr_right (exists_congr fun id => exists_congr fun ref => and_congr_right ?_)
  rintro rfl
  rw [h id ht ref, follow_ok_iff, follow_ok_iff, h.leadsTo_iff htargets]

theorem Graph.KeepsReferences.refl (g : Graph) : g.KeepsReferences g := fun _ _ _ => Iff.rfl

end ApiProto.Proto

namespace ApiProto.Compile

open Proto Document CompileM
open Compilation (ChangesGraph)

variable {env : Environment} {scope : Scope} {opened : List Nat} {c₀ c c₁ c' : Compilation}
  {ref base name : String} {item : TypeRef} {w : Nat}

/-! ## What wrappers list -/

/-- A type stands for what a reference refers to, whatever becomes of the graph while references
stay. -/
def Compilation.Represents (c₀ c : Compilation) (ref : String) (item : TypeRef) : Prop :=
  ∀ g, c₀.graph.KeepsReferences g → c.graph.KeepsReferences g →
    ∀ t, g.LeadsTo c₀.table ref t ↔ g.Yields c₀.table item t

namespace Compilation.Represents

theorem of_grows (h : c₀.Represents c ref item) (hgrows : c.Grows opened c') :
    c₀.Represents c' ref item :=
  fun g h₀ h' => h g h₀ (hgrows.nodes.keepsReferences.trans h' hgrows.size_le)

/-- What a reference is compiled to stands for what it refers to. -/
theorem of_compileReference (hknows : Compilation.Knows c₀ c) (hclosed : c₀.Closed) {d : Definition}
    (href : compileReference ref c = .ok (d, c')) : c₀.Represents c' ref d.unwrap :=
  fun _ h₀ h' _ => hknows.leadsTo_iff hclosed h₀ href fun next hn =>
    (h' _ (Graph.lt_size_of_node? hn) next).2 hn

/-- What has been put in the place of a type stands for the same. -/
theorem resolved (h : c₀.Represents c₀ ref item) (hclosed : c₀.Closed) (hhas : c₀.graph.Has item)
    {item' : TypeRef} (hitem : c₀.graph.MayYield c₀.table item item') :
    c₀.Represents c₁ ref item' := by
  intro g h₀ _ t
  have hsame := h g h₀ h₀
  rcases hitem with rfl | hyields
  · exact hsame t
  · have hend := (h₀.yields_iff (fun _ _ => hclosed.has_resolve) hhas).2 hyields
    have hleads := (hsame item').2 hend
    constructor
    · exact fun ht => .inl ⟨hend.not_isReference, ht.unique hleads⟩
    · rintro (⟨-, rfl⟩ | ⟨id, next, rfl, hn, -⟩)
      · exact hleads
      · exact absurd ⟨id, next, rfl, hn⟩ hend.not_isReference

end Compilation.Represents

/-! ## Wrappers -/

/-- A type of a name, other than that of a node, is declared inside a message. -/
def Compilation.NamedInside (c : Compilation) (w : Nat) (name : String) : Prop :=
  ∃ container id n, container ≠ c.package ∧ id ≠ w ∧ (container, id) ∈ c.registry.log ∧
    c.graph.node? id = some n ∧ n.ownName? = some name

theorem Compilation.NamedInside.of_keepsNames (h : c.NamedInside w name)
    (hpackage : c'.package = c.package) (hlog : c.registry.log ⊆ c'.registry.log)
    (hnames : c.graph.KeepsNames c'.graph) : c'.NamedInside w name := by
  obtain ⟨container, id, n, hne, hid, hentry, hn, hown⟩ := h
  obtain ⟨n', hn', hown'⟩ := hnames id n hn
  exact ⟨container, id, n', by rwa [hpackage], hid, hlog hentry, hn', hown'.trans hown⟩

theorem Compilation.NamedInside.of_grows (h : c.NamedInside w name) (hgrows : c.Grows opened c') :
    c'.NamedInside w name :=
  h.of_keepsNames hgrows.package hgrows.log.subset hgrows.nodes.keepsNames

/-- The shared list wrapper for a reference, and the type that it lists. It stands in the package,
unless its name stands in a message. -/
structure Compilation.WrapperMade (spec : Spec) (c₀ c : Compilation) (w : Nat) (ref name : String)
    (item : TypeRef) : Prop where
  listed : ref ∈ spec.listedReferences
  node : c.graph.node? w =
    some (.message (listWrapper name "items" (refBase ref) (.text "") item))
  represents : c₀.Represents c ref item
  placed : (c.package, w) ∈ c.registry.log ∨ c.NamedInside w name

theorem Compilation.WrapperMade.of_grows {spec : Spec} (h : c₀.WrapperMade spec c w ref name item)
    (hgrows : c.Grows opened c') (hw : w ∉ opened) : c₀.WrapperMade spec c' w ref name item where
  listed := h.listed
  node := hgrows.closed w _ h.node hw
  represents := h.represents.of_grows hgrows
  placed := h.placed.imp (fun hlog => hgrows.package ▸ hgrows.log.subset hlog) (·.of_grows hgrows)

/-- What a reference refers to is put in the place of the type that its wrapper lists. -/
theorem Compilation.WrapperMade.resolved {spec : Spec}
    (h : c₀.WrapperMade spec c₀ w ref name item) (hclosed : c₀.Closed) (hres : c₀.Resolved c₁)
    (hspliced : c₀.graph.Spliced c₀.table c₁.graph) :
    ∃ item', c₀.WrapperMade spec { c₁ with deferring := false } w ref name item' := by
  obtain ⟨n', hn', hslots⟩ := hspliced.nodes w _ h.node
  have hhas : c₀.graph.Has item := hclosed.mentions w _ h.node item (by
    simp [listWrapper, Node.mentions])
  cases hslots with
  | message hfields =>
    obtain ⟨f', rest, ⟨item', hitem, rfl⟩, hrest, rfl⟩ := List.forall₂_cons_left_iff.1 hfields
    obtain rfl := List.forall₂_nil_left_iff.1 hrest
    exact ⟨item', h.listed, hn', h.represents.resolved hclosed hhas hitem,
      h.placed.imp (fun hlog => show (c₁.package, w) ∈ c₁.registry.log by
          rwa [hres.package_eq, hres.registry])
        (·.of_keepsNames hres.package_eq (by rw [hres.registry]; exact List.Subset.refl _)
          hres.graph.keepsNames)⟩
  | other hmessage => exact absurd rfl (hmessage _)

/-- All shared list wrappers are made for references of the description, each name has one and each
is that of one name, and none is open. -/
structure Compilation.WrappersMade (spec : Spec) (c₀ : Compilation) (opened : List Nat)
    (c : Compilation) : Prop where
  bases : (c.wrappers.map Prod.fst).Nodup
  nodes : (c.wrappers.map Prod.snd).Nodup
  outside : ∀ entry ∈ c.wrappers, entry.2 ∉ opened
  made : ∀ entry ∈ c.wrappers, ∃ ref name item, entry.1 = refBase ref ∧
    c₀.WrapperMade spec c entry.2 ref name item

namespace Compilation.WrappersMade

variable {spec : Spec} (h : c₀.WrappersMade spec opened c)
include h

theorem mono {opened' : List Nat} (hsub : opened' ⊆ opened) : c₀.WrappersMade spec opened' c :=
  { h with outside := fun entry hentry hmem => h.outside entry hentry (hsub hmem) }

theorem of_grows (hgrows : c.Grows opened c') (hwrappers : c'.wrappers = c.wrappers) :
    c₀.WrappersMade spec opened c' where
  bases := hwrappers ▸ h.bases
  nodes := hwrappers ▸ h.nodes
  outside := hwrappers ▸ h.outside
  made entry hentry := by
    rw [hwrappers] at hentry
    obtain ⟨ref, name, item, hbase, hmade⟩ := h.made entry hentry
    exact ⟨ref, name, item, hbase, hmade.of_grows hgrows (h.outside entry hentry)⟩

theorem withNode (n : Node) : c₀.WrappersMade spec opened (c.withNode n) :=
  h.of_grows (.withNode c n) rfl

theorem declareHere (hscope : scope ⊆ opened) (t : TypeRef) :
    c₀.WrappersMade spec opened (c.declareHere scope t) := by
  refine h.of_grows (.declareHere hscope t) ?_
  cases scope <;> rfl

theorem declare {parent : Nat} (hparent : parent ∈ opened) (scope : Scope) (t : TypeRef) :
    c₀.WrappersMade spec opened (c.declare scope parent t) :=
  h.of_grows (.declare hparent t) rfl

theorem importing (hpackage : c.package ∈ opened) (name : String) :
    c₀.WrappersMade spec opened (c.importing name) :=
  h.of_grows (.importing hpackage name) (ChangesGraph.importing c name).wrappers

theorem reference {d : Definition} (href : compileReference ref c = .ok (d, c')) :
    c₀.WrappersMade spec opened c' := by
  rcases compileReference_ok href with ⟨-, rfl⟩ | ⟨-, -, -, rfl⟩
  · exact h
  · exact h.withNode _

/-- What is new is open for a while. -/
theorem enter (hclosed : c.Closed) : c₀.WrappersMade spec (c.graph.size :: opened) c where
  bases := h.bases
  nodes := h.nodes
  outside entry hentry hmem := by
    rcases List.mem_cons.1 hmem with heq | hmem
    · exact Nat.ne_of_lt (hclosed.wrappers entry hentry) heq
    · exact h.outside entry hentry hmem
  made := h.made

/-- A wrapper for a name without one is remembered. -/
theorem remember (hmade : c₀.WrapperMade spec c w ref name item) (hw : w ∉ opened)
    (hbase : refBase ref ∉ c.wrappers.map Prod.fst) (hnode : w ∉ c.wrappers.map Prod.snd) :
    c₀.WrappersMade spec opened (c.remember (refBase ref) w) := by
  have hgrows : c.Grows opened (c.remember (refBase ref) w) := .remember c _ w
  have hnew : ∀ {α : Type} {a : α} {l : List α}, l.Nodup → a ∉ l → (l ++ [a]).Nodup :=
    fun hl ha => List.nodup_append.2 ⟨hl, List.nodup_singleton _, fun b hb b' hb' heq =>
      ha (List.mem_singleton.1 hb' ▸ heq ▸ hb)⟩
  have hcases : ∀ {P : String × Nat → Prop}, (∀ entry ∈ c.wrappers, P entry) →
      P (refBase ref, w) → ∀ entry ∈ (c.remember (refBase ref) w).wrappers, P entry :=
    fun hold hlast => List.forall_mem_append.2 ⟨hold, List.forall_mem_singleton.2 hlast⟩
  refine ⟨?_, ?_, hcases h.outside hw, hcases (fun entry hentry => ?_)
    ⟨ref, name, item, rfl, hmade.of_grows hgrows hw⟩⟩
  · show ((c.wrappers ++ [(refBase ref, w)]).map Prod.fst).Nodup
    rw [List.map_append]
    exact hnew h.bases hbase
  · show ((c.wrappers ++ [(refBase ref, w)]).map Prod.snd).Nodup
    rw [List.map_append]
    exact hnew h.nodes hnode
  · obtain ⟨ref', name', item', hbase', hmade'⟩ := h.made entry hentry
    exact ⟨ref', name', item', hbase', hmade'.of_grows hgrows (h.outside entry hentry)⟩

end Compilation.WrappersMade

/-- The message that is made for a list of a reference is its wrapper. -/
theorem Compilation.WrapperMade.of_compileReference (hopen : Opening opened scope c)
    (hat : c.At scope) (hknows : Compilation.Knows c₀ c) (hclosed : c₀.Closed)
    (hlisted : ref ∈ env.spec.listedReferences) {d : Definition}
    (href : compileReference ref c = .ok (d, c₁)) :
    c₀.WrapperMade env.spec ((c₁.withNode (.message (madeWrapper env c₁ ref d.unwrap))).declare
      scope c₁.package (.node c₁.graph.size)) c₁.graph.size ref
        (listWrapperName env.spec c₁ (refBase ref)) d.unwrap := by
  have hruns : Runs env scope c [d.unwrap] c₁ := .reference href
  have hopen₁ := hopen.of_runs hruns
  have hnode : c₁.Grows opened (c₁.withNode (.message (madeWrapper env c₁ ref d.unwrap))) :=
    .withNode c₁ _
  have hdeclare : Compilation.Grows opened
      (c₁.withNode (.message (madeWrapper env c₁ ref d.unwrap)))
      ((c₁.withNode (.message (madeWrapper env c₁ ref d.unwrap))).declare scope c₁.package
        (.node c₁.graph.size)) := .declare (hopen.scope hopen₁.package) _
  have hgrows := hnode.trans hdeclare
  have hplain : Name.IsPlain (listWrapperName env.spec c₁ (refBase ref)) :=
    listWrapperName_plain (Name.pascal_plain _) env.spec c₁
  have hplaced := (hruns.at hat).declared_or_inside
    (n := .message (madeWrapper env c₁ ref d.unwrap)) rfl rfl hplain
    (listWrapperName_free env.spec c₁ (refBase ref)).2
  refine ⟨hlisted, hdeclare.closed _ _ (Graph.node?_add_self _) hopen₁.size_not_mem,
    (Compilation.Represents.of_compileReference hknows hclosed href).of_grows hgrows, ?_⟩
  rw [hgrows.package]
  refine hplaced.imp_right fun ⟨container, id, n, hne, hlog, hn, hown⟩ => ?_
  have hinside : c₁.NamedInside c₁.graph.size (listWrapperName env.spec c₁ (refBase ref)) :=
    ⟨container, id, n, hne, Nat.ne_of_lt (hopen₁.closed.log _ hlog), hlog, hn, hown⟩
  exact hinside.of_grows hgrows

/-! ## Runs and packages -/

/-- A run with sources makes wrappers for references of the description. -/
theorem Draws.wrappersMade {ts : List TypeRef} (h : Draws env scope c ts c')
    (hopen : Opening opened scope c) (hat : c.At scope) (hknows : Compilation.Knows c₀ c)
    (hclosed : c₀.Closed) (hc : c₀.WrappersMade env.spec opened c) :
    c₀.WrappersMade env.spec opened c' := by
  induction h generalizing opened with
  | nil | found | wrapped => exact hc
  | cons hfirst _ ih ih' =>
    exact ih' (hopen.of_runs hfirst.runs) (hfirst.runs.at hat)
      (hknows.of_runs hfirst.runs hopen.package) (ih hopen hat hknows hc)
  | builtin _ _ ih => exact ih hopen hat hknows hc
  | importing name hdraws ih =>
    have hopen₁ := hopen.of_runs hdraws.runs
    exact (ih hopen hat hknows hc).importing (hopen.scope hopen₁.package) name
  | reference href => exact hc.reference href
  | declared _ ih => exact (ih hopen hat hknows hc).declareHere hopen.scope _
  | enumeration => exact (hc.withNode _).declareHere hopen.scope _
  | map _ ih => exact (ih hopen hat hknows hc).withNode _
  | objectWrapper _ _ _ _ _ ih =>
    exact ((ih hopen hat hknows hc).withNode _).declareHere hopen.scope _
  | @sharedWrapper scope c c₁ ref d hlisted hnone href =>
    have hruns : Runs env scope c [d.unwrap] c₁ := .reference href
    have hopen₁ := hopen.of_runs hruns
    have hreference := hc.reference href
    have hsame : c₁.wrappers = c.wrappers := by
      rcases compileReference_ok href with ⟨-, rfl⟩ | ⟨-, -, -, rfl⟩ <;> rfl
    have hdeclared := (hreference.withNode (.message (madeWrapper env c₁ ref d.unwrap))).declare
      (hopen.scope hopen₁.package) scope (.node c₁.graph.size)
    refine hdeclared.remember (.of_compileReference hopen hat hknows hclosed hlisted href)
      hopen₁.size_not_mem ?_ ?_
    · show refBase ref ∉ c₁.wrappers.map Prod.fst
      rw [hsame]
      intro hmem
      obtain ⟨entry, hentry, hbase⟩ := List.mem_map.1 hmem
      simpa [hbase] using List.lookup_eq_none_iff.1 hnone entry hentry
    · show c₁.graph.size ∉ c₁.wrappers.map Prod.snd
      intro hmem
      obtain ⟨entry, hentry, hnode⟩ := List.mem_map.1 hmem
      exact absurd (hnode ▸ hopen₁.closed.wrappers entry hentry) (Nat.lt_irrefl _)
  | @message scope c c₁ c₂ ts rawName comment fields hfree hinner _ hadd ih =>
    have hentered := hat.enter (Name.pascal_plain rawName) comment hfree
    have hinside := hopen.enter (Name.pascal rawName) comment
    have hc₁ := ih hinside hentered (hknows.withNode _) ((hc.enter hopen.closed).withNode _)
    have hpackage := (hinside.of_runs hinner.runs).package
    have hfields : c₁.Grows (c.graph.size :: opened) c₂ :=
      addFields_grows (hinside.scope hpackage) (List.mem_cons_self ..) hadd
    have hc₂ := hc₁.of_grows hfields (ChangesGraph.addFields hadd).wrappers
    exact (hc₂.mono (List.subset_cons_self ..)).declareHere hopen.scope _
  | arrayResponse _ _ hdraws ih =>
    have hopen₁ := hopen.of_runs hdraws.runs
    exact (((ih hopen hat hknows hc).withNode _).importing (hopen.scope hopen₁.package) _).declareHere
      hopen.scope _

/-- What is built in runs with sources has wrappers for references of the description. -/
theorem DrawsAll.wrappersMade (h : DrawsAll env env.package c c') (hunderway : Underway env c)
    (hrest : c.AtRest) (hclosed : c₀.Closed)
    (hknows : ∀ c₁, Builds env env.package c c₁ → Builds env env.package c₁ c' →
      Compilation.Knows c₀ c₁)
    (hc : c₀.WrappersMade env.spec env.opened c) : c₀.WrappersMade env.spec env.opened c' := by
  have hruns : ∀ {c₁ c₂ ts}, DrawsAll env env.package c c₁ → Draws env [env.package] c₁ ts c₂ →
      Compilation.Knows c₀ c₁ → c₀.WrappersMade env.spec env.opened c₁ →
      c₀.WrappersMade env.spec env.opened c₂ := by
    intro c₁ c₂ ts hbuilt hdraws hknown hc₁
    have hunderway₁ := hunderway.builds hbuilt.builds
    have hat := hbuilt.builds.atRest hunderway.package hrest
    rw [Compilation.AtRest, hunderway₁.package] at hat
    exact hdraws.wrappersMade hunderway₁.opening hat hknown hclosed hc₁
  have hpackage : ∀ {c₁}, Underway env c₁ → c₁.package ∈ env.opened := fun h =>
    h.package ▸ List.mem_cons_self ..
  induction h with
  | refl => exact hc
  | importFile file hbuilt ih =>
    refine (ih fun c₁ hb hb' => hknows c₁ hb (.importFile file hb')).of_grows
      (.importFile (hpackage (hunderway.builds hbuilt.builds)) file) rfl
  | @define c₁ c₂ ref d hbuilt hdraws ih =>
    have hc₁ := ih fun c₃ hb hb' => hknows c₃ hb (.define ref d hb' hdraws.runs)
    have hc₂ := hruns hbuilt hdraws (hknows c₁ hbuilt.builds (.define ref d .refl hdraws.runs)) hc₁
    refine hc₂.of_grows (defining_grows ref d) ?_
    unfold Compilation.defining
    split <;> rfl
  | @extension c₁ e hbuilt ih =>
    have hpackage₁ := hpackage (hunderway.builds hbuilt.builds)
    have himported : c₁.Grows env.opened _ :=
      importingAll_grows hpackage₁ (e.fields.map (·.type) ++ [e.base])
    exact (ih fun c₃ hb hb' => hknows c₃ hb (.extension e hb')).of_grows
      (himported.trans (extending_grows (himported.package ▸ hpackage₁) e))
      ((ChangesGraph.importingAll c₁ _).trans (.extending _ e)).wrappers
  | @procedure c₁ c₂ rpc hbuilt hdraws ih =>
    have hunderway₂ := (hunderway.builds hbuilt.builds).runs hdraws.runs
    have hc₁ := ih fun c₃ hb hb' => hknows c₃ hb (.procedure rpc hb' hdraws.runs)
    have hc₂ := hruns hbuilt hdraws (hknows c₁ hbuilt.builds (.procedure rpc .refl hdraws.runs)) hc₁
    refine hc₂.of_grows (serving_grows (hpackage hunderway₂) ?_ rpc)
      (ChangesGraph.serving c₂ rpc).wrappers
    simp [hunderway₂.service, Environment.opened]

theorem Compilation.WrappersMade.resolved {spec : Spec} (h : c₀.WrappersMade spec opened c₀)
    (hclosed : c₀.Closed) (hres : c₀.Resolved c₁)
    (hspliced : c₀.graph.Spliced c₀.table c₁.graph) :
    c₀.WrappersMade spec opened { c₁ with deferring := false } where
  bases := hres.wrappers ▸ h.bases
  nodes := hres.wrappers ▸ h.nodes
  outside := hres.wrappers ▸ h.outside
  made entry hentry := by
    obtain ⟨ref, name, item, hbase, hmade⟩ := h.made entry (hres.wrappers ▸ hentry)
    obtain ⟨item', hmade'⟩ := hmade.resolved hclosed hres hspliced
    exact ⟨ref, name, item', hbase, hmade'⟩

/-- The shared list wrappers of a compilation are made for references of the description. -/
theorem wrappersMade_of_phases (h : compilePhases env (startOf env) = .ok ((), c')) :
    ∃ c₀, compileNamed env (startOf env) = .ok ((), c₀) ∧
      c₀.WrappersMade env.spec env.opened c' := by
  obtain ⟨c₀, c₁, hnamed, hbuilt, hresolve, hrest⟩ := compilePhases_draws h
  have hunderway := (Underway.start env).builds hbuilt.builds
  have hstart : c₀.WrappersMade env.spec env.opened (startOf env) := by
    obtain ⟨packageName, serviceName, options, heq⟩ := startOf_is_start env
    rw [heq]
    exact ⟨List.nodup_nil, List.nodup_nil, nofun, nofun⟩
  have hc₀ := hbuilt.wrappersMade (.start env) startOf_atRest hunderway.closed
    (fun _ hbefore hafter => .of_builds hbefore hafter) hstart
  have hresolved := resolveAll_ok hresolve
  have hyields := resolveAll_yields hresolve (compileNamed_nodup hnamed)
  have hunderway₁ := hunderway.resolved hresolved
  have hatRest : c₀.AtRest := hbuilt.builds.atRest rfl startOf_atRest
  refine ⟨c₀, hnamed, hrest.wrappersMade hunderway₁
    ((hatRest.resolved hresolved).deferring false) hunderway.closed (fun c₂ hbefore hafter => ?_)
    (hc₀.resolved hunderway.closed hresolved hyields.1)⟩
  -- nothing more is defined, so all that is known on the way is what has been resolved
  have hgrows := hunderway₁.builds_grows hbefore
  have hprefix := ((hunderway₁.builds hbefore).builds_grows hafter).definitions
  rw [definitions_eq_of_phases h hnamed hresolve] at hprefix
  have hsame : c₁.definitions = c₂.definitions :=
    hgrows.definitions.eq_of_length_le hprefix.length_le
  exact .resolved hgrows.deferring (hsame ▸ hyields.2)

end ApiProto.Compile
