import ApiProto.Proofs.Registration
import ApiProto.Proofs.ResolvedPackages

/-!
# Before and after references are resolved

While named schemas and shared parameters are compiled, references are put only where they are
resolved later, and in the shared list wrappers. Once all has been resolved, what is declared and
what is defined holds no references.

* `Graph.Regular`, `Compilation.Awaiting` — where references may stand before they are resolved.
* `Runs.awaiting`, `compileNamed_awaiting` — they stand nowhere else.
* `resolveAll_covers` — what resolving all achieves.
-/

namespace ApiProto.Proto

/-- Whether a node can stand among the declarations of a package or a message. -/
def Node.isDeclaration : Node → Bool
  | .message _ | .enumeration _ | .service _ => true
  | _ => false

/-- A type that can stand among the declarations of a package or a message. -/
def Graph.Declarable (g : Graph) (t : TypeRef) : Prop :=
  ∃ id n, t = .node id ∧ g.node? id = some n ∧ n.isDeclaration = true

/-- A node in which references can stand only where they are resolved. -/
structure Node.Regular (g : Graph) (n : Node) : Prop where
  declared : ∀ t ∈ n.declarations, g.Declarable t
  key : ∀ key value, n = .map key value → ∃ b, key = .builtin b
  service : ∀ s, n = .service s → s.rpcs = []

/-- A graph in which references can stand only where they are resolved. -/
def Graph.Regular (g : Graph) : Prop := ∀ id n, g.node? id = some n → n.Regular g

section Regular

variable {g g' : Graph} {t : TypeRef}

theorem Graph.Grows.isReference (h : g.Grows g') (ht : g.IsReference t) : g'.IsReference t := by
  obtain ⟨id, ref, rfl, hn⟩ := ht
  obtain ⟨n', hn', hgrow⟩ := h id _ hn
  cases hgrow
  exact ⟨id, ref, rfl, hn'⟩

theorem Graph.Declarable.of_grows (h : g.Grows g') (ht : g.Declarable t) : g'.Declarable t := by
  obtain ⟨id, n, rfl, hn, hdeclaration⟩ := ht
  obtain ⟨n', hn', hgrow⟩ := h id n hn
  refine ⟨id, n', rfl, hn', ?_⟩
  cases hgrow <;> exact hdeclaration

theorem Graph.declarable_of_isDeclared (h : g.isDeclared t = true) : g.Declarable t := by
  cases t with
  | builtin => cases h
  | node id =>
    obtain ⟨n, hn, hdeclared⟩ := Graph.isDeclared_iff.1 h
    refine ⟨id, n, rfl, hn, ?_⟩
    cases n <;> first | rfl | cases hdeclared

namespace Node.Regular

theorem message {m : Message} (hm : m.children = []) : (Node.message m).Regular g :=
  ⟨fun t ht => (nomatch (hm ▸ ht : t ∈ [])), nofun, nofun⟩

theorem enumeration (e : Enumeration) : (Node.enumeration e).Regular g :=
  ⟨fun _ ht => (nomatch ht), nofun, nofun⟩

theorem reference (ref : String) : (Node.reference ref).Regular g :=
  ⟨fun _ ht => (nomatch ht), nofun, nofun⟩

theorem map (b : Builtin) (value : TypeRef) : (Node.map (.builtin b) value).Regular g :=
  ⟨fun _ ht => (nomatch ht), fun _ _ heq => ⟨b, (Node.map.inj heq).1.symm⟩, nofun⟩

theorem of_grows {n : Node} (h : g.Grows g') (hn : n.Regular g) : n.Regular g' :=
  ⟨fun t ht => (hn.declared t ht).of_grows h, hn.key, hn.service⟩

/-- A node whose declarations are those of another one. -/
theorem of_grows_node {n n' : Node} (hn : n.Regular g) (hgrow : n.Grows n')
    (hdeclared : ∀ t ∈ n'.declarations, t ∈ n.declarations ∨ g.Declarable t)
    (hservice : ∀ s, n ≠ .service s) : n'.Regular g where
  declared t ht := (hdeclared t ht).elim (hn.declared t) id
  key key value heq := by
    cases hgrow with
    | same => exact hn.key key value heq
    | _ => cases heq
  service s heq := by
    cases hgrow with
    | same => exact absurd heq (hservice s)
    | service => exact absurd rfl (hservice _)
    | _ => cases heq

end Node.Regular

theorem Graph.Regular.of_grows (h : g.Regular) (hgrows : g.Grows g')
    (hnodes : ∀ id n', g'.node? id = some n' → g.node? id = some n' ∨ n'.Regular g') :
    g'.Regular := fun id n' hn' =>
  (hnodes id n' hn').elim (fun hn => (h id n' hn).of_grows hgrows) fun hnew => hnew

theorem Graph.Regular.wellTyped (h : g.Regular) : g.WellTyped where
  declared id t ht := by
    obtain ⟨n, hn, hmem⟩ := Graph.mem_children_iff.1 ht
    obtain ⟨k, n', rfl, hn', hdeclaration⟩ := (h id n hn).declared t hmem
    refine ⟨?_, ?_⟩
    · rintro ⟨_, ref, heq, href⟩
      obtain rfl := TypeRef.node.inj heq
      obtain rfl := Option.some.inj (hn'.symm.trans href)
      cases hdeclaration
    · rintro ⟨_, key, value, heq, hmap⟩
      obtain rfl := TypeRef.node.inj heq
      obtain rfl := Option.some.inj (hn'.symm.trans hmap)
      cases hdeclaration
  keys id key value hn := .inl ((h id _ hn).key key value rfl)
  services id s hn := (h id _ hn).service s rfl

end Regular

/-- What is kept when a walk goes on. -/
structure Resolution.Extends (r r' : Resolution) : Prop where
  covers : ∀ t, r.Covers t → r'.Covers t
  visits : ∀ l, r.Visits l → r'.Visits l
  children : ∀ id, r'.graph.children id = r.graph.children id
  references : ∀ t, r'.graph.IsReference t ↔ r.graph.IsReference t
  wellTyped : r.graph.WellTyped → r'.graph.WellTyped

namespace Resolution.Extends

variable {targets : Targets} {task : Task} {r r₁ r' : Resolution}

theorem refl (r : Resolution) : r.Extends r :=
  ⟨fun _ h => h, fun _ h => h, fun _ => rfl, fun _ => Iff.rfl, fun h => h⟩

theorem trans (h : r.Extends r₁) (h' : r₁.Extends r') : r.Extends r' where
  covers t ht := h'.covers t (h.covers t ht)
  visits l hl := h'.visits l (h.visits l hl)
  children id := (h'.children id).trans (h.children id)
  references t := (h'.references t).trans (h.references t)
  wellTyped hr := h'.wellTyped (h.wellTyped hr)

theorem of_walks (h : Walks targets task r r') (hc : task.Current r) : r.Extends r' :=
  have hs := h.spliced hc
  ⟨fun _ ht => ht.mono hs h.visited_subset, fun _ hl => hl.mono hs h.visited_subset, hs.children_eq,
    fun _ => hs.isReference_iff, fun hr => hr.of_spliced hs⟩

end Resolution.Extends

end ApiProto.Proto

namespace ApiProto.Compile

open Proto Document CompileM

/-! ## Before -/

/-- A type that has been defined: builtin, or the type of a definition. -/
def Compilation.Defined (c : Compilation) (t : TypeRef) : Prop :=
  (∃ b, t = .builtin b) ∨ ∃ entry ∈ c.definitions, entry.2.unwrap = t

/-- The message of a shared list wrapper: what it lists is a reference, or has been defined. -/
def Compilation.Wraps (c : Compilation) (m : Message) : Prop :=
  m.children = [] ∧ ∀ f ∈ m.fields, c.graph.IsReference f.type ∨ c.Defined f.type

/-- Where references may stand while what is named is compiled. Shared list wrappers stand outside
of the scope in which something is compiled. -/
structure Compilation.Awaiting (scope : Scope) (c : Compilation) : Prop where
  regular : c.graph.Regular
  wrappers : ∀ entry ∈ c.wrappers, entry.2 ∉ scope ∧
    ∃ m, c.graph.node? entry.2 = some (.message m) ∧ c.Wraps m

variable {env : Environment} {scope opened : Scope} {c c' : Compilation}

theorem Compilation.Defined.of_grows {t : TypeRef} (h : c.Grows opened c') (ht : c.Defined t) :
    c'.Defined t :=
  ht.imp_right fun ⟨entry, hentry, heq⟩ => ⟨entry, h.definitions.subset hentry, heq⟩

theorem Compilation.Wraps.of_grows {m : Message} (h : c.Grows opened c') (hm : c.Wraps m) :
    c'.Wraps m :=
  ⟨hm.1, fun f hf => (hm.2 f hf).imp h.nodes.isReference (·.of_grows h)⟩

theorem defined_of_given {t : TypeRef} (h : c.Given t) : c.Defined t := by
  obtain ⟨ref, hmem⟩ := h
  rcases List.mem_append.1 hmem with hknown | hdefined
  · obtain ⟨⟨_, b⟩, -, heq⟩ := List.mem_map.1 hknown
    exact .inl ⟨b, (Prod.mk.inj heq).2.symm⟩
  · obtain ⟨entry, hentry, heq⟩ := List.mem_map.1 hdefined
    exact .inr ⟨entry, hentry, (Prod.mk.inj heq).2⟩

/-- What a reference stands for has been defined, or is a reference. -/
theorem compileReference_defined {ref : String} {d : Definition}
    (h : compileReference ref c = .ok (d, c')) :
    c'.graph.IsReference d.unwrap ∨ c'.Defined d.unwrap := by
  rcases compileReference_ok h with ⟨hd, rfl⟩ | ⟨-, -, rfl, rfl⟩
  · refine .inr ?_
    unfold Compilation.definition? at hd
    split at hd
    · obtain rfl := Option.some.inj hd
      exact .inl ⟨_, rfl⟩
    · obtain ⟨before, after, heq, -⟩ := List.lookup_eq_some_iff.1 hd
      exact .inr ⟨(ref, d), by simp [heq], rfl⟩
  · exact .inl ⟨_, ref, rfl, Graph.node?_add_self _⟩

namespace Compilation.Awaiting

variable (h : c.Awaiting scope)
include h

theorem subset {inner : Scope} (hsub : inner ⊆ scope) : c.Awaiting inner :=
  ⟨h.regular, fun entry hentry =>
    have ⟨hscope, hm⟩ := h.wrappers entry hentry
    ⟨fun hmem => hscope (hsub hmem), hm⟩⟩

/-- A state that has grown, but not by shared list wrappers. -/
theorem of_grows (hgrows : c.Grows scope c')
    (hnodes : ∀ id n', c'.graph.node? id = some n' →
      c.graph.node? id = some n' ∨ n'.Regular c'.graph)
    (hwrappers : c'.wrappers = c.wrappers) : c'.Awaiting scope where
  regular := h.regular.of_grows hgrows.nodes hnodes
  wrappers entry hentry := by
    obtain ⟨hscope, m, hm, hwraps⟩ := h.wrappers entry (hwrappers ▸ hentry)
    exact ⟨hscope, m, hgrows.closed _ _ hm hscope, hwraps.of_grows hgrows⟩

/-- A state in which one node has got declarations, fields or imports. -/
theorem of_map (hgrows : c.Grows scope c') {k : Nat} {change : Node → Node}
    (hnode : ∀ id, c'.graph.node? id =
      if id = k then (c.graph.node? id).map change else c.graph.node? id)
    (hchange : ∀ n, c.graph.node? k = some n →
      change n = n ∨ n.Grows (change n) ∧ (∀ s, n ≠ .service s) ∧
        ∀ t ∈ (change n).declarations, t ∈ n.declarations ∨ c.graph.Declarable t)
    (hwrappers : c'.wrappers = c.wrappers) : c'.Awaiting scope := by
  refine h.of_grows hgrows (fun id n' hn' => ?_) hwrappers
  rw [hnode id] at hn'
  split at hn'
  · next hid =>
    obtain ⟨n, hn, rfl⟩ := Option.map_eq_some_iff.1 hn'
    rcases hchange n (hid ▸ hn) with heq | ⟨hgrow, hservice, hdeclared⟩
    · exact .inl (heq.symm ▸ hn)
    · exact .inr (((h.regular id n hn).of_grows_node hgrow hdeclared hservice).of_grows hgrows.nodes)
  · exact .inl hn'

theorem withNode {n : Node} (hn : n.Regular c.graph) : (c.withNode n).Awaiting scope := by
  have hgrows : c.Grows scope (c.withNode n) := .withNode c n
  refine h.of_grows hgrows (fun id n' hn' => ?_) rfl
  have hadd : (c.graph.add n).1.node? id = some n' := hn'
  rw [Graph.node?_add] at hadd
  split at hadd
  · obtain rfl := Option.some.inj hadd
    exact .inr (hn.of_grows hgrows.nodes)
  · exact .inl hadd

theorem importFile (hpackage : c.package ∈ scope) (file : String) :
    (c.importFile file).Awaiting scope := by
  refine h.of_map (.importFile hpackage file) (fun id => Graph.node?_addImport c.package file)
    (fun n _ => ?_) rfl
  cases n with
  | package p =>
    refine .inr ⟨Node.grows_withImport file _, by simp, fun t ht => .inl ?_⟩
    rw [Node.withImport] at ht
    split at ht <;> exact ht
  | _ => exact .inl rfl

theorem importing (hpackage : c.package ∈ scope) (name : String) :
    (c.importing name).Awaiting scope := by
  unfold Compilation.importing
  split
  · exact h.importFile hpackage _
  · exact h

theorem declare {parent : Nat} (hparent : parent ∈ scope) (outer : Scope) (t : TypeRef) :
    (c.declare outer parent t).Awaiting scope := by
  have hgrows : c.Grows scope (c.declare outer parent t) := .declare hparent t
  unfold Compilation.declare at *
  rcases Registry.register_cases c.graph c.registry t parent outer with
    ⟨heq, -⟩ | ⟨id, rfl, hdeclared, -, -, ⟨-, heq⟩ | ⟨-, heq⟩⟩ <;> rw [heq] at hgrows ⊢
  · exact h
  · exact h.of_grows hgrows (fun id n' hn' => .inl hn') rfl
  · refine h.of_map hgrows (fun k => Graph.node?_addChild parent (.node id)) (fun n _ => ?_) rfl
    have hchild := Graph.declarable_of_isDeclared hdeclared
    cases n with
    | package p =>
      refine .inr ⟨Node.grows_withChild _ _, by simp, fun s hs => ?_⟩
      rcases List.mem_append.1 hs with hold | hlast
      · exact .inl hold
      · obtain rfl := List.mem_singleton.1 hlast
        exact .inr hchild
    | message m =>
      refine .inr ⟨Node.grows_withChild _ _, by simp, fun s hs => ?_⟩
      rcases List.mem_append.1 hs with hold | hlast
      · exact .inl hold
      · obtain rfl := List.mem_singleton.1 hlast
        exact .inr hchild
    | _ => exact .inl rfl

theorem declareHere (t : TypeRef) : (c.declareHere scope t).Awaiting scope := by
  cases scope with
  | nil => exact h
  | cons parent rest => exact h.declare (List.mem_cons_self ..) _ t

theorem remember (base : String) {wrapper : Nat} {m : Message} (hscope : wrapper ∉ scope)
    (hm : c.graph.node? wrapper = some (.message m)) (hwraps : c.Wraps m) :
    (c.remember base wrapper).Awaiting scope where
  regular := h.regular
  wrappers entry hentry := by
    rcases List.mem_append.1 hentry with hold | hlast
    · exact h.wrappers entry hold
    · obtain rfl := List.mem_singleton.1 hlast
      exact ⟨hscope, m, hm, hwraps⟩

theorem addFields (hpackage : c.package ∈ scope) {message : Nat} (hmessage : message ∈ scope)
    {fields : List (CompiledProperty × Int)} (hadd : addFields message fields c = .ok ((), c')) :
    c'.Awaiting scope := by
  refine (forM_ok_induct (P := fun d => d.Awaiting scope ∧ c.Grows scope d)
    (fun field _ d d' hstep hd => ?_) hadd ⟨h, .refl c⟩).1
  obtain ⟨d₁, hadd, rfl⟩ := addPropertyField_ok hstep
  have hgrows : d.Grows scope d₁ := addField_grows hmessage hadd
  have hd₁ : d₁.Awaiting scope := by
    rcases addField_ok hadd with ⟨-, rfl⟩ | ⟨m, hm, -, -, rfl⟩
    · exact hd.1
    · have hn := Graph.node?_of_message? hm
      refine hd.1.of_grows hgrows (fun id n' hn' => ?_) rfl
      rcases Decidable.em (id = message) with rfl | hne
      · obtain rfl := Option.some.inj ((Graph.node?_put_self hn _).symm.trans hn')
        have hregular := hd.1.regular id _ hn
        exact .inr (Node.Regular.of_grows hgrows.nodes ⟨hregular.declared, nofun, nofun⟩)
      · exact .inl ((Graph.node?_put_of_ne hne _).symm.trans hn')
  have hall := hd.2.trans hgrows
  have hpackage₁ : d₁.package ∈ scope := hall.package ▸ hpackage
  exact ⟨hd₁.importing hpackage₁ _, hall.trans (.importing hpackage₁ _)⟩

end Compilation.Awaiting

/-- In a run, references are only put where they are resolved, and in shared list wrappers. -/
theorem Runs.awaiting {ts : List TypeRef} (h : Runs env scope c ts c')
    (hpackage : c.package ∈ scope) (hscope : ∀ x ∈ scope, x < c.graph.size)
    (hc : c.Awaiting scope) : c'.Awaiting scope := by
  induction h with
  | nil | found | wrapped => exact hc
  | cons hfirst _ ih ih' =>
    have hgrows := hfirst.grows hpackage
    exact ih' (hgrows.package ▸ hpackage)
      (fun x hx => Nat.lt_of_lt_of_le (hscope x hx) hgrows.size_le) (ih hpackage hscope hc)
  | builtin b _ ih => exact ih hpackage hscope hc
  | importing name hrun ih =>
    exact (ih hpackage hscope hc).importing ((hrun.grows hpackage).package ▸ hpackage) name
  | reference href =>
    rcases compileReference_ok href with ⟨-, rfl⟩ | ⟨-, -, -, rfl⟩
    · exact hc
    · exact hc.withNode (.reference _)
  | declared _ ih => exact (ih hpackage hscope hc).declareHere _
  | enumeration => exact (hc.withNode (.enumeration _)).declareHere _
  | map _ ih => exact (ih hpackage hscope hc).withNode (.map _ _)
  | objectWrapper rawName field about comment _ ih =>
    exact ((ih hpackage hscope hc).withNode (.message rfl)).declareHere _
  | @sharedWrapper scope c c₁ ref d rawName _ hitem =>
    have hgrows : c.Grows scope c₁ := compileReference_grows hitem
    have hc₁ : c₁.Awaiting scope := by
      rcases compileReference_ok hitem with ⟨-, rfl⟩ | ⟨-, -, -, rfl⟩
      · exact hc
      · exact hc.withNode (.reference _)
    have hnew : c₁.graph.size ∉ scope := fun hmem =>
      Nat.lt_irrefl _ (Nat.lt_of_lt_of_le (hscope _ hmem) hgrows.size_le)
    have hnode := hc₁.withNode (n := .message (listWrapper
      (listWrapperName env.spec c₁ (Name.pascal rawName)) "items" (Name.pascal rawName)
      (.text "") d.unwrap)) (.message rfl)
    refine (hnode.remember _ hnew (Graph.node?_add_self _) ⟨rfl, fun f hf => ?_⟩).declare
      (hgrows.package ▸ hpackage) scope _
    obtain rfl := List.mem_singleton.1 hf
    have hgrows₁ : c₁.Grows scope (c₁.withNode _) := .withNode c₁ (.message (listWrapper
      (listWrapperName env.spec c₁ (Name.pascal rawName)) "items" (Name.pascal rawName)
      (.text "") d.unwrap))
    exact (compileReference_defined hitem).imp hgrows₁.nodes.isReference (·.of_grows hgrows₁)
  | @message scope c c₁ c₂ ts rawName comment fields _ hrun _ hadd ih =>
    have hnode := hc.withNode (n := .message ⟨Name.pascal rawName, [], [], comment⟩) (.message rfl)
    have hinner : (c.withNode (.message ⟨Name.pascal rawName, [], [], comment⟩)).Awaiting
        (c.graph.size :: scope) := by
      refine ⟨hnode.regular, fun entry hentry => ?_⟩
      obtain ⟨hout, hm⟩ := hnode.wrappers entry hentry
      obtain ⟨_, hm₀, -⟩ := (hc.wrappers entry hentry).2
      have hlt := Graph.lt_size_of_node? hm₀
      exact ⟨by simpa using ⟨Nat.ne_of_lt hlt, hout⟩, hm⟩
    have hpackage' : c.package ∈ c.graph.size :: scope := List.mem_cons_of_mem _ hpackage
    have hsize : (c.withNode (.message ⟨Name.pascal rawName, [], [], comment⟩)).graph.size =
        c.graph.size + 1 := Graph.size_add ..
    have hc₁ := ih hpackage' (fun x hx => by
      rcases List.mem_cons.1 hx with rfl | hx
      · omega
      · have := hscope x hx
        omega) hinner
    have hc₂ := hc₁.addFields ((hrun.grows hpackage').package ▸ hpackage')
      (List.mem_cons_self ..) hadd
    exact (hc₂.subset (List.subset_cons_self ..)).declareHere _
  | @arrayResponse scope c c₁ item name _ hrun ih =>
    have hnode := (ih hpackage hscope hc).withNode (n := .message (arrayMessage name item))
      (.message rfl)
    have hpackage₁ := (hrun.grows hpackage).package ▸ hpackage
    exact (hnode.importing hpackage₁ _).declareHere _

theorem Compilation.Awaiting.defining (h : c.Awaiting scope) (ref : String) (d : Definition) :
    (c.defining ref d).Awaiting scope := by
  have hgrows : c.Grows scope (c.defining ref d) := defining_grows ref d
  refine h.of_grows hgrows (fun id n' hn' => .inl ?_) ?_
  · unfold Compilation.defining at hn'
    split at hn' <;> exact hn'
  · unfold Compilation.defining
    split <;> rfl

theorem start_awaiting (packageName serviceName : String) (options : List (String × String)) :
    (start packageName serviceName options).Awaiting scope := by
  refine ⟨fun id n hn => ?_, fun _ hentry => nomatch hentry⟩
  rcases start_node? hn with ⟨-, rfl⟩ | ⟨-, rfl⟩
  · refine ⟨fun t ht => ?_, nofun, nofun⟩
    obtain rfl := List.mem_singleton.1 ht
    exact ⟨1, _, rfl, rfl, rfl⟩
  · exact ⟨fun _ ht => (nomatch ht), nofun, fun s hs => (Node.service.inj hs) ▸ rfl⟩

/-- While what is named is compiled, references are only put where they are resolved, and in shared
list wrappers. -/
theorem compileNamed_awaiting (h : compileNamed env (startOf env) = .ok ((), c)) :
    c.Awaiting [c.package] := by
  obtain ⟨packageName, serviceName, options, heq⟩ := startOf_is_start env
  have hstart : (startOf env).package ∈ [(startOf env).package] := List.mem_singleton.2 rfl
  refine (compileNamed_induct (P := fun c => Builds env (startOf env).package (startOf env) c ∧
    c.Awaiting [c.package]) (fun {c} file hc => ?_) (fun {c c'} ref d hc hrun => ?_) h rfl
      ⟨.refl, heq ▸ start_awaiting ..⟩).2
  · exact ⟨.importFile file hc.1, hc.2.importFile (List.mem_singleton.2 rfl) file⟩
  · have hp := (hc.1.grows rfl).package
    have hclosed := hc.1.closed rfl (heq ▸ start_closed ..)
    rw [← hp] at hrun
    have hpackage : c.package ∈ [c.package] := List.mem_singleton.2 rfl
    have hgrows := hrun.grows hpackage
    have hdefining : c'.Grows [c.package] (c'.defining ref d) := defining_grows ref d
    refine ⟨.define ref d hc.1 (hp ▸ hrun), ?_⟩
    rw [hdefining.package, hgrows.package]
    refine (hrun.awaiting hpackage (fun x hx => ?_) hc.2).defining ref d
    obtain rfl := List.mem_singleton.1 hx
    obtain ⟨p, hp⟩ := hclosed.package
    exact Graph.lt_size_of_node? hp

/-! ## After -/

/-- A state in which all has been resolved, by a walk that has visited some messages. -/
structure Compilation.Walked (c : Compilation) (visited : List Nat) : Prop where
  wellTyped : c.graph.WellTyped
  complete : Resolution.Complete ⟨c.graph, visited⟩ fun _ => False
  package : Resolution.Visits ⟨c.graph, visited⟩ (c.graph.children c.package)
  definitions : ∀ entry ∈ c.definitions, Resolution.Covers ⟨c.graph, visited⟩ entry.2.unwrap
  wrappers : ∀ entry ∈ c.wrappers, ∃ m, c.graph.node? entry.2 = some (.message m) ∧
    m.children = [] ∧ ∀ f ∈ m.fields,
      c.graph.IsReference f.type ∨ Resolution.Covers ⟨c.graph, visited⟩ f.type

theorem resolving_ok {α : Type} {visited visited' : List Nat} {step : Definitions → ResolveM α}
    {a : α} (h : resolving visited step c = .ok ((a, visited'), c')) :
    (step c.table).outcome ⟨c.graph, visited⟩ = (.ok a, ⟨c'.graph, visited'⟩) ∧
      c' = { c with graph := c'.graph } := by
  unfold resolving at h
  unfold ResolveM.outcome
  rcases houtcome : (step c.table).run.run ⟨c.graph, visited⟩ with ⟨e | b, r⟩ <;>
    rw [houtcome] at h
  · cases h
  · obtain ⟨heq, rfl⟩ := Prod.mk.inj (Except.ok.inj h)
    obtain ⟨rfl, rfl⟩ := Prod.mk.inj heq
    exact ⟨rfl, rfl⟩

/-- The state with another definition for a reference. -/
def Compilation.redefining (c : Compilation) (ref : String) (d : Definition) : Compilation :=
  { c with definitions := c.definitions.map fun (k, old) => (k, if k = ref then d else old) }

/-- Resolving definitions one after the other leaves no references in them. -/
theorem resolveDefinitions_covers {l : List (String × Definition)} {visited : List Nat}
    (hcomplete : Resolution.Complete ⟨c.graph, visited⟩ fun _ => False)
    (hdone : ∀ entry ∈ c.definitions, entry.1 ∈ l.map Prod.fst ∨
      Resolution.Covers ⟨c.graph, visited⟩ entry.2.unwrap)
    (h : resolveDefinitions l visited c = .ok ((), c')) :
    ∃ visited', Resolution.Extends ⟨c.graph, visited⟩ ⟨c'.graph, visited'⟩ ∧
      (Resolution.Complete ⟨c'.graph, visited'⟩ fun _ => False) ∧
      (∀ entry ∈ c'.definitions, Resolution.Covers ⟨c'.graph, visited'⟩ entry.2.unwrap) ∧
      ∀ entry ∈ l, c.graph.IsReference entry.2.unwrap ∨
        Resolution.Covers ⟨c'.graph, visited'⟩ entry.2.unwrap := by
  induction l generalizing c visited with
  | nil =>
    obtain rfl := (Prod.mk.inj (Except.ok.inj h)).2
    exact ⟨visited, .refl _, hcomplete, fun entry hentry => (hdone entry hentry).resolve_left nofun,
      nofun⟩
  | cons first rest ih =>
    obtain ⟨ref, d⟩ := first
    obtain ⟨⟨t, visited₁⟩, c₁, hfirst, h⟩ := bind_ok_iff.1 h
    obtain ⟨houtcome, hc₁⟩ := resolving_ok (within_ok_iff.1 hfirst)
    have hwalk := walks_of_resolveAt houtcome
    obtain ⟨hcomplete₁, hcover⟩ := hwalk.complete trivial hcomplete
    have hextends := Resolution.Extends.of_walks hwalk trivial
    have hdone₁ : ∀ entry ∈ (c₁.redefining ref (d.withType t)).definitions,
        entry.1 ∈ rest.map Prod.fst ∨
          Resolution.Covers ⟨c₁.graph, visited₁⟩ entry.2.unwrap := by
      intro entry hentry
      obtain ⟨⟨k, old⟩, hold, rfl⟩ := List.mem_map.1 hentry
      rw [hc₁] at hold
      dsimp only
      split
      · refine .inr ?_
        cases d <;> exact hcover
      · next hk =>
        rcases hdone _ hold with hmem | hcovers
        · rcases List.mem_cons.1 hmem with heq | hmem
          · exact absurd heq hk
          · exact .inl hmem
        · exact .inr (hextends.covers _ hcovers)
    obtain ⟨visited', hrest, hcomplete', hdefinitions, hentries⟩ :=
      ih (c := c₁.redefining ref (d.withType t)) hcomplete₁ hdone₁ h
    refine ⟨visited', hextends.trans hrest, hcomplete', hdefinitions, fun entry hentry => ?_⟩
    rcases List.mem_cons.1 hentry with rfl | hentry
    · by_cases href : c.graph.IsReference d.unwrap
      · exact .inl href
      · have heq := hwalk.eq_of_not_isReference href
        exact .inr (hrest.covers _ (heq ▸ hcover))
    · exact (hentries entry hentry).imp_left (hextends.references _).1

/-- Resolving all leaves no references in what is declared and in what is defined. -/
theorem resolveAll_walked (h : resolveAll c = .ok ((), c')) (hc : c.Awaiting scope) :
    ∃ visited, c'.Walked visited := by
  have hresolved := resolveAll_ok h
  unfold resolveAll at h
  rw [get_bind] at h
  obtain ⟨⟨⟨⟩, visited₁⟩, c₁, hpackage, h⟩ := bind_ok_iff.1 h
  obtain ⟨houtcome, hc₁⟩ := resolving_ok hpackage
  have hwalk := walks_of_resolvePackage houtcome
  obtain ⟨hcomplete₁, hvisits⟩ := hwalk.complete trivial
    (show Resolution.Complete ⟨c.graph, []⟩ (fun _ => False) from fun _ hid => nomatch hid)
  have hextends := Resolution.Extends.of_walks hwalk trivial
  have hdefinitions₁ : c₁.definitions = c.definitions := by rw [hc₁]
  obtain ⟨visited, hrest, hcomplete, hdefinitions, hentries⟩ :=
    resolveDefinitions_covers hcomplete₁
      (fun entry hentry => .inl (List.mem_map.2 ⟨entry, hdefinitions₁ ▸ hentry, rfl⟩)) h
  have hall := hextends.trans hrest
  -- what has been defined holds no references afterwards
  have hdefined : ∀ t, c.Defined t → c'.graph.IsReference t ∨
      Resolution.Covers ⟨c'.graph, visited⟩ t := by
    rintro t (⟨b, rfl⟩ | ⟨entry, hentry, rfl⟩)
    · exact .inr (.builtin b)
    · exact (hentries entry hentry).imp_left fun href =>
        (hrest.references _).2 href
  refine ⟨visited, hall.wellTyped hc.regular.wellTyped, hcomplete, ?_, hdefinitions,
    fun entry hentry => ?_⟩
  · rw [Compilation.package, hresolved.registry, hall.children]
    exact hrest.visits _ hvisits
  · obtain ⟨-, m, hm, hchildren, hfields⟩ := hc.wrappers entry (hresolved.wrappers ▸ hentry)
    obtain ⟨n', hn', hres⟩ := hresolved.graph.nodes _ _ hm
    have hitem : ∀ f ∈ m.fields, c'.graph.IsReference f.type ∨
        Resolution.Covers ⟨c'.graph, visited⟩ f.type := fun f hf =>
      (hfields f hf).elim (fun href => .inl ((hall.references _).2 href)) (hdefined _)
    cases hres with
    | same => exact ⟨m, hn', hchildren, hitem⟩
    | @message m m' _ hsame _ hlength hslots =>
      refine ⟨m', hn', hsame.trans hchildren, fun f' hf' => ?_⟩
      obtain ⟨i, hi⟩ := List.mem_iff_getElem?.1 hf'
      have hlt : i < m.fields.length := hlength ▸ (List.getElem?_eq_some_iff.1 hi).1
      obtain ⟨f'', hi', t, rfl, ht⟩ := hslots i _ (List.getElem?_eq_getElem hlt)
      obtain rfl := Option.some.inj (hi.symm.trans hi')
      rcases ht with rfl | ⟨-, hgiven⟩
      · exact hitem _ (List.getElem_mem hlt)
      · exact hdefined t (defined_of_given hgiven)

end ApiProto.Compile
