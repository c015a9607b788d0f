import ApiProto.Proofs.GraphTranslation
import ApiProto.Proofs.Growth
import Mathlib.Data.List.Forall2

/-!
# Runs in both versions

Two runs of which one starts in the state of the other, with references in the other version. They
go in lockstep: they come to the same results, and to states of that kind, or both fail. Errors may
differ, as references are part of their texts.

* `Mirrors` — two steps of which the runs from a state go in lockstep.
* `Mirrors.bind`, `Mirrors.mapM`, `Mirrors.forM` — the rules for composed steps. What is known of the
  first run can be used in the next step.
* `Mirrors.newNode`, `Mirrors.declareIn`, `Mirrors.compileReference`, … — the basic steps.
-/

namespace ApiProto.Compile

open Proto Document CompileM

variable {α β γ δ : Type}

/-- Two steps of which the runs go in lockstep, the first from a state and the second from that
state in the other version. Their results belong together by `k`. -/
structure Mirrors (k : α → β) (c : Compilation) (m : CompileM α) (m' : CompileM β) : Prop where
  ok : ∀ a c₁, m c = .ok (a, c₁) → m' c.translated = .ok (k a, c₁.translated)
  error : ∀ e, m c = .error e → ∃ e', m' c.translated = .error e'

theorem bind_error_iff {m : CompileM α} {f : α → CompileM β} {c : Compilation} {e : Error} :
    (m >>= f) c = .error e ↔ m c = .error e ∨ ∃ a c₁, m c = .ok (a, c₁) ∧ f a c₁ = .error e := by
  show (m c).bind (fun q => f q.1 q.2) = .error e ↔ _
  rcases m c with e' | ⟨a, c₁⟩
  · simp [Except.bind]
  · constructor
    · exact fun h => .inr ⟨a, c₁, rfl, h⟩
    · rintro (h | ⟨_, _, hm, h⟩)
      · cases h
      · obtain ⟨rfl, rfl⟩ := Prod.mk.inj (Except.ok.inj hm)
        exact h

namespace Mirrors

variable {k : α → β} {k' : γ → δ} {c : Compilation} {m : CompileM α} {m' : CompileM β}

/-! ## Composed steps -/

theorem pure {a : α} {b : β} (h : b = k a) :
    Mirrors k c (Pure.pure a : CompileM α) (Pure.pure b) where
  ok a₁ c₁ ha := by
    obtain ⟨rfl, rfl⟩ := Prod.mk.inj (Except.ok.inj ha)
    exact h ▸ rfl
  error _ he := nomatch he

theorem fail (cause cause' : Cause) :
    Mirrors k c (failWith cause : CompileM α) (failWith cause') where
  ok _ _ h := nomatch h
  error _ _ := ⟨_, rfl⟩

theorem bind {f : α → CompileM γ} {f' : β → CompileM δ} (h : Mirrors k c m m')
    (hf : ∀ a c₁, m c = .ok (a, c₁) → Mirrors k' c₁ (f a) (f' (k a))) :
    Mirrors k' c (m >>= f) (m' >>= f') where
  ok b c₂ hb := by
    obtain ⟨a, c₁, ha, hb⟩ := bind_ok_iff.1 hb
    exact bind_ok_iff.2 ⟨_, _, h.ok a c₁ ha, (hf a c₁ ha).ok b c₂ hb⟩
  error e he := by
    rcases bind_error_iff.1 he with he | ⟨a, c₁, ha, he⟩
    · obtain ⟨e', he'⟩ := h.error e he
      exact ⟨e', bind_error_iff.2 (.inl he')⟩
    · obtain ⟨e', he'⟩ := (hf a c₁ ha).error e he
      exact ⟨e', bind_error_iff.2 (.inr ⟨_, _, h.ok a c₁ ha, he'⟩)⟩

/-- Steps that read the state. -/
theorem read {f : Compilation → CompileM γ} {f' : Compilation → CompileM δ}
    (h : Mirrors k' c (f c) (f' c.translated)) : Mirrors k' c (get >>= f) (get >>= f') :=
  ⟨fun a c₁ => h.ok a c₁, fun e => h.error e⟩

theorem within (frame frame' : String) (h : Mirrors k c m m') :
    Mirrors k c (within frame m) (CompileM.within frame' m') where
  ok a c₁ ha := within_ok_iff.2 (h.ok a c₁ (within_ok_iff.1 ha))
  error e he := by
    rcases hm : m c with e₁ | p
    · obtain ⟨e', he'⟩ := h.error e₁ hm
      exact ⟨_, by simp only [CompileM.within, he']; rfl⟩
    · exact absurd ((within_ok_iff.2 hm).symm.trans he) nofun

theorem ofResult {r : Except Error α} {r' : Except Error β} (hok : ∀ a, r = .ok a → r' = .ok (k a))
    (herror : ∀ e, r = .error e → ∃ e', r' = .error e') :
    Mirrors k c (ofResult r) (CompileM.ofResult r') where
  ok a c₁ ha := by
    obtain ⟨hr, rfl⟩ := ofResult_ok_iff.1 ha
    exact ofResult_ok_iff.2 ⟨hok a hr, rfl⟩
  error e he := by
    rcases hr : r with e₁ | a
    · obtain ⟨e', he'⟩ := herror e₁ hr
      exact ⟨e', by rw [he']; rfl⟩
    · rw [hr] at he
      cases he

/-- A result that is the same in both versions. -/
theorem result (r : Except Error α) : Mirrors id c (CompileM.ofResult r) (CompileM.ofResult r) :=
  ofResult (fun _ h => h) fun e h => ⟨e, h⟩

theorem map {f : α → γ} {f' : β → δ} (h : Mirrors k c m m') (hf : ∀ a, f' (k a) = k' (f a)) :
    Mirrors k' c (StateT.map f m) (StateT.map f' m') := by
  have hbind : Mirrors k' c (m >>= fun a => Pure.pure (f a)) (m' >>= fun b => Pure.pure (f' b)) :=
    h.bind fun a _ _ => .pure (hf a)
  exact hbind

theorem ite {p q : Prop} [Decidable p] [Decidable q] {n : CompileM α} {n' : CompileM β}
    (hpq : p ↔ q) (hm : p → Mirrors k c m m') (hn : ¬p → Mirrors k c n n') :
    Mirrors k c (if p then m else n) (if q then m' else n') := by
  by_cases h : p
  · rw [if_pos h, if_pos (hpq.1 h)]
    exact hm h
  · rw [if_neg h, if_neg fun hq => h (hpq.2 hq)]
    exact hn h

variable {ε ζ : Type} {P : Compilation → Prop} {l : List ε} {l' : List ζ} {R : ε → ζ → Prop}

/-- A step for each item of two lists. What the steps keep can be used on the way. -/
theorem mapM {f : ε → CompileM α} {f' : ζ → CompileM β} (h : List.Forall₂ R l l')
    (hkeep : ∀ x ∈ l, ∀ c a c₁, P c → f x c = .ok (a, c₁) → P c₁)
    (hf : ∀ x ∈ l, ∀ y, R x y → ∀ c, P c → Mirrors k c (f x) (f' y)) (hc : P c) :
    Mirrors (List.map k) c (l.mapM f) (l'.mapM f') := by
  induction h generalizing c with
  | nil => exact pure rfl
  | @cons x y l l' hxy _ ih =>
    rw [List.mapM_cons, List.mapM_cons]
    have hx : x ∈ x :: l := List.mem_cons_self ..
    refine (hf x hx y hxy c hc).bind fun a c₁ ha => ?_
    refine (ih (fun z hz => hkeep z (List.mem_cons_of_mem _ hz))
      (fun z hz => hf z (List.mem_cons_of_mem _ hz)) (hkeep x hx c a c₁ hc ha)).bind fun as _ _ => ?_
    exact pure rfl

theorem forM {f : ε → CompileM Unit} {f' : ζ → CompileM Unit} (h : List.Forall₂ R l l')
    (hkeep : ∀ x ∈ l, ∀ c c₁, P c → f x c = .ok ((), c₁) → P c₁)
    (hf : ∀ x ∈ l, ∀ y, R x y → ∀ c, P c → Mirrors id c (f x) (f' y)) (hc : P c) :
    Mirrors id c (l.forM f) (l'.forM f') := by
  induction h generalizing c with
  | nil => exact pure rfl
  | @cons x y l l' hxy _ ih =>
    show Mirrors id c (f x >>= fun _ => l.forM f) (f' y >>= fun _ => l'.forM f')
    have hx : x ∈ x :: l := List.mem_cons_self ..
    refine (hf x hx y hxy c hc).bind fun _ c₁ ha => ?_
    exact ih (fun z hz => hkeep z (List.mem_cons_of_mem _ hz))
      (fun z hz => hf z (List.mem_cons_of_mem _ hz)) (hkeep x hx c c₁ hc ha)

/-- A step that always succeeds. -/
theorem of_ok {a : α} {c₁ : Compilation} (h : m c = .ok (a, c₁))
    (h' : m' c.translated = .ok (k a, c₁.translated)) : Mirrors k c m m' where
  ok b c₂ hb := by
    obtain ⟨rfl, rfl⟩ := Prod.mk.inj (Except.ok.inj (h.symm.trans hb))
    exact h'
  error e he := nomatch h.symm.trans he

end Mirrors

/-! ## States -/

/-- A state in which something is compiled in a scope: what can be found by name is declared, and
the containers of the scope are packages and messages. -/
structure Compilation.Ready (scope : Scope) (c : Compilation) : Prop where
  package : c.package ∈ scope
  containers : ∀ x ∈ scope, c.graph.IsContainer x
  log : ∀ entry ∈ c.registry.log, c.graph.isDeclared (.node entry.2) = true
  wrappers : ∀ entry ∈ c.wrappers, c.graph.isDeclared (.node entry.2) = true

section Ready

variable {env : Environment} {scope : Scope} {c c₁ c' : Compilation} {opened : List Nat}

theorem isDeclared_of_grows {g g' : Graph} (h : g.Grows g') {t : TypeRef}
    (ht : g.isDeclared t = true) : g'.isDeclared t = true := by
  cases t with
  | builtin b => cases ht
  | node id =>
    obtain ⟨n, hn, -⟩ := Graph.isDeclared_iff.1 ht
    rw [h.isDeclared_node hn, ht]

theorem isContainer_of_grows {g g' : Graph} (h : g.Grows g') {x : Nat} (hx : g.IsContainer x) :
    g'.IsContainer x := by
  rcases hx with ⟨p, hn⟩ | ⟨m, hn⟩ <;> obtain ⟨n', hn', hgrows⟩ := h x _ hn <;> cases hgrows
  · exact .inl ⟨_, hn'⟩
  · exact .inl ⟨_, hn'⟩
  · exact .inr ⟨_, hn'⟩
  · exact .inr ⟨_, hn'⟩

namespace Compilation.Ready

/-- A state that is ready stays so if all that is listed anew is declared. -/
theorem of_grows (h : c.Ready scope) (hgrows : c.Grows opened c')
    (hlog : ∀ entry ∈ c'.registry.log, entry ∈ c.registry.log ∨
      c'.graph.isDeclared (.node entry.2) = true)
    (hwrappers : ∀ entry ∈ c'.wrappers, entry ∈ c.wrappers ∨
      c'.graph.isDeclared (.node entry.2) = true) : c'.Ready scope where
  package := hgrows.package ▸ h.package
  containers x hx := isContainer_of_grows hgrows.nodes (h.containers x hx)
  log entry hentry := (hlog entry hentry).elim
    (fun hold => isDeclared_of_grows hgrows.nodes (h.log entry hold)) id
  wrappers entry hentry := (hwrappers entry hentry).elim
    (fun hold => isDeclared_of_grows hgrows.nodes (h.wrappers entry hold)) id

/-- What only changes the graph leaves a state ready. -/
theorem of_changesGraph (h : c.Ready scope) (hgrows : c.Grows opened c')
    (hchange : c.ChangesGraph c') : c'.Ready scope := by
  obtain ⟨g, rfl⟩ := hchange
  exact h.of_grows hgrows (fun _ => .inl) fun _ => .inl

theorem withNode (h : c.Ready scope) (n : Node) : (c.withNode n).Ready scope := by
  have hgrows : c.Grows [] (c.withNode n) := .withNode c n
  exact h.of_changesGraph hgrows ⟨_, rfl⟩

/-- Inside a new message. -/
theorem enter (h : c.Ready scope) (m : Message) :
    (c.withNode (.message m)).Ready (c.graph.size :: scope) :=
  { h.withNode (.message m) with
    package := List.mem_cons_of_mem _ h.package
    containers := fun x hx => by
      rcases List.mem_cons.1 hx with rfl | hx
      · exact .inr ⟨m, Graph.node?_add_self (.message m)⟩
      · exact (h.withNode (.message m)).containers x hx }

/-- Back in the scope around. -/
theorem leave {x : Nat} (h : c.Ready (x :: scope)) (hpackage : c.package ∈ scope) : c.Ready scope :=
  { h with
    package := hpackage
    containers := fun y hy => h.containers y (List.mem_cons_of_mem _ hy) }

theorem importing (h : c.Ready scope) (name : String) : (c.importing name).Ready scope :=
  h.of_changesGraph (.importing h.package name) (.importing c name)

theorem declare (h : c.Ready scope) {parent : Nat} (hparent : parent ∈ scope) (t : TypeRef) :
    (c.declare scope parent t).Ready scope := by
  have hgrows : c.Grows scope (c.declare scope parent t) := .declare hparent t
  refine h.of_grows hgrows (fun entry hentry => ?_) fun _ => .inl
  unfold Compilation.declare at hentry hgrows ⊢
  rcases Registry.register_cases c.graph c.registry t parent scope with
    ⟨heq, -⟩ | ⟨id, rfl, hdeclared, -, -, ⟨-, heq⟩ | ⟨-, heq⟩⟩ <;> rw [heq] at hentry hgrows ⊢
  · exact .inl hentry
  · exact .inl hentry
  · rcases List.mem_append.1 hentry with hold | hnew
    · exact .inl hold
    · obtain rfl := List.mem_singleton.1 hnew
      exact .inr (isDeclared_of_grows hgrows.nodes hdeclared)

theorem declareHere (h : c.Ready scope) (t : TypeRef) : (c.declareHere scope t).Ready scope := by
  cases scope with
  | nil => exact h
  | cons parent rest => exact h.declare (List.mem_cons_self ..) t

theorem remember (h : c.Ready scope) (base : String) {wrapper : Nat}
    (hwrapper : c.graph.isDeclared (.node wrapper) = true) :
    (c.remember base wrapper).Ready scope := by
  have hgrows : c.Grows [] (c.remember base wrapper) := .remember c base wrapper
  refine h.of_grows hgrows (fun _ => .inl) fun entry hentry => ?_
  rcases List.mem_append.1 hentry with hold | hnew
  · exact .inl hold
  · obtain rfl := List.mem_singleton.1 hnew
    exact .inr hwrapper

theorem addFields (h : c.Ready scope) {message : Nat} (hmessage : message ∈ scope)
    {fields : List (CompiledProperty × Int)} (hadd : addFields message fields c = .ok ((), c')) :
    c'.Ready scope :=
  h.of_changesGraph (addFields_grows h.package hmessage hadd) (.addFields hadd)

theorem compileReference {ref : String} {d : Definition} (h : c.Ready scope)
    (href : compileReference ref c = .ok (d, c')) : c'.Ready scope := by
  rcases compileReference_ok href with ⟨-, rfl⟩ | ⟨-, -, -, rfl⟩
  · exact h
  · exact h.withNode _

end Compilation.Ready

theorem isDeclared_new (c : Compilation) (m : Message) :
    (c.withNode (.message m)).graph.isDeclared (.node c.graph.size) = true := by
  have hn : (c.withNode (.message m)).graph.node? c.graph.size = some (.message m) :=
    Graph.node?_add_self _
  rw [Graph.isDeclared_of_node? hn]
  rfl

/-- A run leaves a state ready. -/
theorem Runs.ready {ts : List TypeRef} (h : Runs env scope c ts c') (hc : c.Ready scope) :
    c'.Ready scope := by
  induction h with
  | nil => exact hc
  | cons _ _ ih ih' => exact ih' (ih hc)
  | builtin _ _ ih => exact ih hc
  | importing name _ ih => exact (ih hc).importing name
  | reference href => exact hc.compileReference href
  | found => exact hc
  | declared _ ih => exact (ih hc).declareHere _
  | enumeration => exact (hc.withNode _).declareHere _
  | map _ ih => exact (ih hc).withNode _
  | objectWrapper _ _ _ _ _ ih => exact ((ih hc).withNode _).declareHere _
  | sharedWrapper _ _ hitem =>
    have hitem := hc.compileReference hitem
    exact ((hitem.withNode _).remember _ (isDeclared_new _ _)).declare hitem.package _
  | wrapped => exact hc
  | message rawName comment fields _ hrun _ hadd ih =>
    have hinner := (ih (hc.enter _)).addFields (List.mem_cons_self ..) hadd
    have hgrows := (hrun.grows (hc.enter _).package).trans
      (addFields_grows (ih (hc.enter _)).package (List.mem_cons_self ..) hadd)
    exact (hinner.leave (hgrows.package ▸ hc.package)).declareHere _
  | arrayResponse name _ _ ih => exact (((ih hc).withNode _).importing _).declareHere _

end Ready

/-! ## Basic steps -/

theorem Graph.not_utters_of_isContainer {g : Graph} {x : Nat} (h : g.IsContainer x) :
    ¬ g.Utters (.node x) := by
  rintro (⟨hn⟩ | ⟨hn, -⟩ | ⟨hn, -⟩) <;> rcases h with ⟨p, hp⟩ | ⟨m, hm⟩
  all_goals first | exact nomatch hp.symm.trans hn | exact nomatch hm.symm.trans hn

section Effects

variable {scope : Scope} (c : Compilation)

theorem translated_withNode (n : Node) :
    c.translated.withNode n.translated = (c.withNode n).translated := by
  have hadd := congrArg Prod.fst (Graph.add_mapNodes Node.translated c.graph n)
  simp only [Compilation.withNode, Compilation.translated, Graph.translated, hadd]

theorem translated_importing {name name' : String} (h : importOf? name' = importOf? name) :
    c.translated.importing name' = (c.importing name).translated := by
  unfold Compilation.importing
  rw [h]
  rcases importOf? name with _ | file
  · rfl
  · have hadd := Graph.addImport_mapNodes c.graph Node.relabelled_translated c.package file
    exact congrArg (fun g => { c.translated with graph := g }) hadd

variable {c}

theorem translated_declare (h : c.Ready scope) (parent : Nat) (t : TypeRef) :
    c.translated.declare scope parent t = (c.declare scope parent t).translated := by
  have hregister := Graph.register_translated (r := c.registry)
    (fun x hx => Graph.not_utters_of_isContainer (h.containers x hx)) t parent
  show ({ c.translated with
    graph := (c.registry.register c.graph.translated t parent scope).2.1
    registry := (c.registry.register c.graph.translated t parent scope).2.2 } : Compilation) = _
  rw [hregister]
  rfl

theorem translated_declareHere (h : c.Ready scope) (t : TypeRef) :
    c.translated.declareHere scope t = (c.declareHere scope t).translated := by
  cases scope with
  | nil => rfl
  | cons parent rest => exact translated_declare h parent t

end Effects

namespace Mirrors

variable {c : Compilation} {scope : Scope}

theorem newNode (n : Node) : Mirrors id c (newNode n) (Compile.newNode n.translated) := by
  refine of_ok (newNode_run n) ?_
  rw [newNode_run, translated_withNode]
  exact congrArg (fun size => Except.ok (size, (c.withNode n).translated))
    (Graph.size_mapNodes _ c.graph)

theorem lookupType (h : c.Ready scope) (name : String) (scope : Scope) :
    Mirrors id c (lookupType name scope) (Compile.lookupType name scope) := by
  refine of_ok rfl ?_
  have hlookup := Graph.lookup_translated
    (fun entry hentry => Graph.not_utters_of_isDeclared (h.log entry hentry)) name scope
  exact congrArg (fun found => Except.ok (found, c.translated)) hlookup

theorem declareIn (h : c.Ready scope) (parent : Nat) (t : TypeRef) :
    Mirrors id c (declareIn scope parent t) (Compile.declareIn scope parent t) :=
  of_ok (declareIn_run scope parent t) (by rw [declareIn_run, translated_declare h, id])

theorem declareDefinition (h : c.Ready scope) (d : Definition) :
    Mirrors id c (declareDefinition scope d) (Compile.declareDefinition scope d) := by
  cases d with
  | type t =>
    refine of_ok (declareDefinition_run scope t) ?_
    rw [declareDefinition_run, translated_declareHere h, id]
  | parameter => cases scope <;> exact pure rfl

theorem addImportFor {name name' : String} (h : importOf? name' = importOf? name) :
    Mirrors id c (addImportFor name) (Compile.addImportFor name') :=
  of_ok (addImportFor_run name) (by rw [addImportFor_run, translated_importing c h, id])

theorem nameOf {t : TypeRef} (h : ¬ c.graph.Utters t) :
    Mirrors id c (nameOf t) (Compile.nameOf t) :=
  of_ok rfl (congrArg (fun name => Except.ok (name, c.translated)) (Graph.typeName_translated h))

/-- The import for a type, which needs no more than its name. -/
theorem importing (t : TypeRef) : Mirrors id c (Compile.nameOf t >>= Compile.addImportFor)
    (Compile.nameOf t >>= Compile.addImportFor) := by
  have hname := Graph.importOf?_typeName_translated c.graph t
  have hrun : (Compile.nameOf t >>= Compile.addImportFor) c =
      .ok ((), c.importing (c.graph.typeName t)) := by rw [nameOf_bind, addImportFor_run]
  refine of_ok hrun ?_
  rw [nameOf_bind, addImportFor_run, ← translated_importing c hname]
  rfl

theorem isMap (t : TypeRef) : Mirrors id c (isMap t) (Compile.isMap t) := by
  cases t with
  | builtin b => exact of_ok rfl rfl
  | node id =>
    refine of_ok rfl ?_
    have hn : c.translated.graph.node? id = (c.graph.node? id).map Node.translated :=
      Graph.node?_translated id
    simp only [Compile.isMap, hn]
    rcases c.graph.node? id with _ | n
    · rfl
    · cases n <;> rfl

/-! The same steps before other ones, with the state that they leave. -/

section Before

variable {k : γ → δ}

theorem newNode_bind (n : Node) {f : Nat → CompileM γ} {f' : Nat → CompileM δ}
    (hf : Mirrors k (c.withNode n) (f c.graph.size) (f' c.graph.size)) :
    Mirrors k c (Compile.newNode n >>= f) (Compile.newNode n.translated >>= f') :=
  (newNode n).bind fun a c₁ ha => by
    obtain ⟨rfl, rfl⟩ := Prod.mk.inj (Except.ok.inj ((newNode_run n).symm.trans ha))
    exact hf

theorem modify_bind {change change' : Compilation → Compilation}
    (h : change' c.translated = (change c).translated) {f : Unit → CompileM γ}
    {f' : Unit → CompileM δ} (hf : Mirrors k (change c) (f ()) (f' ())) :
    Mirrors k c (modify change >>= f) (modify change' >>= f') :=
  bind (k := id) (of_ok rfl (congrArg (fun c => Except.ok ((), c)) h)) fun a c₁ ha => by
    obtain ⟨rfl, rfl⟩ := Prod.mk.inj (Except.ok.inj ha)
    exact hf

theorem lookupType_bind (h : c.Ready scope) (name : String) (within : Scope)
    {f : Option TypeRef → CompileM γ} {f' : Option TypeRef → CompileM δ}
    (hf : ∀ found, c.registry.lookup c.graph name within = found →
      Mirrors k c (f found) (f' found)) :
    Mirrors k c (Compile.lookupType name within >>= f) (Compile.lookupType name within >>= f') :=
  (lookupType h name within).bind fun a c₁ ha => by
    obtain ⟨rfl, rfl⟩ := Prod.mk.inj (Except.ok.inj ha)
    exact hf _ rfl

theorem declareDefinition_bind (h : c.Ready scope) (t : TypeRef) {f : Unit → CompileM γ}
    {f' : Unit → CompileM δ} (hf : Mirrors k (c.declareHere scope t) (f ()) (f' ())) :
    Mirrors k c (Compile.declareDefinition scope (.type t) >>= f)
      (Compile.declareDefinition scope (.type t) >>= f') :=
  (declareDefinition h (.type t)).bind fun a c₁ ha => by
    obtain ⟨rfl, rfl⟩ := Prod.mk.inj (Except.ok.inj ((declareDefinition_run scope t).symm.trans ha))
    exact hf

theorem nameOf_bind {t : TypeRef} (h : ¬ c.graph.Utters t) {f : String → CompileM γ}
    {f' : String → CompileM δ}
    (hf : Mirrors k c (f (c.graph.typeName t)) (f' (c.graph.typeName t))) :
    Mirrors k c (Compile.nameOf t >>= f) (Compile.nameOf t >>= f') :=
  (nameOf h).bind fun a c₁ ha => by
    obtain ⟨rfl, rfl⟩ := Prod.mk.inj (Except.ok.inj ha)
    exact hf

theorem addImportFor_bind (name : String) {f : Unit → CompileM γ} {f' : Unit → CompileM δ}
    (hf : Mirrors k (c.importing name) (f ()) (f' ())) :
    Mirrors k c (Compile.addImportFor name >>= f) (Compile.addImportFor name >>= f') :=
  (addImportFor rfl).bind fun a c₁ ha => by
    obtain ⟨rfl, rfl⟩ := Prod.mk.inj (Except.ok.inj ((addImportFor_run name).symm.trans ha))
    exact hf

theorem importing_bind (t : TypeRef) {f : Unit → CompileM γ} {f' : Unit → CompileM δ}
    (hf : Mirrors k (c.importing (c.graph.typeName t)) (f ()) (f' ())) :
    Mirrors k c (Compile.nameOf t >>= fun name => Compile.addImportFor name >>= f)
      (Compile.nameOf t >>= fun name => Compile.addImportFor name >>= f') := by
  rw [← bind_assoc, ← bind_assoc]
  refine (importing t).bind fun a c₁ ha => ?_
  rw [Compile.nameOf_bind, addImportFor_run] at ha
  obtain ⟨rfl, rfl⟩ := Prod.mk.inj (Except.ok.inj ha)
  exact hf

end Before

theorem addField (message : Nat) (f : Proto.Field TypeRef Value) :
    Mirrors id c (addField message f) (Compile.addField message f) := by
  have hmessage : c.translated.graph.message? message = c.graph.message? message :=
    Graph.message?_mapNodes c.graph Node.relabelled_translated message
  have hput := Graph.put_message_mapNodes c.graph Node.relabelled_translated message
  constructor
  · intro a c₁ h
    unfold Compile.addField at h ⊢
    rw [hmessage]
    rcases hm : c.graph.message? message with _ | m <;> rw [hm] at h
    · obtain ⟨rfl, rfl⟩ := Prod.mk.inj (Except.ok.inj h)
      rfl
    · rcases hadd : m.addField f with e | m' <;> simp only [hadd, Except.map] at h ⊢
      · cases h
      · obtain ⟨rfl, rfl⟩ := Prod.mk.inj (Except.ok.inj h)
        exact congrArg (fun g => Except.ok ((), { c.translated with graph := g })) (hput m')
  · intro e h
    unfold Compile.addField at h ⊢
    rw [hmessage]
    rcases hm : c.graph.message? message with _ | m <;> rw [hm] at h
    · cases h
    · rcases hadd : m.addField f with e | m' <;> simp only [hadd, Except.map] at h ⊢
      · exact ⟨e, rfl⟩
      · cases h

theorem define (ref : String) (d : Definition) :
    Mirrors id c (define ref d) (Compile.define (translateRef ref) d) := by
  have hlookup : c.translated.definitions.lookup (translateRef ref) = c.definitions.lookup ref := by
    have hmap := lookup_map_translateRef c.definitions id ref
    rwa [Option.map_id] at hmap
  unfold Compile.define
  cases hfound : (c.definitions.lookup ref).isSome with
  | true => exact of_ok (if_pos hfound) (if_pos (hlookup ▸ hfound))
  | false =>
    have hfound := Bool.eq_false_iff.1 hfound
    refine of_ok (if_neg hfound) ?_
    rw [hlookup, if_neg hfound]
    simp [Compilation.translated]

theorem compileReference (ref : String) :
    Mirrors id c (compileReference ref) (Compile.compileReference (translateRef ref)) := by
  refine read ?_
  rw [Compilation.definition?_translated]
  rcases c.definition? ref with _ | d
  · refine read (ite .rfl (fun _ => ?_) fun _ => fail _ _)
    exact (newNode (.reference ref)).bind fun id _ _ => pure rfl
  · exact pure rfl

end Mirrors

end ApiProto.Compile
