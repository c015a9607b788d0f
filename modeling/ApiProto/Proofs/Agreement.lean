import ApiProto.Proofs.Likeness
import ApiProto.Compile.Package
import Mathlib.Data.List.Forall2

/-!
# Steps that agree

Two runs that start from states that are alike, and end in such states with related results, or with
the same error.

* `Related` — two results: related values, or the same error.
* `Agree` — two steps of which the runs go the same way.
* `Agree.bind`, `Agree.read`, `Agree.mapM`, `Agree.forM` — the rules for composed steps.
* `newNode_agree`, `declareIn_agree`, … — the basic steps.
-/

namespace ApiProto.Compile

open Proto Document CompileM

variable {α β γ δ : Type}

/-! ## Related results -/

/-- Two results of computations that may fail: related values, or the same error. -/
def Related (R : α → β → Prop) : Except Error α → Except Error β → Prop
  | .ok a, .ok b => R a b
  | .error e, .error e' => e = e'
  | _, _ => False

namespace Related

variable {R : α → β → Prop} {S : γ → δ → Prop} {r : Except Error α} {r' : Except Error β}

theorem refl {R : α → α → Prop} (hR : ∀ a, R a a) (r : Except Error α) : Related R r r := by
  cases r with
  | ok a => exact hR a
  | error e => rfl

theorem eq_of_eq {r r' : Except Error α} (h : Related Eq r r') : r = r' := by
  rcases r with e | a <;> rcases r' with e' | a'
  · exact congrArg Except.error h
  · exact h.elim
  · exact h.elim
  · exact congrArg Except.ok h

theorem imp {R' : α → β → Prop} (h : Related R r r') (hR : ∀ a b, R a b → R' a b) :
    Related R' r r' := by
  rcases r with e | a <;> rcases r' with e' | b
  · exact h
  · exact h.elim
  · exact h.elim
  · exact hR a b h

theorem bind {f : α → Except Error γ} {f' : β → Except Error δ} (h : Related R r r')
    (hf : ∀ a b, R a b → Related S (f a) (f' b)) : Related S (r.bind f) (r'.bind f') := by
  rcases r with e | a <;> rcases r' with e' | b
  · exact h
  · exact h.elim
  · exact h.elim
  · exact hf a b h

theorem map {f : α → γ} {f' : β → δ} (h : Related R r r') (hf : ∀ a b, R a b → S (f a) (f' b)) :
    Related S (r.map f) (r'.map f') := by
  rcases r with e | a <;> rcases r' with e' | b
  · exact h
  · exact h.elim
  · exact h.elim
  · exact hf a b h

theorem framed (frame : String) (h : Related R r r') :
    Related R (framed frame r) (ApiProto.framed frame r') := by
  rcases r with e | a <;> rcases r' with e' | b
  · exact congrArg (Error.within frame) h
  · exact h.elim
  · exact h.elim
  · exact h

end Related

/-! ## Steps -/

/-- Two states that differ at most in what cannot be told apart in their graphs. -/
structure Compilation.Alike (like : Likeness) (c c' : Compilation) : Prop where
  graph : c.graph.Like like c'.graph
  registry_eq : c'.registry = c.registry
  service_eq : c'.service = c.service
  definitions_eq : c'.definitions = c.definitions
  wrappers_eq : c'.wrappers = c.wrappers
  deferring_eq : c'.deferring = c.deferring

/-- Two steps that end alike when they start alike. -/
def Agree (like : Likeness) (R : α → β → Prop) (m : CompileM α) (m' : CompileM β) : Prop :=
  ∀ c c', c.Alike like c' →
    Related (fun p p' => R p.1 p'.1 ∧ p.2.Alike like p'.2) (m c) (m' c')

variable {like : Likeness}

namespace Compilation.Alike

variable {c c' : Compilation}

theorem refl (hrefl : ∀ n, like.alike n n) (c : Compilation) : c.Alike like c :=
  ⟨.refl hrefl c.graph, rfl, rfl, rfl, rfl, rfl⟩

theorem package_eq (h : c.Alike like c') : c'.package = c.package :=
  congrArg Registry.package h.registry_eq

theorem definition?_eq (h : c.Alike like c') (ref : String) :
    c'.definition? ref = c.definition? ref := by
  simp only [definition?, h.definitions_eq]

theorem table_eq (h : c.Alike like c') : c'.table = c.table := by
  rw [table, table, h.definitions_eq]

/-- Graphs that are alike can be put into states that are alike. -/
theorem withGraph (h : c.Alike like c') {g g' : Graph} (hg : g.Like like g') :
    Compilation.Alike like { c with graph := g } { c' with graph := g' } :=
  { h with graph := hg }

end Compilation.Alike

namespace Agree

variable {R : α → β → Prop} {S : γ → δ → Prop} {m : CompileM α} {m' : CompileM β}

theorem pure {a : α} {b : β} (h : R a b) :
    Agree like R (Pure.pure a : CompileM α) (Pure.pure b) :=
  fun _ _ hc => ⟨h, hc⟩

theorem bind {f : α → CompileM γ} {f' : β → CompileM δ} (h : Agree like R m m')
    (hf : ∀ a b, R a b → Agree like S (f a) (f' b)) : Agree like S (m >>= f) (m' >>= f') :=
  fun c c' hc => (h c c' hc).bind fun p p' hp => hf p.1 p'.1 hp.1 p.2 p'.2 hp.2

/-- Steps in sequence, the first two of which give the same result. -/
theorem bind_eq {m m' : CompileM α} {f : α → CompileM γ} {f' : α → CompileM δ}
    (h : Agree like Eq m m') (hf : ∀ a, Agree like S (f a) (f' a)) :
    Agree like S (m >>= f) (m' >>= f') :=
  h.bind fun a _ hab => hab ▸ hf a

/-- Steps that read the state. -/
theorem read {f : Compilation → CompileM γ} {f' : Compilation → CompileM δ}
    (hf : ∀ c c', c.Alike like c' → Agree like S (f c) (f' c')) :
    Agree like S (get >>= f) (get >>= f') :=
  fun c c' hc => hf c c' hc c c' hc

theorem modify {f f' : Compilation → Compilation}
    (hf : ∀ c c', c.Alike like c' → (f c).Alike like (f' c')) :
    Agree like Eq (MonadStateOf.modifyGet fun c => ((), f c))
      (MonadStateOf.modifyGet fun c => ((), f' c)) :=
  fun c c' hc => ⟨rfl, hf c c' hc⟩

theorem map {f : α → γ} {f' : β → δ} (h : Agree like R m m') (hf : ∀ a b, R a b → S (f a) (f' b)) :
    Agree like S (f <$> m) (f' <$> m') :=
  h.bind fun a b hab => pure (hf a b hab)

theorem failWith (cause : Cause) : Agree like R (failWith cause) (CompileM.failWith cause) :=
  fun _ _ _ => rfl

theorem ofResult {r : Except Error α} {r' : Except Error β} (h : Related R r r') :
    Agree like R (ofResult r) (CompileM.ofResult r') :=
  fun _ _ hc => h.map fun _ _ hab => ⟨hab, hc⟩

/-- A result that does not depend on the run. -/
theorem result (r : Except Error α) : Agree like Eq (CompileM.ofResult r) (CompileM.ofResult r) :=
  ofResult (.refl (fun _ => rfl) r)

theorem within (frame : String) (h : Agree like R m m') :
    Agree like R (within frame m) (CompileM.within frame m') :=
  fun c c' hc => (h c c' hc).framed frame

theorem ite {p q : Prop} [Decidable p] [Decidable q] {n : CompileM α} {n' : CompileM β}
    (hpq : p ↔ q) (hm : p → Agree like R m m') (hn : ¬p → Agree like R n n') :
    Agree like R (if p then m else n) (if q then m' else n') := by
  by_cases h : p
  · rw [if_pos h, if_pos (hpq.1 h)]
    exact hm h
  · rw [if_neg h, if_neg fun hq => h (hpq.2 hq)]
    exact hn h

variable {P : γ → δ → Prop} {l : List γ} {l' : List δ}

theorem mapM {f : γ → CompileM α} {f' : δ → CompileM β} (h : List.Forall₂ P l l')
    (hf : ∀ x y, P x y → Agree like R (f x) (f' y)) :
    Agree like (List.Forall₂ R) (l.mapM f) (l'.mapM f') := by
  induction h with
  | nil => exact pure .nil
  | cons hxy _ ih =>
    simp only [List.mapM_cons]
    refine (hf _ _ hxy).bind fun a b hab => ?_
    exact ih.bind fun as bs habs => pure (.cons hab habs)

theorem forM {f : γ → CompileM Unit} {f' : δ → CompileM Unit} (h : List.Forall₂ P l l')
    (hf : ∀ x y, P x y → Agree like Eq (f x) (f' y)) :
    Agree like Eq (l.forM f) (l'.forM f') := by
  induction h with
  | nil => exact pure rfl
  | cons hxy _ ih =>
    show Agree like Eq (f _ >>= fun _ => List.forM _ f) (f' _ >>= fun _ => List.forM _ f')
    exact (hf _ _ hxy).bind_eq fun _ => ih

/-- The same items, for which the steps give the same results. -/
theorem mapM_self {f f' : γ → CompileM α} (l : List γ) (hf : ∀ x, Agree like Eq (f x) (f' x)) :
    Agree like Eq (l.mapM f) (l.mapM f') := by
  have hitems : Agree like (List.Forall₂ Eq) (l.mapM f) (l.mapM f') :=
    mapM (List.forall₂_same.2 fun _ _ => rfl) fun x _ hxy => hxy ▸ hf x
  rwa [List.forall₂_eq_eq_eq] at hitems

theorem forM_self {f f' : γ → CompileM Unit} (l : List γ) (hf : ∀ x, Agree like Eq (f x) (f' x)) :
    Agree like Eq (l.forM f) (l.forM f') :=
  forM (List.forall₂_same.2 fun _ _ => rfl) fun x _ hxy => hxy ▸ hf x

end Agree

/-! ## Basic steps -/

theorem newNode_agree {n n' : Node} (h : like.alike n n') :
    Agree like Eq (newNode n) (newNode n') := by
  intro c c' hc
  obtain ⟨hgraph, hid⟩ := hc.graph.add h
  exact ⟨hid.symm, hc.withGraph hgraph⟩

/-- A new node of which the contents cannot differ. -/
theorem newNode_agree_self {n : Node} (h : n.isFixed = true) :
    Agree like Eq (newNode n) (newNode n) :=
  newNode_agree (like.fixed n h)

theorem lookupType_agree (name : String) (scope : Scope) :
    Agree like Eq (lookupType name scope) (lookupType name scope) := by
  intro c c' hc
  unfold lookupType
  rw [hc.registry_eq, hc.graph.lookup_eq]
  exact ⟨rfl, hc⟩

theorem declareIn_agree (scope : Scope) (parent : Nat) (t : TypeRef) :
    Agree like Eq (declareIn scope parent t) (declareIn scope parent t) := by
  intro c c' hc
  unfold declareIn
  rw [hc.registry_eq]
  obtain ⟨hgraph, hregistry⟩ := hc.graph.register c.registry t parent scope
  exact ⟨rfl, { hc with graph := hgraph, registry_eq := hregistry }⟩

theorem declareDefinition_agree (scope : Scope) (d : Definition) :
    Agree like Eq (declareDefinition scope d) (declareDefinition scope d) := by
  unfold declareDefinition
  split
  · exact declareIn_agree _ _ _
  · exact .pure rfl

theorem addImport_agree {file : String} (h : ImportsKeep like.alike file) :
    Agree like Eq (addImport file) (addImport file) := by
  intro c c' hc
  unfold addImport
  rw [hc.package_eq]
  exact ⟨rfl, hc.withGraph (hc.graph.addImport h c.package)⟩

theorem addImportFor_agree (name : String) :
    Agree like Eq (addImportFor name) (addImportFor name) := by
  unfold addImportFor
  split
  · next file hfile =>
    obtain ⟨before, after, heq, -⟩ := List.lookup_eq_some_iff.1 hfile
    exact addImport_agree (like.imports (name, file) (heq ▸ by simp))
  · exact .pure rfl

theorem nameOf_agree (t : TypeRef) : Agree like Eq (nameOf t) (nameOf t) := by
  intro c c' hc
  unfold nameOf
  rw [hc.graph.typeName_eq]
  exact ⟨rfl, hc⟩

theorem addField_agree (message : Nat) (f : Proto.Field TypeRef Value) :
    Agree like Eq (addField message f) (addField message f) := by
  intro c c' hc
  unfold addField
  rw [hc.graph.message?_eq]
  rcases c.graph.message? message with _ | m
  · exact ⟨rfl, hc⟩
  · refine .map (R := Eq) (.refl (fun _ => rfl) (m.addField f)) fun m' _ heq => heq ▸ ?_
    exact ⟨rfl, hc.withGraph (hc.graph.put (like.fixed (.message m') rfl) message)⟩

theorem define_agree (ref : String) (d : Definition) :
    Agree like Eq (define ref d) (define ref d) := by
  intro c c' hc
  unfold define
  rw [hc.definitions_eq]
  split
  · exact ⟨rfl, hc⟩
  · exact ⟨rfl, { hc with definitions_eq := rfl }⟩

theorem isMap_agree (t : TypeRef) : Agree like Eq (isMap t) (isMap t) := by
  intro c c' hc
  cases t with
  | builtin b => exact ⟨rfl, hc⟩
  | node id =>
    unfold isMap
    dsimp only
    refine ⟨?_, hc⟩
    refine hc.graph.node?_rec id rfl fun n n' hakin => ?_
    cases hakin <;> rfl

theorem compileReference_agree (ref : String) :
    Agree like Eq (compileReference ref) (compileReference ref) := by
  refine .read fun c c' hc => ?_
  rw [hc.definition?_eq]
  split
  · exact .pure rfl
  · refine .read fun c c' hc => ?_
    rw [hc.deferring_eq]
    split
    · exact .bind_eq (newNode_agree_self rfl) fun _ => .pure rfl
    · exact .failWith _

theorem compileReferenceValue_agree (ref : Value) :
    Agree like Eq (compileReferenceValue ref) (compileReferenceValue ref) :=
  .bind_eq (.result _) fun ref => compileReference_agree ref

theorem compileMultiType_agree (s : Schema) :
    Agree like Eq (compileMultiType s) (compileMultiType s) := by
  unfold compileMultiType
  split
  · split
    · exact .pure rfl
    · exact .failWith _
  · exact .pure rfl

theorem importedType_eq {g g' : Graph} (h : g.Like like g') (t : TypeRef) :
    importedType g' t = importedType g t := by
  cases t with
  | builtin b => rfl
  | node id =>
    unfold importedType
    dsimp only
    refine h.node?_rec id rfl fun n n' hakin => ?_
    cases hakin <;> rfl

theorem addPropertyField_agree (message : Nat) (p : CompiledProperty) (number : Int) :
    Agree like Eq (addPropertyField message p number) (addPropertyField message p number) := by
  refine .bind_eq (addField_agree _ _) fun _ => .read fun c c' hc => ?_
  rw [importedType_eq hc.graph]
  exact .bind_eq (nameOf_agree _) fun name => addImportFor_agree _

end ApiProto.Compile
