import ApiProto.Compile.Package

/-!
# What a successful step does

A step that succeeds gives a result and a state. For each basic step, its result and its effect on
the state; for composed steps, the successful steps that they are made of.

* `Compilation.withNode`, `Compilation.declare`, `Compilation.importing` — the effects of the basic
  steps.
* `newNode_bind`, `declareIn_bind`, … — the run of a basic step before other steps.
* `bind_ok_iff`, `within_ok_iff`, `forM_ok_nil`, `forM_ok_cons` — the successes of composed steps.
-/

namespace ApiProto.Compile

open Proto Document CompileM

variable {α β : Type}

/-! ## Effects -/

namespace Compilation

/-- The state with a node more. -/
def withNode (c : Compilation) (n : Node) : Compilation := { c with graph := (c.graph.add n).1 }

/-- The state in which a message is known as the wrapper for a list of a type. -/
def remember (c : Compilation) (base : String) (wrapper : Nat) : Compilation :=
  { c with wrappers := c.wrappers ++ [(base, wrapper)] }

/-- The state after a type has been declared in a container, unless its name is taken. -/
def declare (c : Compilation) (scope : Scope) (parent : Nat) (t : TypeRef) : Compilation :=
  { c with
    graph := (c.registry.register c.graph t parent scope).2.1
    registry := (c.registry.register c.graph t parent scope).2.2 }

/-- The state after a type has been declared in the innermost container of a scope. -/
def declareHere (c : Compilation) (scope : Scope) (t : TypeRef) : Compilation :=
  match scope with
  | [] => c
  | parent :: _ => c.declare scope parent t

/-- The state with the import that a type name needs. -/
def importing (c : Compilation) (name : String) : Compilation :=
  match importOf? name with
  | some file => { c with graph := c.graph.addImport c.package file }
  | none => c

end Compilation

/-! ## Basic steps -/

section Basic

variable {c : Compilation}

@[simp] theorem pure_run (a : α) : (pure a : CompileM α) c = .ok (a, c) := rfl

@[simp] theorem pure_bind_run (a : α) (f : α → CompileM β) :
    ((pure a : CompileM α) >>= f) c = f a c := rfl

@[simp] theorem get_bind (f : Compilation → CompileM β) : (get >>= f) c = f c c := rfl

@[simp] theorem modify_run (k : Compilation → Compilation) :
    (modify k : CompileM Unit) c = .ok ((), k c) := rfl

@[simp] theorem modify_bind (k : Compilation → Compilation) (f : Unit → CompileM β) :
    (modify k >>= f) c = f () (k c) := rfl

@[simp] theorem newNode_run (n : Node) : newNode n c = .ok (c.graph.size, c.withNode n) := rfl

@[simp] theorem newNode_bind (n : Node) (f : Nat → CompileM β) :
    (newNode n >>= f) c = f c.graph.size (c.withNode n) := rfl

@[simp] theorem lookupType_bind (name : String) (scope : Scope)
    (f : Option TypeRef → CompileM β) :
    (lookupType name scope >>= f) c = f (c.registry.lookup c.graph name scope) c := rfl

@[simp] theorem declareIn_run (scope : Scope) (parent : Nat) (t : TypeRef) :
    declareIn scope parent t c = .ok ((), c.declare scope parent t) := rfl

@[simp] theorem declareIn_bind (scope : Scope) (parent : Nat) (t : TypeRef)
    (f : Unit → CompileM β) :
    (declareIn scope parent t >>= f) c = f () (c.declare scope parent t) := rfl

@[simp] theorem declareDefinition_run (scope : Scope) (t : TypeRef) :
    declareDefinition scope (.type t) c = .ok ((), c.declareHere scope t) := by
  cases scope <;> rfl

@[simp] theorem declareDefinition_bind (scope : Scope) (t : TypeRef) (f : Unit → CompileM β) :
    (declareDefinition scope (.type t) >>= f) c = f () (c.declareHere scope t) := by
  cases scope <;> rfl

@[simp] theorem addImportFor_run (name : String) :
    addImportFor name c = .ok ((), c.importing name) := by
  unfold addImportFor Compilation.importing
  rcases importOf? name with _ | file <;> rfl

@[simp] theorem addImportFor_bind (name : String) (f : Unit → CompileM β) :
    (addImportFor name >>= f) c = f () (c.importing name) := by
  show (addImportFor name c).bind (fun q => f q.1 q.2) = _
  rw [addImportFor_run]
  rfl

@[simp] theorem nameOf_bind (t : TypeRef) (f : String → CompileM β) :
    (nameOf t >>= f) c = f (c.graph.typeName t) c := rfl

theorem isMap_ok {t : TypeRef} {nested : Bool} {c' : Compilation}
    (h : isMap t c = .ok (nested, c')) : c = c' := by
  cases t with
  | builtin b => exact (Prod.mk.inj (Except.ok.inj h)).2
  | node id => exact (Prod.mk.inj (Except.ok.inj h)).2

end Basic

/-! ## Composed steps -/

theorem bind_ok_iff {m : CompileM α} {f : α → CompileM β} {c : Compilation}
    {p : β × Compilation} :
    (m >>= f) c = .ok p ↔ ∃ a c₁, m c = .ok (a, c₁) ∧ f a c₁ = .ok p := by
  show (m c).bind (fun q => f q.1 q.2) = .ok p ↔ _
  rcases m c with e | ⟨a, c₁⟩
  · simp [Except.bind]
  · constructor
    · exact fun h => ⟨a, c₁, rfl, h⟩
    · rintro ⟨_, _, hm, h⟩
      obtain ⟨rfl, rfl⟩ := Prod.mk.inj (Except.ok.inj hm)
      exact h

@[simp] theorem failWith_ok_iff {cause : Cause} {c : Compilation} {p : α × Compilation} :
    (failWith cause : CompileM α) c = .ok p ↔ False := by
  simp [failWith, fail]

@[simp] theorem throw_ok_iff {e : Error} {c : Compilation} {p : α × Compilation} :
    (throw e : CompileM α) c = .ok p ↔ False :=
  ⟨(nomatch ·), False.elim⟩

theorem ofResult_ok_iff {r : Except Error α} {c : Compilation} {p : α × Compilation} :
    ofResult r c = .ok p ↔ r = .ok p.1 ∧ c = p.2 := by
  rcases p with ⟨a, c'⟩
  rcases r with e | b
  · simp [ofResult, Except.map]
  · simp [ofResult, Except.map]

theorem eq_text_of_wordText {v : Value} {word : String} (h : v.wordText = .ok word) :
    v = .text word := by
  cases v <;> simp_all [Value.wordText, fail]

@[simp] theorem within_ok_iff {frame : String} {m : CompileM α} {c : Compilation}
    {p : α × Compilation} : within frame m c = .ok p ↔ m c = .ok p :=
  framed_ok_iff

theorem map_ok_iff {k : α → β} {m : CompileM α} {c : Compilation} {p : β × Compilation} :
    StateT.map k m c = .ok p ↔ ∃ a c₁, m c = .ok (a, c₁) ∧ (k a, c₁) = p := by
  show (m >>= fun a => pure (k a)) c = .ok p ↔ _
  simp only [bind_ok_iff, pure_run, Except.ok.injEq]

/-- Steps that leave the state alone, one for each item of a list. -/
theorem mapM_ok_state {f : α → CompileM β} (hf : ∀ a c b c', f a c = .ok (b, c') → c = c')
    {l : List α} {bs : List β} {c c' : Compilation} (h : l.mapM f c = .ok (bs, c')) : c = c' := by
  induction l generalizing c bs with
  | nil => exact (Prod.mk.inj (Except.ok.inj h)).2
  | cons a rest ih =>
    rw [List.mapM_cons] at h
    obtain ⟨b, c₁, hfirst, h⟩ := bind_ok_iff.1 h
    obtain ⟨others, c₂, hrest, h⟩ := bind_ok_iff.1 h
    obtain ⟨-, rfl⟩ := Prod.mk.inj (Except.ok.inj h)
    obtain rfl := hf a c b c₁ hfirst
    exact ih hrest

/-- A step for each item of a list. -/
theorem forM_ok_nil {f : α → CompileM Unit} {c c' : Compilation} :
    ([] : List α).forM f c = .ok ((), c') ↔ c' = c := by
  show (pure () : CompileM Unit) c = _ ↔ _
  simp [eq_comm]

theorem forM_ok_cons {f : α → CompileM Unit} {a : α} {l : List α} {c c' : Compilation} :
    (a :: l).forM f c = .ok ((), c') ↔ ∃ c₁, f a c = .ok ((), c₁) ∧ l.forM f c₁ = .ok ((), c') := by
  show (f a >>= fun _ => l.forM f) c = _ ↔ _
  rw [bind_ok_iff]
  exact ⟨fun ⟨_, c₁, h⟩ => ⟨c₁, h⟩, fun ⟨c₁, h⟩ => ⟨(), c₁, h⟩⟩

/-- What one step keeps is kept by a step for each item of a list. -/
theorem forM_ok_induct {f : α → CompileM Unit} {P : Compilation → Prop} {l : List α}
    (step : ∀ a ∈ l, ∀ c c', f a c = .ok ((), c') → P c → P c') {c c' : Compilation}
    (h : l.forM f c = .ok ((), c')) (start : P c) : P c' := by
  induction l generalizing c with
  | nil => exact forM_ok_nil.1 h ▸ start
  | cons a l ih =>
    obtain ⟨c₁, hfirst, hrest⟩ := forM_ok_cons.1 h
    refine ih (fun b hb => step b (List.mem_cons_of_mem _ hb)) hrest ?_
    exact step a (List.mem_cons_self ..) c c₁ hfirst start

/-! ## Parts of schemas -/

/-- A schema inside another one, with the ways to compile it. -/
def part (env : Environment) (s : Schema) : Part := ⟨s, compileSchema env s, compileItems env s⟩

theorem compileOption_eq_map (env : Environment) (o : Option Schema) :
    compileOption env o = o.map (compileSchema env) := by
  cases o <;> rfl

theorem compileItems_eq_map (env : Environment) (s : Schema) :
    compileItems env s = s.items.map (compileSchema env) := by
  cases s
  exact compileOption_eq_map env _

theorem part_items (env : Environment) {s i : Schema} (hi : s.items = some i) :
    (part env s).items = some (compileSchema env i) := by
  rw [part, compileItems_eq_map, hi, Option.map_some]

theorem partOption_eq_map (env : Environment) (o : Option Schema) :
    partOption env o = o.map (part env) := by
  cases o <;> rfl

theorem partList_eq_map (env : Environment) (l : List (String × Schema)) :
    partList env l = l.map fun entry => (entry.1, part env entry.2) := by
  induction l with
  | nil => rfl
  | cons entry rest ih =>
    rw [partList, ih, List.map_cons]
    rfl

/-- A schema is compiled along with the schemas inside it. -/
theorem compileSchema_eq (env : Environment) (s : Schema) : compileSchema env s =
    compileWith env s (s.items.map (compileSchema env)) (s.additional.map (part env))
      (partList env s.properties) := by
  cases s
  rw [compileSchema, compileOption_eq_map, partOption_eq_map]

end ApiProto.Compile
