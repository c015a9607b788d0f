import ApiProto.Document.Build
import ApiProto.Proofs.PrintedOptions
import ApiProto.Proofs.ResolutionAgreement

/-!
# The order of a description does not matter

Every phase goes through a table in the order of its keys, so descriptions that differ only in the
order in which their tables were written give the same text, or fail with the same error.

* `compileDefinitions_agree`, `compileParameters_agree`, `compilePaths_agree` — the phases that go
  through a table.
* `compileAll_agree` — all phases.
* `print_compile_eq_of_reordered` — reordered descriptions give the same text or error.
-/

namespace ApiProto.Compile

open Proto Document CompileM

variable {like : Likeness} {env env' : Environment}

/-! ## Phases -/

theorem compileDefinitions_agree (h : env.Reordered env') (scope : Scope) :
    Agree like Eq (compileDefinitions env scope) (compileDefinitions env' scope) := by
  have href : env'.spec.definitionsPrefix = env.spec.definitionsPrefix := by
    rw [h.spec.same]
  refine .forM h.spec.definitions.sortEntries.forall₂ fun x y hxy => ?_
  obtain ⟨name, s⟩ := x
  obtain ⟨name', s'⟩ := y
  obtain ⟨rfl, hs⟩ := hxy
  dsimp only at hs ⊢
  rw [href]
  cases hs with
  | mk hp hi ha =>
    refine .bind_eq (.within _ (compileSchema_agree h.akin (.mk hp hi ha) _ _ _)) fun d => ?_
    exact define_agree _ _

theorem isArray_eq {p p' : Parameter} (hp : Parameter.Reordered p p') : p'.isArray = p.isArray := by
  obtain ⟨-, hitems, hschema⟩ := hp
  have hsome : p'.items.isSome = p.items.isSome := by
    generalize p.items = items at hitems ⊢
    generalize p'.items = items' at hitems ⊢
    cases hitems <;> rfl
  have hany : (p'.schema.any fun s => s.types.contains "array") =
      p.schema.any fun s => s.types.contains "array" := by
    generalize p.schema = schema at hschema ⊢
    generalize p'.schema = schema' at hschema ⊢
    cases hschema with
    | none => rfl
    | some hs =>
      cases hs
      rfl
  simp only [Parameter.isArray, hsome, hany]

theorem compileParameters_agree (h : env.Reordered env') (scope : Scope) :
    Agree like Eq (compileParameters env scope) (compileParameters env' scope) := by
  have href : env'.spec.parametersPrefix = env.spec.parametersPrefix := by
    rw [h.spec.same]
  refine .forM h.spec.parameters.sortEntries.forall₂ fun x y hxy => ?_
  obtain ⟨name, p⟩ := x
  obtain ⟨name', p'⟩ := y
  obtain ⟨rfl, hp⟩ := hxy
  dsimp only at hp ⊢
  have hname : p'.name = p.name := by rw [hp.same]
  have htag : p'.tag = p.tag := by rw [hp.same]
  rw [href, hname, htag, isArray_eq hp]
  refine .bind_eq (.within _ (.bind (parameterSchema_agree hp) fun x y hxy => ?_)) fun d => ?_
  · obtain ⟨key, s⟩ := x
    obtain ⟨key', s'⟩ := y
    obtain ⟨-, hs⟩ := hxy
    cases hs with
    | mk hp hi ha => exact compileSchema_agree h.akin (.mk hp hi ha) _ _ _
  · refine .ite .rfl (fun _ => ?_) fun _ => ?_
    · exact .bind_eq (nameOf_agree _) fun _ => define_agree _ _
    · exact .bind_eq (.result _) fun _ => define_agree _ _

theorem compilePaths_agree (h : env.Reordered env') (scope : Scope) :
    Agree (.ofOptions canonicalOptions) Eq (compilePaths env scope) (compilePaths env' scope) := by
  refine .forM h.spec.paths.sortEntries.forall₂ fun x y hxy => ?_
  obtain ⟨path, item⟩ := x
  obtain ⟨path', item'⟩ := y
  obtain ⟨rfl, hi⟩ := hxy
  exact .within _ (compilePath_agree h scope path hi)

/-- Reordered descriptions are compiled in the same way, but for the order of custom options. -/
theorem compileAll_agree (h : env.Reordered env') :
    Agree (.ofOptions canonicalOptions) Eq (compileAll env) (compileAll env') := by
  have hextensions : env'.spec.extensions = env.spec.extensions := by
    rw [h.spec.same]
  unfold compileAll
  rw [h.options, hextensions]
  refine .read fun c c' hc => ?_
  rw [hc.package_eq]
  have hphases : ∀ _ : Unit, Agree (.ofOptions canonicalOptions) Eq _ _ := fun _ =>
    .bind_eq (.within "failed to compile definitions" (compileDefinitions_agree h [c.package])) fun _ =>
    .bind_eq (.within "failed to compile parameters" (compileParameters_agree h [c.package])) fun _ =>
    .bind_eq (.within "failed to resolve references" resolveAll_agree) fun _ =>
    .bind_eq (@Agree.modify _ (fun c => { c with deferring := false })
      (fun c => { c with deferring := false }) fun c c' hc => { hc with deferring_eq := rfl })
      fun _ =>
    .bind_eq (.forM_self env.spec.extensions compileExtension_agree) fun _ =>
    .ite (p := (!env.options.skipRpcs) = true) .rfl
      (fun _ => .bind_eq (.within "failed to compile paths" (compilePaths_agree h [c.package]))
        fun _ => checkResolved_agree)
      fun _ => checkResolved_agree
  exact .ite .rfl
    (fun _ => .bind_eq (addImport_agree (Likeness.importsKeep_ofOptions _ _)) hphases)
    fun _ => hphases ()

/-! ## Texts -/

theorem startOf_eq (h : env.Reordered env') : startOf env = startOf env' := by
  have htitle : env'.spec.title = env.spec.title := by
    rw [h.spec.same]
  have hoptions : sortEntries env'.spec.globalOptions = sortEntries env.spec.globalOptions :=
    h.spec.globalOptions.sortEntries.eq_of_eq.symm
  simp only [startOf, htitle, hoptions, h.options]

/-- The text of a compiled description is that of the state at the end of the compilation. -/
theorem print_compile_eq (options : Options) (indent : String) (spec : Spec) :
    (compile options spec).bind (Output.print indent) =
      (compileAll ⟨options, spec⟩ (startOf ⟨options, spec⟩)).bind fun p =>
        p.2.graph.print indent p.2.package := by
  show (((compileAll ⟨options, spec⟩).run (startOf ⟨options, spec⟩) >>= fun p =>
    pure ⟨p.2.graph, p.2.package⟩).bind (Output.print indent)) = _
  rw [StateT.run]
  rcases compileAll ⟨options, spec⟩ (startOf ⟨options, spec⟩) with e | p <;> rfl

/-- States that differ at most in the order of custom options are printed in the same way. -/
theorem print_eq_of_alike {c c' : Compilation} (h : c.Alike (.ofOptions canonicalOptions) c')
    (indent : String) : c.graph.print indent c.package = c'.graph.print indent c'.package := by
  rw [h.package_eq, ← Graph.print_canonicalOptions indent c.graph, h.graph.mapOptions_eq,
    Graph.print_canonicalOptions]

/-- Descriptions that differ only in the order of the entries of their tables give the same text,
or fail with the same error. -/
theorem print_compile_eq_of_reordered (options : Options) (indent : String) {spec spec' : Spec}
    (h : Spec.Reordered spec spec') :
    (compile options spec).bind (Output.print indent) =
      (compile options spec').bind (Output.print indent) := by
  have henv : Environment.Reordered ⟨options, spec⟩ ⟨options, spec'⟩ := ⟨rfl, h⟩
  have hruns := compileAll_agree henv _ _ (.refl (fun _ => rfl) (startOf ⟨options, spec⟩))
  rw [print_compile_eq, print_compile_eq, ← startOf_eq henv]
  generalize compileAll ⟨options, spec⟩ (startOf ⟨options, spec⟩) = run at hruns ⊢
  generalize compileAll ⟨options, spec'⟩ (startOf ⟨options, spec⟩) = run' at hruns ⊢
  refine Related.eq_of_eq (hruns.bind fun p p' hp => ?_)
  rw [print_eq_of_alike hp.2]
  exact .refl (fun _ => rfl) _

/-- Two named schemas, the first of which has two properties. -/
def petsInOrder : Spec := .ofDefinitions [
  ("Owner", .object [("name", .scalar "string")]),
  ("Pet", .object [("age", .scalar "integer"), ("owner", .reference "#/definitions/Owner")])]

/-- The same schemas the other way round. -/
def petsOutOfOrder : Spec := .ofDefinitions [
  ("Pet", .object [("owner", .reference "#/definitions/Owner"), ("age", .scalar "integer")]),
  ("Owner", .object [("name", .scalar "string")])]

theorem petsInOrder_reordered : Spec.Reordered petsInOrder petsOutOfOrder := by
  have hscalar : ∀ type, Schema.Reordered (.scalar type) (.scalar type) := fun _ =>
    .of_parts rfl .nil .none .none
  have href : ∀ ref, Schema.Reordered (.reference ref) (.reference ref) := fun _ =>
    .of_parts rfl .nil .none .none
  have howner : Schema.Reordered (.object [("name", .scalar "string")])
      (.object [("name", .scalar "string")]) :=
    .of_parts rfl (.of_entrywise (by decide) (.cons _ (hscalar _) .nil)) .none .none
  have hpet : Schema.Reordered
      (.object [("age", .scalar "integer"), ("owner", .reference "#/definitions/Owner")])
      (.object [("owner", .reference "#/definitions/Owner"), ("age", .scalar "integer")]) :=
    .of_parts rfl (.of_perm (by decide) (.swap _ _ _)
      (.cons _ (href _) (.cons _ (hscalar _) .nil))) .none .none
  exact ⟨rfl, .of_perm (by decide) (.swap _ _ _) (.cons _ hpet (.cons _ howner .nil)), .nil, .nil,
    .nil⟩

theorem print_compile_pets : Spec.Reordered petsInOrder petsOutOfOrder ∧
    (compile ⟨false, false, false, false, "pets"⟩ petsInOrder).bind (Output.print "  ") =
      (compile ⟨false, false, false, false, "pets"⟩ petsOutOfOrder).bind (Output.print "  ") :=
  ⟨petsInOrder_reordered, print_compile_eq_of_reordered _ _ petsInOrder_reordered⟩

end ApiProto.Compile
