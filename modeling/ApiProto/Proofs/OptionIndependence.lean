import ApiProto.Proofs.OptionAgreement
import ApiProto.Proofs.Requests

/-!
# Options that do not interfere

Two options only change something in the package of a description, and nothing else. No lookup, no
name, no import and no error depends on what they change.

* `Node.Annotated` — nodes that differ in HTTP options, and in the import for these.
* `Node.Prefixed` — nodes that differ in whether the elements of an enum start with its name.
* `compile_annotate`, `compile_prefixEnums` — the runs with and without an option.
* `compile_twice` — with an option or without, a description gives packages that differ only in what
  the option changes, or fails with the same error.
-/

namespace ApiProto.Proto

/-! ## HTTP options -/

/-- The file in which HTTP options are declared. -/
def annotationsFile : String := "google/api/annotations.proto"

/-- Two procedures, the second of which has one HTTP option more, and the first has none. -/
def Rpc.Annotated (r r' : Rpc TypeRef) : Prop :=
  (∃ method path body, r' = { r with options := .http method path body :: r.options }) ∧
    ∀ option ∈ r.options, Compile.isHttp option = false

/-- Two nodes that differ at most in the HTTP options of procedures, which only the second one has
together with their import. -/
inductive Node.Annotated : Node → Node → Prop
  | package {p : Package} : annotationsFile ∉ p.imports →
      Node.Annotated (.package p) (.package { p with imports := annotationsFile :: p.imports })
  | service {s s' : Service TypeRef} : s'.name = s.name → List.Forall₂ Rpc.Annotated s.rpcs s'.rpcs →
      Node.Annotated (.service s) (.service s')
  | fixed {n : Node} : n.isFixed = true → Node.Annotated n n

namespace Node.Annotated

variable {p p' : Package} {n n' : Node}

theorem package_inv (h : Node.Annotated (.package p) (.package p')) :
    annotationsFile ∉ p.imports ∧ p' = { p with imports := annotationsFile :: p.imports } := by
  cases h with
  | package hnew => exact ⟨hnew, rfl⟩
  | fixed hfixed => cases hfixed

/-- What is the same in procedures with and without HTTP option. -/
theorem map_eq {β : Type} {f : Rpc TypeRef → β}
    (hf : ∀ r options, f { r with options := options } = f r) {rpcs rpcs' : List (Rpc TypeRef)}
    (h : List.Forall₂ Rpc.Annotated rpcs rpcs') : rpcs'.map f = rpcs.map f := by
  induction h with
  | nil => rfl
  | cons hr _ ih =>
    obtain ⟨⟨_, _, _, rfl⟩, -⟩ := hr
    rw [List.map_cons, List.map_cons, ih, hf]

theorem akin (h : n.Annotated n') : n.Akin n' := by
  cases h with
  | package => exact .package rfl rfl
  | fixed => exact .same _
  | service hname hrpcs =>
    refine .service hname (map_eq (fun _ _ => rfl) hrpcs) ?_
    rw [mentions, mentions, List.flatMap_def, List.flatMap_def, map_eq (fun _ _ => rfl) hrpcs]

theorem importsKeep {file : String} (hfile : file ≠ annotationsFile) :
    ImportsKeep Node.Annotated file := by
  intro p p' h
  obtain ⟨hnew, rfl⟩ := h.package_inv
  refine ⟨by simp [hfile], .package (p := { p with imports := p.imports ++ [file] }) ?_⟩
  simpa [hfile.symm] using hnew

end Node.Annotated

/-- Nodes count as alike if they differ at most in HTTP options. -/
def Likeness.annotated : Likeness where
  alike := Node.Annotated
  akin := Node.Annotated.akin
  fixed _ h := .fixed h
  children p p' t h := by
    obtain ⟨hnew, rfl⟩ := h.package_inv
    exact .package (p := { p with children := p.children ++ [t] }) hnew
  imports entry hentry := Node.Annotated.importsKeep (by revert entry; decide)

/-! ## Elements of enums -/

/-- Two nodes that are the same, or enums of the same values: as they are listed, and starting with
the name of the enum. -/
inductive Node.Prefixed : Node → Node → Prop
  | same (n : Node) : Node.Prefixed n n
  | enumeration (name : String) (choices : List String) :
      Node.Prefixed (.enumeration (Compile.enumerationOf false name choices))
        (.enumeration (Compile.enumerationOf true name choices))

theorem Node.Prefixed.akin {n n' : Node} (h : n.Prefixed n') : n.Akin n' := by
  cases h with
  | same => exact .same _
  | enumeration => exact .enumeration rfl

theorem Node.Prefixed.package_eq {p p' : Package} (h : Node.Prefixed (.package p) (.package p')) :
    p' = p := by
  cases h
  rfl

/-- Nodes count as alike if they differ at most in the elements of enums. -/
def Likeness.prefixed : Likeness where
  alike := Node.Prefixed
  akin := Node.Prefixed.akin
  fixed n _ := .same n
  children p p' t h := by
    obtain rfl := h.package_eq
    exact .same _
  imports _ _ p p' h := by
    obtain rfl := h.package_eq
    exact ⟨rfl, .same _⟩

end ApiProto.Proto

namespace ApiProto.Compile

open Proto Document CompileM

/-- Two outcomes with the same package, in graphs that are alike. -/
structure Output.Like (like : Likeness) (o o' : Output) : Prop where
  package_eq : o'.package = o.package
  graph : o.graph.Like like o'.graph

variable {like : Likeness} {options : Options} {spec : Spec}

/-- Two runs that go the same way give packages that are alike, or the same error. -/
theorem compile_related {options' : Options}
    (hrun : Related (fun p p' => p.1 = p'.1 ∧ p.2.Alike like p'.2)
      (compileAll ⟨options, spec⟩ (startOf ⟨options, spec⟩))
      (compileAll ⟨options', spec⟩ (startOf ⟨options', spec⟩))) :
    Related (Output.Like like) (compile options spec) (compile options' spec) := by
  have hout : ∀ p p' : Unit × Compilation, p.1 = p'.1 ∧ p.2.Alike like p'.2 →
      Related (Output.Like like) (.ok ⟨p.2.graph, p.2.package⟩) (.ok ⟨p'.2.graph, p'.2.package⟩) :=
    fun p p' hp => ⟨hp.2.package_eq, hp.2.graph⟩
  exact hrun.bind hout

/-! ## With and without HTTP options -/

/-- With HTTP options and without, descriptions cannot be told apart. -/
theorem twin_annotate {base : String} (hbase : spec.basePath = .text base) :
    Environment.Twin .annotated ⟨{ options with annotate := false }, spec⟩
      ⟨{ options with annotate := true }, spec⟩ where
  akin := ⟨rfl, .refl _, fun _ _ _ => .fixed rfl⟩
  spec := rfl
  annotation verb path parameters := by
    obtain ⟨method, full, body, hoption⟩ : ∃ method full body,
        httpOption spec verb path parameters = .ok (.http method full body) := by
      unfold httpOption
      rw [hbase]
      split <;> exact ⟨_, _, _, rfl⟩
    have hon : annotationOf ⟨{ options with annotate := true }, spec⟩ verb path parameters =
        .ok [.http method full body] := by
      rw [annotationOf, if_pos rfl, hoption]
      rfl
    rw [hon]
    intro rpc s s' hs hplain
    cases hs with
    | service hname hrpcs =>
      refine .service hname (List.rel_append hrpcs (.cons ⟨⟨method, full, body, rfl⟩, hplain⟩ .nil))
    | fixed hfixed => cases hfixed

/-- An empty package and the same one with the import for HTTP options are alike. -/
theorem start_annotated (c : Compilation) (hc : ∃ packageName serviceName options,
    c = start packageName serviceName options) :
    c.Alike .annotated { c with graph := c.graph.addImport c.package annotationsFile } := by
  obtain ⟨packageName, serviceName, options, rfl⟩ := hc
  refine ⟨⟨rfl, fun id => ?_⟩, rfl, rfl, rfl, rfl, rfl⟩
  match id with
  | 0 => exact .some (.package (p := ⟨packageName, [], options, [.node 1]⟩) (by simp))
  | 1 => exact .some (.service rfl .nil)
  | _ + 2 => exact .none

theorem compile_annotate {base : String} (hbase : spec.basePath = .text base) :
    Related (Output.Like .annotated) (compile { options with annotate := false } spec)
      (compile { options with annotate := true } spec) := by
  refine compile_related ?_
  rw [compileAll_eq_body, compileAll_eq_body]
  exact compileBody_agree_self (twin_annotate hbase) rfl _ _ _
    (start_annotated _ (startOf_is_start _))

/-! ## Elements of enums with and without the name of the enum -/

/-- Whether the elements of enums start with its name cannot be told apart. -/
theorem twin_prefixEnums : Environment.Twin .prefixed ⟨{ options with prefixEnums := false }, spec⟩
    ⟨{ options with prefixEnums := true }, spec⟩ where
  akin := {
    wrapPrimitives := rfl
    reserved := .refl _
    enumeration := by
      intro nested name choices
      cases nested with
      | true => exact .same _
      | false => exact .enumeration name choices }
  spec := rfl
  annotation verb path parameters := by
    refine .refl (fun first rpc s s' hs _ => ?_) _
    cases hs with
    | same => exact .same _

theorem compile_prefixEnums :
    Related (Output.Like .prefixed) (compile { options with prefixEnums := false } spec)
      (compile { options with prefixEnums := true } spec) := by
  refine compile_related ?_
  have hstart : Compilation.Alike .prefixed (startOf ⟨{ options with prefixEnums := false }, spec⟩)
      (startOf ⟨{ options with prefixEnums := false }, spec⟩) :=
    .refl Node.Prefixed.same _
  have hbody : ∀ scope, Agree .prefixed Eq
      (compileBody ⟨{ options with prefixEnums := false }, spec⟩ scope)
      (compileBody ⟨{ options with prefixEnums := true }, spec⟩ scope) :=
    compileBody_agree_self twin_prefixEnums rfl
  rw [compileAll_eq_body, compileAll_eq_body]
  refine Agree.read (fun c c' hc => ?_) _ _ hstart
  rw [hc.package_eq]
  refine .ite .rfl (fun _ => .bind_eq (addImport_agree ?_) fun _ => hbody _) fun _ => hbody _
  intro p p' hp
  obtain rfl := hp.package_eq
  exact ⟨rfl, .same _⟩

/-! ## Both options -/

/-- With HTTP options and without, a description gives packages that differ only in these and their
import, or fails with the same error; and with the names of enums before their elements and without,
it gives packages that differ only in the elements, or fails with the same error. -/
theorem compile_twice (options : Options) (hbase : ∃ base, spec.basePath = .text base) :
    Related (Output.Like .annotated) (compile { options with annotate := false } spec)
        (compile { options with annotate := true } spec) ∧
      Related (Output.Like .prefixed) (compile { options with prefixEnums := false } spec)
        (compile { options with prefixEnums := true } spec) := by
  obtain ⟨base, hbase⟩ := hbase
  exact ⟨compile_annotate hbase, compile_prefixEnums⟩

/-- Three colours, one of them a number, and an operation that takes one of them. -/
def colours : Spec := { Spec.ofOperation []
    ⟨"/pets", [], .taking .get "find" [{ Parameter.scalar "colour" "query" "string" with
      choices := ["red", "blue", "7"] }]⟩ with
  basePath := .text "/v1"
  definitions := [("Colour", .enumeration ["red", "blue", "7"])] }

theorem compile_twice_colours : (∃ base, colours.basePath = .text base) ∧
    (∃ o, compile ⟨false, false, false, false, "pets"⟩ colours = .ok o) ∧
    Related (Output.Like .annotated) (compile ⟨false, false, false, false, "pets"⟩ colours)
        (compile ⟨true, false, false, false, "pets"⟩ colours) ∧
      Related (Output.Like .prefixed) (compile ⟨false, false, false, false, "pets"⟩ colours)
        (compile ⟨false, false, true, false, "pets"⟩ colours) := by
  obtain ⟨c, hcompile, -⟩ := compile_of_compilesTo
    (show compilesTo ⟨false, false, false, false, "pets"⟩ colours (fun c =>
      c.graph.children c.package != []) = true by decide +kernel)
  exact ⟨⟨_, rfl⟩, ⟨_, hcompile⟩,
    compile_twice ⟨false, false, false, false, "pets"⟩ ⟨_, rfl⟩⟩

end ApiProto.Compile
