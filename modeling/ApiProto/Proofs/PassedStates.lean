import ApiProto.Proofs.Discipline
import ApiProto.Proofs.ResolutionCourse

/-!
# The states of a compilation

All states that the compilation of a description passes keep to every discipline that its start
keeps to: those in which operations are compiled, those in which references are resolved, and those
of a compilation that fails.

* `Discipline.Steady` — a phase of a compilation.
* `compileOperation_steady` — compiling an operation.
* `compileAll_steady` — compiling a description.
-/

namespace ApiProto.Compile

open Proto Document CompileM
open Course (Safe)

namespace Discipline

variable {D : Discipline} {scope : Scope} {c c₁ c' : Compilation} {α β : Type}

/-! ## Operations -/

theorem declareMessage_leads (hc : D.Holds scope c) (role : MessageRole)
    (typeName endpoint : String) {t : TypeRef} (ht : D.Ready scope c t) :
    D.Leads (declareMessage.course role scope typeName endpoint t) scope
      (fun t c' => D.Good c' t) c := by
  refine .read hc fun a ha => .ite (fun _ => .bind (Q := fun _ _ => False) ?_ fun _ _ _ h => h.elim)
    fun _ => ?_
  · exact .fail hc
  · exact .bind (declareDefinition_leads hc ht) fun _ _ hk h =>
      .pure hk.holds (D.good_of_settled h)

theorem compileRequest_leads (hc : D.Holds scope c) (env : Environment) (name : String)
    (parameters : List Parameter) :
    D.Leads (compileRequest.course env scope name parameters) scope
      (fun t c' => D.Good c' t) c := by
  refine .ite (fun _ => .pure hc (D.good_of_settled (D.builtin hc (by decide)))) fun _ =>
    .read hc fun s _ => .bind (.framed (compileSchema_leads env s _ _ _ _ hc)) fun d c₁ hk hd => ?_
  exact declareMessage_leads hk.holds _ _ _ (.inl hd)

theorem compileArrayResponse_leads (hc : D.Holds scope c) (env : Environment) (name : String)
    {typeName : String} (plain : Name.IsPlain typeName) (items : Schema) :
    D.Leads (compileArrayResponse.course env scope name typeName items) scope
      (fun t c' => D.Ready scope c' t) c := by
  refine .bind (.framed (compileSchema_leads env items _ _ _ _ hc)) fun d c₁ hk hd => ?_
  have hmade : Made (D.Good c₁) (.message ⟨typeName, [⟨d.unwrap, "items", 1, true, .text ""⟩], [],
      .text ""⟩) := by
    refine .message plain rfl fun f hf => ?_
    obtain rfl := List.mem_singleton.1 hf
    exact D.good_of_settled hd
  refine .bind (newNode_leads hk.holds hmade) ?_
  rintro _ _ hk' ⟨rfl, rfl⟩
  refine .read hk'.holds fun itemName _ => .bind (addImportFor_leads hk'.holds _)
    fun _ c₂ hk₂ hfresh => .pure hk₂.holds (.inr ⟨_, rfl, hfresh _ ?_⟩)
  exact D.fresh hk.holds hmade rfl

theorem compileResponseOf_leads (hc : D.Holds scope c) (env : Environment) {name : String}
    (plain : Name.IsPlain name) (s : Option Schema) :
    D.Leads (compileResponseOf.course env scope name s) scope (fun t c' => D.Good c' t) c := by
  cases s with
  | none => exact .pure hc (D.good_of_settled (D.builtin hc (by decide)))
  | some s =>
    refine .read hc fun items _ => ?_
    cases items with
    | some items =>
      exact .bind (compileArrayResponse_leads hc env name (plain.append (by decide)) items)
        fun t c₁ hk ht => declareMessage_leads hk.holds _ _ _ ht
    | none =>
      exact .bind (.framed (compileSchema_leads env s _ _ _ _ hc)) fun d c₁ hk hd =>
        declareMessage_leads hk.holds _ _ _ (.inl hd)

/-! ## Phases -/

variable {package : Nat}

/-- A phase of a compilation that keeps to a discipline. -/
def Steady (D : Discipline) {m : CompileM α} (t : Course compiling m) (package : Nat)
    (c : Compilation) : Prop :=
  t.Safe D.Passed (fun _ c' => D.Holds [package] c') c

theorem package_eq (hc : D.Holds [package] c) : c.package = package := by
  obtain ⟨inner, h⟩ := D.scope hc
  exact (List.cons.inj ((List.append_eq_singleton_iff.1 h.symm).resolve_right
    fun h => nomatch h.2).2).1

namespace Steady

variable {m : CompileM α} {f : α → CompileM β} {t : Course compiling m}

theorem once {h : compiling.Elementary m} (hc : D.Holds [package] c)
    (hm : ∀ a c', m c = .ok (a, c') → D.Holds [package] c') : D.Steady (.once h) package c :=
  Safe.once ⟨_, hc⟩ fun a c' ha =>
    have h := hm a c' (toOption_eq_some.1 ha)
    ⟨⟨_, h⟩, h⟩

theorem still {h : compiling.Still m} (hc : D.Holds [package] c) : D.Steady (.still h) package c :=
  Safe.still ⟨_, hc⟩ fun _ _ => hc

theorem framed {frame : String} (h : D.Steady t package c) :
    D.Steady (@Course.framed _ _ _ compiling _ frame _ t) package c :=
  Safe.framed h

theorem ite {p : Prop} [Decidable p] {m' : CompileM α} {t' : Course compiling m'}
    (h : D.Steady t package c) (h' : D.Steady t' package c) :
    D.Steady (Course.ite (p := p) t t') package c :=
  Safe.ite (fun _ => h) fun _ => h'

theorem bind {t' : ∀ a, Course compiling (f a)} (h : D.Steady t package c)
    (h' : ∀ a c', D.Holds [package] c' → D.Steady (t' a) package c') :
    D.Steady (t.bind t') package c :=
  Safe.bind h h'

theorem after {Q : α → Compilation → Prop} {t' : ∀ a, Course compiling (f a)}
    (h : D.Leads t [package] Q c)
    (h' : ∀ a c', D.Holds [package] c' → Q a c' → D.Steady (t' a) package c') :
    D.Steady (t.bind t') package c :=
  Safe.bind h fun a c' ha => h' a c' ha.1.holds ha.2

/-- A step that changes nothing, before other steps. -/
theorem read {h : compiling.Still m} {t' : ∀ a, Course compiling (f a)} (hc : D.Holds [package] c)
    (h' : ∀ a, m c = .ok (a, c) → D.Steady (t' a) package c) :
    D.Steady ((Course.still h).bind t') package c :=
  Safe.read ⟨_, hc⟩ fun a ha => h' a (toOption_eq_some.1 ha)

theorem forM {f : β → CompileM PUnit} {t : ∀ b, Course compiling (f b)} {l : List β}
    (hstep : ∀ b ∈ l, ∀ c, D.Holds [package] c → D.Steady (t b) package c)
    (hc : D.Holds [package] c) : D.Steady (Course.forM t l) package c :=
  Safe.forM (I := fun c => D.Holds [package] c) (fun _ hc => ⟨_, hc⟩) hstep hc

end Steady

/-! ## Named schemas and shared parameters -/

theorem define_steady (ref : String) {d : Definition} (hc : D.Holds [package] c)
    (hd : D.Settled [package] c d.unwrap) :
    D.Steady (Course.once (.define ref d)) package c := by
  obtain rfl := package_eq hc
  refine .once hc fun _ c' h => ?_
  obtain rfl : c.defining ref d = c' := by simpa using h
  exact D.defining ref hc hd

theorem compileDefinition_steady (hc : D.Holds [package] c) (env : Environment)
    (entry : String × Schema) :
    D.Steady (compileDefinition.course env [package] entry) package c :=
  .after (.framed (compileSchema_leads env entry.2 _ _ _ _ hc)) fun _ _ hc₁ hd =>
    define_steady _ hc₁ hd

theorem compileParameter_steady (hc : D.Holds [package] c) (env : Environment)
    (entry : String × Parameter) :
    D.Steady (compileParameter.course env [package] entry) package c := by
  refine .after (.framed (.read hc fun entry _ => compileSchema_leads env entry.2 _ _ _ _ hc))
    fun d c₁ hc₁ hd => .ite ?_ ?_
  · exact .read hc₁ fun _ _ => define_steady _ hc₁ hd
  · exact .read hc₁ fun _ _ => define_steady _ hc₁ hd

theorem compileDeclared_steady (hc : D.Holds [package] c) (env : Environment) :
    D.Steady (compileDeclared.course env [package]) package c :=
  .bind (.framed (.forM (fun entry _ _ hc => compileDefinition_steady hc env entry) hc))
    fun _ _ hc₁ => .framed (.forM (fun entry _ _ hc => compileParameter_steady hc env entry) hc₁)

theorem compileNamed_steady (hc : D.Holds [package] c) (env : Environment) :
    D.Steady (compileNamed.course env) package c := by
  obtain rfl := package_eq hc
  refine .read hc fun a ha => ?_
  obtain rfl := get_ok ha
  refine .ite (.after (addImport_leads hc _) fun _ _ hc₁ _ => ?_) (compileDeclared_steady hc env)
  exact compileDeclared_steady hc₁ env

/-! ## Resolution and extensions -/

theorem resolveAll_steady (hc : D.Holds [package] c) : D.Steady resolveAll.course package c := by
  obtain rfl := package_eq hc
  have h := resolveAll_stays c
  exact ⟨fun c' hc' => ⟨_, D.resolved hc (h.1 c' hc')⟩, fun a c' ha => D.resolved hc (h.2 a c' ha)⟩

theorem extensionFields_steady (hc : D.Holds [package] c)
    (fields : List Document.ExtensionField) :
    D.Steady (extensionFields.course fields) package c := by
  refine Safe.same (Safe.mapM (I := fun _ c => D.Holds [package] c) (fun _ _ hc => ⟨_, hc⟩)
    (fun f _ _ c hc => ?_) hc)
  exact Steady.read hc fun type _ => .after (addImportFor_leads hc type) fun _ _ hc₁ _ =>
    .still hc₁

theorem compileExtension_steady (hc : D.Holds [package] c) (e : Document.Extension) :
    D.Steady (compileExtension.course e) package c := by
  refine .bind (extensionFields_steady hc e.fields) fun fields c₁ hc₁ => .read hc₁ fun base _ =>
    .after (addImportFor_leads hc₁ base) fun _ c₂ hc₂ _ => ?_
  obtain rfl := package_eq hc₂
  obtain ⟨hnode, hextending⟩ := D.extension ⟨base, fields⟩ hc₂
  have hnew : ∀ a c', newNode (.extension ⟨base, fields⟩) c₂ = .ok (a, c') →
      a = c₂.graph.size ∧ c' = c₂.withNode (.extension ⟨base, fields⟩) := by
    intro a c' h
    obtain ⟨rfl, rfl⟩ := Prod.mk.inj (Except.ok.inj h)
    exact ⟨rfl, rfl⟩
  refine Safe.bind (Q := fun (a : Nat) c' =>
      a = c₂.graph.size ∧ c' = c₂.withNode (.extension ⟨base, fields⟩))
    (Safe.once ⟨_, hc₂⟩ fun a c' h => ?_) fun a c' h => ?_
  · obtain ⟨rfl, rfl⟩ := hnew a c' (toOption_eq_some.1 h)
    exact ⟨⟨_, hnode⟩, rfl, rfl⟩
  · obtain ⟨rfl, rfl⟩ := h
    refine Steady.once hnode fun _ c' h => ?_
    obtain rfl := (Prod.mk.inj (Except.ok.inj h)).2
    exact hextending

/-! ## Procedures -/

/-- What a step that keeps to a discipline results in is what it results in. -/
theorem Leads.run {m : CompileM α} {t : Course compiling m} {Q : α → Compilation → Prop}
    (h : D.Leads t scope Q c) : D.Leads t scope (fun a c' => Q a c' ∧ m c = .ok (a, c')) c :=
  ⟨h.1, fun a c' ha => ⟨(h.2 a c' ha).1, (h.2 a c' ha).2, toOption_eq_some.1 ha⟩⟩

/-- Imports leave the service as it is. -/
theorem node?_service_importing {s : Service TypeRef} {name : String}
    (hs : c.graph.node? c.service = some (.service s)) (h : addImportFor name c = .ok ((), c')) :
    c'.graph.node? c'.service = some (.service s) := by
  obtain rfl : c.importing name = c' := by simpa using h
  have hservice : (c.importing name).service = c.service := by
    unfold Compilation.importing
    split <;> rfl
  rw [hservice]
  exact node?_importing hs (fun _ => rfl) name

theorem addRpc_steady (hc : D.Holds [package] c) {rpc : Rpc TypeRef}
    (hrequest : D.Good c rpc.parameter) (hresponse : D.Good c rpc.response) :
    D.Steady (addRpc.course rpc) package c := by
  refine .read hc fun a ha => ?_
  obtain rfl := get_ok ha
  rcases hs : a.graph.service? a.service with _ | s
  · exact .still hc
  · refine .ite (.still hc) (.read hc fun _ _ => Safe.bind (addImportFor_leads hc _).run
      fun _ c₁ ⟨hk₁, h₁⟩ => Steady.read hk₁.holds fun _ _ =>
        Safe.bind (addImportFor_leads hk₁.holds _).run fun _ c₂ ⟨hk₂, h₂⟩ => ?_)
    have hnode := node?_service_importing
      (node?_service_importing (node?_of_service? hs) h₁.2) h₂.2
    have hholds := D.rpc hk₂.holds hnode (hk₂.good _ (hk₁.good _ hrequest))
      (hk₂.good _ (hk₁.good _ hresponse))
    refine Steady.once hk₂.holds fun _ c₃ h => ?_
    obtain rfl := (Prod.mk.inj (Except.ok.inj h)).2
    exact hholds

theorem compileOperation_steady (hc : D.Holds [package] c) (env : Environment) (path : String)
    (shared : List Parameter) (e : Endpoint) :
    D.Steady (compileOperation.course env [package] path shared e) package c := by
  refine .read hc fun identifier _ => .read hc fun summary _ => .read hc fun description _ =>
    Safe.bind (compileRequest_leads hc env _ _) fun request c₁ ⟨hk₁, hrequest⟩ =>
      Safe.bind (Leads.same (compileResponseOf_leads hk₁.holds env
        (Name.endpointName_plain e.verb.word path identifier) _))
        fun response c₂ ⟨hk₂, hresponse⟩ => Steady.ite ?_ ?_
  · refine Safe.bind (Leads.same (.read hk₂.holds fun _ _ => .pure hk₂.holds trivial) :
      D.Leads _ [package] (fun _ _ => True) _) fun _ c₃ ⟨hk₃, _⟩ => ?_
    exact addRpc_steady hk₃.holds (hk₃.good _ (hk₂.good _ hrequest)) (hk₃.good _ hresponse)
  · exact .read hk₂.holds fun _ _ => addRpc_steady hk₂.holds (hk₂.good _ hrequest) hresponse

theorem compilePathEntry_steady (hc : D.Holds [package] c) (env : Environment)
    (entry : String × PathItem) :
    D.Steady (compilePathEntry.course env [package] entry) package c :=
  .framed (.forM (fun e _ _ hc => compileOperation_steady hc env entry.1 _ e) hc)

/-! ## Descriptions -/

/-- From now on, references must have definitions. -/
theorem requireDefinitions_steady (hc : D.Holds [package] c) :
    D.Steady (Course.once (.modify fun c => { c with deferring := false })) package c := by
  obtain rfl := package_eq hc
  refine .once hc fun _ c' h => ?_
  obtain rfl := (Prod.mk.inj (Except.ok.inj h)).2
  exact D.deferring hc

theorem compilePhases_steady (hc : D.Holds [package] c) (env : Environment) :
    D.Steady (compilePhases.course env) package c := by
  refine .read hc fun a ha => ?_
  obtain rfl := get_ok ha
  obtain rfl := package_eq hc
  refine .bind (compileNamed_steady hc env) fun _ c₁ hc₁ =>
    .bind (.framed (resolveAll_steady hc₁)) fun _ c₂ hc₂ =>
      .bind (requireDefinitions_steady hc₂) fun _ c₃ hc₃ =>
        .bind (.forM (fun e _ _ hc => compileExtension_steady hc e) hc₃) fun _ c₄ hc₄ =>
          .ite (.framed ?_) (.still hc₄)
  exact .forM (fun entry _ _ hc => compilePathEntry_steady hc env entry) hc₄

/-- Compiling a description keeps to every discipline that its start keeps to. -/
theorem compileAll_steady (hc : D.Holds [package] c) (env : Environment) :
    D.Steady (compileAll.course env) package c :=
  Safe.same (Steady.bind (compilePhases_steady hc env) fun _ _ hc₁ => .still hc₁)

end Discipline

end ApiProto.Compile
