import ApiProto.Proofs.CompilationCourse
import ApiProto.Proofs.Placeholders
import ApiProto.Proofs.Resolution

/-!
# Disciplines

What holds of every state of a compilation is proved of each kind of elementary step, once, and
follows for all steps that are made of them. A discipline is what has to be proved of the elementary
steps: what holds of a state while something is compiled in a scope, and which types may stand at
which places.

* `Discipline` — an invariant of compilations, kept by the elementary steps.
* `Discipline.Leads` — a step that passes no other states and keeps the invariant.
* `compileSchema_leads` — compiling a schema keeps to every discipline.
-/

namespace ApiProto.Compile

open Proto Document CompileM
open Course (Safe)

/-- A new node, of which the types are good. -/
inductive Made (Good : TypeRef → Prop) : Node → Prop
  | reference (ref : String) : Made Good (.reference ref)
  | map {value : TypeRef} : Good value → Made Good (.map (.builtin .string) value)
  | enumeration {e : Enumeration} : Name.IsPlain e.name → Made Good (.enumeration e)
  | message {m : Message} : Name.IsPlain m.name → m.children = [] →
      (∀ f ∈ m.fields, Good f.type) → Made Good (.message m)

/-- The state with a procedure in its service. -/
def Compilation.withRpc (c : Compilation) (s : Service TypeRef) (rpc : Rpc TypeRef) : Compilation :=
  { c with graph := c.graph.put c.service (.service { s with rpcs := s.rpcs ++ [rpc] }) }

/-- An invariant of compilations that the elementary steps keep. -/
structure Discipline where
  /-- What holds of a state while something is compiled in a scope. -/
  Holds : Scope → Compilation → Prop
  /-- The types that fields, maps and procedures may have. -/
  Good : Compilation → TypeRef → Prop
  /-- The types that may come out of a schema in a scope. -/
  Settled : Scope → Compilation → TypeRef → Prop
  /-- The messages and enums that have been made in a scope and are still to be declared. -/
  Fresh : Scope → Compilation → Nat → Prop
  scope : ∀ {scope c}, Holds scope c → ∃ inner, scope = inner ++ [c.package]
  good_of_settled : ∀ {scope c t}, Settled scope c t → Good c t
  good_of_fresh : ∀ {scope c id}, Fresh scope c id → Good c (.node id)
  builtin : ∀ {scope c b}, Holds scope c → ¬ b.IsPlaceholder → Settled scope c (.builtin b)
  scalar : ∀ {scope c b}, Holds scope c → Good c (.builtin b) →
    (∀ format, Settled scope c (.builtin (b.withFormat format))) ∧
    Settled scope c (.builtin b.boxed)
  found : ∀ {scope c name id}, Holds scope c →
    c.registry.lookup c.graph name scope = some (.node id) → Settled scope c (.node id)
  definition : ∀ {scope c entry}, Holds scope c → entry ∈ c.definitions →
    Settled scope c entry.2.unwrap
  wrapper : ∀ {scope c entry}, Holds scope c → entry ∈ c.wrappers → Good c (.node entry.2)
  withNode : ∀ {scope c n}, Holds scope c → Made (Good c) n →
    Holds scope (c.withNode n) ∧ ∀ t, Good c t → Good (c.withNode n) t
  fresh : ∀ {scope c n}, Holds scope c → Made (Good c) n → n.isDeclared = true →
    Fresh scope (c.withNode n) c.graph.size
  settled : ∀ {scope c n}, Holds scope c → Made (Good c) n → n.isDeclared = false →
    Settled scope (c.withNode n) (.node c.graph.size)
  enter : ∀ {scope c name comment}, Holds scope c → Name.IsPlain name →
    Holds (c.graph.size :: scope) (c.withNode (.message ⟨name, [], [], comment⟩))
  leave : ∀ {scope c c' message}, Holds scope c → Holds (message :: scope) c' →
    Holds scope c' ∧ Fresh scope c' message
  declareHere : ∀ {scope c t}, Holds scope c →
    Settled scope c t ∨ (∃ id, t = .node id ∧ Fresh scope c id) →
    Holds scope (c.declareHere scope t) ∧ (∀ s, Good c s → Good (c.declareHere scope t) s) ∧
      Settled scope (c.declareHere scope t) t
  declareShared : ∀ {scope c id}, Holds scope c → Fresh scope c id →
    Holds scope (c.declare scope c.package (.node id)) ∧
      ∀ t, Good c t → Good (c.declare scope c.package (.node id)) t
  addField : ∀ {scope c c' message f}, Holds scope c → Good c f.type →
    addField message f c = .ok ((), c') → Holds scope c' ∧ ∀ t, Good c t → Good c' t
  importFile : ∀ {scope c} file, Holds scope c → Holds scope (c.importFile file) ∧
    (∀ t, Good c t → Good (c.importFile file) t) ∧
      ∀ id, Fresh scope c id → Fresh scope (c.importFile file) id
  remember : ∀ {scope c id} base, Holds scope c → Fresh scope c id →
    Holds scope (c.remember base id) ∧ (∀ t, Good c t → Good (c.remember base id) t) ∧
      Fresh scope (c.remember base id) id
  defining : ∀ {c d} ref, Holds [c.package] c → Settled [c.package] c d.unwrap →
    Holds [c.package] (c.defining ref d)
  resolved : ∀ {c c'}, Holds [c.package] c → c.Resolved c' → Holds [c.package] c'
  deferring : ∀ {c}, Holds [c.package] c → Holds [c.package] { c with deferring := false }
  extension : ∀ {c} e, Holds [c.package] c → Holds [c.package] (c.withNode (.extension e)) ∧
    Holds [c.package] (c.extending e)
  rpc : ∀ {scope c s rpc}, Holds scope c → c.graph.node? c.service = some (.service s) →
    Good c rpc.parameter → Good c rpc.response → Holds scope (c.withRpc s rpc)

namespace Discipline

variable {D : Discipline} {scope : Scope} {c c₁ c' : Compilation} {α β : Type}

/-- A state that a compilation in a scope may pass. -/
def Passed (D : Discipline) (c : Compilation) : Prop := ∃ scope, D.Holds scope c

/-- What is kept from one state to another. -/
structure Kept (D : Discipline) (scope : Scope) (c c' : Compilation) : Prop where
  holds : D.Holds scope c'
  good : ∀ t, D.Good c t → D.Good c' t

theorem Kept.refl (hc : D.Holds scope c) : D.Kept scope c c := ⟨hc, fun _ ht => ht⟩

theorem Kept.trans (h : D.Kept scope c c₁) (h' : D.Kept scope c₁ c') : D.Kept scope c c' :=
  ⟨h'.holds, fun t ht => h'.good t (h.good t ht)⟩

/-- A type that may be declared. -/
def Ready (D : Discipline) (scope : Scope) (c : Compilation) (t : TypeRef) : Prop :=
  D.Settled scope c t ∨ ∃ id, t = .node id ∧ D.Fresh scope c id

theorem Ready.good {t : TypeRef} (h : D.Ready scope c t) : D.Good c t := by
  rcases h with h | ⟨id, rfl, h⟩
  · exact D.good_of_settled h
  · exact D.good_of_fresh h

/-- A step that keeps to a discipline, with what holds of its result. -/
def Leads (D : Discipline) {m : CompileM α} (t : Course compiling m) (scope : Scope)
    (Q : α → Compilation → Prop) (c : Compilation) : Prop :=
  t.Safe D.Passed (fun a c' => D.Kept scope c c' ∧ Q a c') c

namespace Leads

variable {m : CompileM α} {Q Q' : α → Compilation → Prop}

theorem still {h : compiling.Still m} (hc : D.Holds scope c)
    (hm : ∀ a, m c = .ok (a, c) → Q a c) : D.Leads (.still h) scope Q c :=
  Safe.still ⟨scope, hc⟩ fun a ha => ⟨.refl hc, hm a (toOption_eq_some.1 ha)⟩

theorem pure {a : α} {h : compiling.Still (pure a : CompileM α)} (hc : D.Holds scope c)
    (ha : Q a c) : D.Leads (.still h) scope Q c :=
  Safe.pure ⟨scope, hc⟩ ⟨.refl hc, ha⟩

theorem fail {cause : Cause} {h : compiling.Still (failWith cause : CompileM α)}
    (hc : D.Holds scope c) : D.Leads (.still h) scope Q c :=
  still hc fun _ ha => (failWith_ok_iff.1 ha).elim

theorem once {h : compiling.Elementary m} (hc : D.Holds scope c)
    (hm : ∀ a c', m c = .ok (a, c') → D.Kept scope c c' ∧ Q a c') :
    D.Leads (.once h) scope Q c :=
  Safe.once ⟨scope, hc⟩ fun a c' ha =>
    have h := hm a c' (toOption_eq_some.1 ha)
    ⟨⟨scope, h.1.holds⟩, h⟩

theorem bind {f : α → CompileM β} {t : Course compiling m} {t' : ∀ a, Course compiling (f a)}
    {R : β → Compilation → Prop} (h : D.Leads t scope Q c)
    (h' : ∀ a c', D.Kept scope c c' → Q a c' → D.Leads (t' a) scope R c') :
    D.Leads (t.bind t') scope R c :=
  Safe.bind h fun a c' ha => (h' a c' ha.1 ha.2).mono fun _ _ hb => ⟨ha.1.trans hb.1, hb.2⟩

/-- A step that changes nothing, before other steps. -/
theorem read {h : compiling.Still m} {f : α → CompileM β} {t' : ∀ a, Course compiling (f a)}
    {R : β → Compilation → Prop} (hc : D.Holds scope c)
    (h' : ∀ a, m c = .ok (a, c) → D.Leads (t' a) scope R c) :
    D.Leads ((Course.still h).bind t') scope R c :=
  Safe.read ⟨scope, hc⟩ fun a ha => h' a (toOption_eq_some.1 ha)

theorem framed {frame : String} {t : Course compiling m} (h : D.Leads t scope Q c) :
    D.Leads (@Course.framed _ _ _ compiling _ frame _ t) scope Q c :=
  Safe.framed h

theorem same {m' : CompileM α} {heq : m = m'} {t : Course compiling m} (h : D.Leads t scope Q c) :
    D.Leads (Course.same heq t) scope Q c :=
  Safe.same h

theorem ite {p : Prop} [Decidable p] {m' : CompileM α} {t : Course compiling m}
    {t' : Course compiling m'} (h : p → D.Leads t scope Q c) (h' : ¬ p → D.Leads t' scope Q c) :
    D.Leads (Course.ite (p := p) t t') scope Q c :=
  Safe.ite h h'

theorem mono {t : Course compiling m} (h : D.Leads t scope Q c) (hQ : ∀ a c', Q a c' → Q' a c') :
    D.Leads t scope Q' c :=
  Safe.mono h fun a c' ha => ⟨ha.1, hQ a c' ha.2⟩

/-- Steps inside a new message, seen from outside. -/
theorem leave {message : Nat} {t : Course compiling m} (hc : D.Holds scope c₁)
    (h : D.Leads t (message :: scope) Q c) :
    D.Leads t scope (fun a c' => D.Fresh scope c' message ∧ Q a c') c :=
  Safe.mono h fun _ _ ⟨hk, ha⟩ =>
    have hout := D.leave hc hk.holds
    ⟨⟨hout.1, hk.good⟩, hout.2, ha⟩

theorem forM {f : β → CompileM PUnit} {t : ∀ b, Course compiling (f b)} {l : List β}
    {I : Compilation → Prop}
    (hstep : ∀ b ∈ l, ∀ c, D.Holds scope c → I c → D.Leads (t b) scope (fun _ => I) c)
    (hc : D.Holds scope c) (hi : I c) : D.Leads (Course.forM t l) scope (fun _ => I) c := by
  refine (Safe.forM (I := fun c' => D.Kept scope c c' ∧ I c') (fun c' h => ⟨scope, h.1.holds⟩)
    (fun b hb c' h => ?_) ⟨.refl hc, hi⟩)
  exact Safe.mono (hstep b hb c' h.1.holds h.2) fun _ _ h' => ⟨h.1.trans h'.1, h'.2⟩

end Leads

/-! ## Builtin types -/

theorem get_ok {a : Compilation} (h : (get : CompileM Compilation) c = .ok (a, c')) : a = c :=
  (Prod.mk.inj (Except.ok.inj h)).1.symm

theorem lookupType_ok {name : String} {found : Option TypeRef}
    (h : lookupType name scope c = .ok (found, c')) :
    c.registry.lookup c.graph name scope = found :=
  (Prod.mk.inj (Except.ok.inj h)).1

/-- A type stays ready when it is given a format. -/
theorem Ready.withFormat (hc : D.Holds scope c) {t : TypeRef} (h : D.Ready scope c t)
    (format : String) : D.Ready scope c (withFormat format t) := by
  cases t with
  | builtin b => exact .inl ((D.scalar hc h.good).1 format)
  | node id => exact h

theorem Ready.boxed (hc : D.Holds scope c) {t : TypeRef} (h : D.Ready scope c t) :
    D.Ready scope c (boxed t) := by
  cases t with
  | builtin b => exact .inl (D.scalar hc h.good).2
  | node id => exact h

/-- What a name denotes, once it has a format. -/
theorem settled_of_lookup (hc : D.Holds scope c) {name : String} {t : TypeRef}
    (h : c.registry.lookup c.graph name scope = some t) (format : String) :
    D.Settled scope c (withFormat format t) := by
  cases t with
  | node id => exact D.found hc h
  | builtin b =>
    have hreserved := Registry.reserved_of_lookup h
    exact D.builtin hc (Builtin.not_isPlaceholder_of_reserved hreserved format)

/-! ## Declarations, imports and references -/

theorem declareDefinition_leads (hc : D.Holds scope c) {t : TypeRef} (ht : D.Ready scope c t) :
    D.Leads (declareDefinition.course scope (.type t)) scope
      (fun _ c' => D.Settled scope c' t) c := by
  obtain ⟨hholds, hgood, hsettled⟩ := D.declareHere hc ht
  cases scope with
  | nil => exact .pure hc hsettled
  | cons parent rest =>
    refine .once hc fun _ c' h => ?_
    obtain rfl := (Prod.mk.inj (Except.ok.inj h)).2
    exact ⟨⟨hholds, hgood⟩, hsettled⟩

theorem addImport_leads (hc : D.Holds scope c) (file : String) :
    D.Leads (Course.once (.addImport file)) scope
      (fun _ c' => ∀ id, D.Fresh scope c id → D.Fresh scope c' id) c := by
  obtain ⟨hholds, hgood, hfresh⟩ := D.importFile file hc
  refine .once hc fun _ c' h => ?_
  obtain rfl := (Prod.mk.inj (Except.ok.inj h)).2
  exact ⟨⟨hholds, hgood⟩, hfresh⟩

theorem addImportFor_leads (hc : D.Holds scope c) (name : String) :
    D.Leads (addImportFor.course name) scope
      (fun _ c' => ∀ id, D.Fresh scope c id → D.Fresh scope c' id) c := by
  unfold addImportFor.course addImportFor
  rcases importOf? name with _ | file
  · exact .pure hc fun _ h => h
  · exact addImport_leads hc file

theorem newNode_leads (hc : D.Holds scope c) {n : Node} (hn : Made (D.Good c) n) :
    D.Leads (Course.once (.newNode n)) scope
      (fun id c' => id = c.graph.size ∧ c' = c.withNode n) c := by
  obtain ⟨hholds, hgood⟩ := D.withNode hc hn
  refine .once hc fun id c' h => ?_
  obtain ⟨rfl, rfl⟩ := Prod.mk.inj (Except.ok.inj h)
  exact ⟨⟨hholds, hgood⟩, rfl, rfl⟩

theorem settled_of_definition? (hc : D.Holds scope c) {ref : String} {d : Definition}
    (h : c.definition? ref = some d) : D.Settled scope c d.unwrap := by
  unfold Compilation.definition? at h
  split at h
  · next b hb =>
    obtain rfl := Option.some.inj h
    exact D.builtin hc (Builtin.not_isPlaceholder_of_known hb)
  · exact D.definition hc (mem_of_lookup h)

theorem compileReference_leads (hc : D.Holds scope c) (ref : String) :
    D.Leads (compileReference.course ref) scope (fun d c' => D.Settled scope c' d.unwrap) c := by
  refine .read hc fun a ha => ?_
  obtain rfl := get_ok ha
  rcases hd : a.definition? ref with _ | d
  · refine .read hc fun _ _ => .ite (fun _ => ?_) fun _ => .fail hc
    refine .bind (newNode_leads hc (.reference ref)) ?_
    rintro _ _ hk ⟨rfl, rfl⟩
    exact .pure hk.holds (D.settled hc (.reference ref) rfl)
  · exact .pure hc (settled_of_definition? hc hd)

theorem compileReferenceValue_leads (hc : D.Holds scope c) (ref : Value) :
    D.Leads (compileReferenceValue.course ref) scope
      (fun d c' => D.Settled scope c' d.unwrap) c :=
  .read hc fun _ _ => compileReference_leads hc _

theorem compileMultiType_settled (hc : D.Holds scope c) {s : Schema} {t : TypeRef}
    (h : compileMultiType s c = .ok (t, c')) : D.Settled scope c t := by
  obtain ⟨b, rfl, hb⟩ := not_isPlaceholder_of_multiType h
  exact D.builtin hc hb

theorem compileEnum_leads (hc : D.Holds scope c) (env : Environment) (name : String)
    (choices : List String) :
    D.Leads (compileEnum.course env scope name choices) scope
      (fun t c' => ∃ id, t = .node id ∧ D.Fresh scope c' id) c := by
  refine .read hc fun a ha => ?_
  obtain rfl := get_ok ha
  have hmade : ∀ elements, Made (D.Good a) (.enumeration ⟨Name.pascal name, elements, ""⟩) :=
    fun _ => .enumeration (Name.pascal_plain name)
  refine .bind (newNode_leads hc (hmade _)) ?_
  rintro _ _ hk ⟨rfl, rfl⟩
  exact .pure hk.holds ⟨_, rfl, D.fresh hc (hmade _) rfl⟩

/-! ## Maps -/

/-- A way to compile a schema that keeps to a discipline. -/
def ActionLeads (D : Discipline) {a : Action} (t : ActionCourse a) : Prop :=
  ∀ scope name comment c, D.Holds scope c → D.Leads (t scope name comment) scope
    (fun d c' => D.Settled scope c' d.unwrap) c

/-- An inner schema that keeps to a discipline. -/
structure PartLeads (D : Discipline) {p : Part} (t : PartCourse p) : Prop where
  whole : D.ActionLeads t.whole
  items : ∀ a h, D.ActionLeads (t.items a h)

theorem remember_leads (hc : D.Holds scope c) (base : String) {id : Nat}
    (hid : D.Fresh scope c id) :
    D.Leads (Course.once (.modify fun c => { c with wrappers := c.wrappers ++ [(base, id)] })) scope
      (fun _ c' => D.Fresh scope c' id) c := by
  obtain ⟨hholds, hgood, hfresh⟩ := D.remember base hc hid
  refine .once hc fun _ c' h => ?_
  obtain rfl := (Prod.mk.inj (Except.ok.inj h)).2
  exact ⟨⟨hholds, hgood⟩, hfresh⟩

theorem declareShared_leads (hc : D.Holds scope c) {id : Nat} (hid : D.Fresh scope c id) :
    D.Leads (Course.once (.declareIn scope c.package (.node id))) scope
      (fun _ c' => D.Good c' (.node id)) c := by
  obtain ⟨hholds, hgood⟩ := D.declareShared hc hid
  refine .once hc fun _ c' h => ?_
  obtain rfl := (Prod.mk.inj (Except.ok.inj h)).2
  exact ⟨⟨hholds, hgood⟩, hgood _ (D.good_of_fresh hid)⟩

theorem refListWrapper_leads (hc : D.Holds scope c) (env : Environment) (ref : Value) :
    D.Leads (refListWrapper.course env scope ref) scope (fun t c' => D.Good c' t) c := by
  refine .read hc fun text _ => .read hc fun a ha => ?_
  obtain rfl := get_ok ha
  have plain := Name.pascal_plain (String.ofList (Text.afterLast '/' text.toList))
  rcases hw : a.wrappers.lookup (Name.pascal (String.ofList (Text.afterLast '/' text.toList)))
    with _ | wrapper
  · refine .bind (compileReference_leads hc text) fun d c₁ hk₁ hd => .read hk₁.holds fun a ha => ?_
    obtain rfl := get_ok ha
    have hmade : ∀ base, Name.IsPlain base → Made (D.Good a) (.message (listWrapper
        (listWrapperName env.spec a base) "items" base (.text "") d.unwrap)) := by
      refine fun base plain => .message (listWrapperName_plain plain _ _) rfl fun f hf => ?_
      obtain rfl := List.mem_singleton.1 hf
      exact D.good_of_settled hd
    refine .bind (newNode_leads hk₁.holds (hmade _ plain)) ?_
    rintro _ _ hk₂ ⟨rfl, rfl⟩
    refine .bind (remember_leads hk₂.holds _ (D.fresh hk₁.holds (hmade _ plain) rfl))
      fun _ c₃ hk₃ hid => .read hk₃.holds fun a ha => ?_
    obtain rfl := get_ok ha
    exact .bind (declareShared_leads hk₃.holds hid) fun _ c₄ hk₄ hgood => .pure hk₄.holds hgood
  · exact .pure hc (D.wrapper hc (mem_of_lookup hw))

theorem objectListWrapper_leads (hc : D.Holds scope c) {name : String} (plain : Name.IsPlain name)
    (rawName : String) (comment itemComment : Value) {items : Action} {t : ActionCourse items}
    (ht : D.ActionLeads t) :
    D.Leads (objectListWrapper.course scope name rawName comment itemComment t) scope
      (fun t c' => D.Good c' t) c := by
  refine .bind (ht scope name itemComment c hc) fun d c₁ hk₁ hd => ?_
  refine .bind (declareDefinition_leads hk₁.holds (.inl hd)) fun _ c₂ hk₂ hitem =>
    .read hk₂.holds fun about _ => ?_
  have hmade : ∀ field, Made (D.Good c₂) (.message (listWrapper (withoutMessage name ++ "List")
      field about comment d.unwrap)) := by
    refine fun field => .message (plain.withoutEnd _ |>.append (by decide)) rfl fun f hf => ?_
    obtain rfl := List.mem_singleton.1 hf
    exact D.good_of_settled hitem
  refine .bind (newNode_leads hk₂.holds (hmade _)) ?_
  rintro _ _ hk₃ ⟨rfl, rfl⟩
  refine .bind (declareDefinition_leads hk₃.holds
    (.inr ⟨_, rfl, D.fresh hk₂.holds (hmade _) rfl⟩)) fun _ c₄ hk₄ hw => ?_
  exact .pure hk₄.holds (D.good_of_settled hw)

theorem wellKnown_leads (hc : D.Holds scope c) {b : Builtin} (hb : ¬ b.IsPlaceholder) :
    D.Leads (wellKnown.course b) scope (fun t c' => D.Settled scope c' t) c :=
  .bind (addImportFor_leads hc _) fun _ _ hk _ => .pure hk.holds (D.builtin hk.holds hb)

theorem compileMapValue_leads (hc : D.Holds scope c) (env : Environment) {name : String}
    (plain : Name.IsPlain name) (rawName : String) {p : Part} {t : PartCourse p}
    (ht : D.PartLeads t) :
    D.Leads (compileMapValue.course env scope name rawName t) scope
      (fun t c' => D.Good c' t) c := by
  have hlist : D.Leads (wellKnown.course .listValue) scope (fun t c' => D.Good c' t) c :=
    (wellKnown_leads hc (by decide)).mono fun _ _ h => D.good_of_settled h
  refine .ite (fun _ => ?_) fun _ => .ite (fun _ => ?_) fun _ => ?_
  · exact .bind (compileReferenceValue_leads hc _) fun d c₁ hk hd =>
      .pure hk.holds (D.good_of_settled hd)
  · obtain ⟨s, whole, action⟩ := p
    dsimp only
    rcases s.items with _ | i
    · exact hlist
    · cases action with
      | none => exact hlist
      | some action =>
        refine .ite (fun _ => refListWrapper_leads hc env _) fun _ =>
          .ite (fun _ => ?_) fun _ => hlist
        exact objectListWrapper_leads hc plain _ _ _ (ht.items action rfl)
  · refine .bind (ht.whole _ _ _ _ hc) fun d c₁ hk hd => .read hk.holds fun nested _ => ?_
    refine .ite (fun _ => ?_) fun _ => .pure hk.holds (D.good_of_settled hd)
    exact (wellKnown_leads hk.holds (by decide)).mono fun _ _ h => D.good_of_settled h

theorem compileMap_leads (hc : D.Holds scope c) (env : Environment) {name : String}
    (plain : Name.IsPlain name) (rawName : String) {p : Part} {t : PartCourse p}
    (ht : D.PartLeads t) :
    D.Leads (compileMap.course env scope name rawName t) scope
      (fun t c' => D.Settled scope c' t) c := by
  refine .bind (compileMapValue_leads hc env plain rawName ht) fun value c₁ hk hvalue => ?_
  refine .bind (newNode_leads hk.holds (.map hvalue)) ?_
  rintro _ _ hk' ⟨rfl, rfl⟩
  exact .pure hk'.holds (D.settled hk.holds (.map hvalue) rfl)

/-! ## Messages -/

/-- A change to types that keeps them ready keeps definitions ready. -/
theorem ready_mapType {k : TypeRef → TypeRef} (hk : ∀ t, D.Ready scope c t → D.Ready scope c (k t))
    {d : Definition} (h : D.Ready scope c d.unwrap) : D.Ready scope c (d.mapType k).unwrap := by
  cases d with
  | parameter => exact h
  | type t => exact hk t h

theorem compilePropertyType_leads (hc : D.Holds scope c) (env : Environment) (name : String)
    {p : Part} {t : PartCourse p} (ht : D.PartLeads t) :
    D.Leads (compilePropertyType.course env scope name t) scope
      (fun d c' => D.Ready scope c' d.unwrap) c := by
  have hboxes : ∀ {c t}, D.Holds scope c → D.Ready scope c t →
      D.Ready scope c (if env.options.wrapPrimitives then boxed t else t) := by
    intro c t hc h
    split
    · exact h.boxed hc
    · exact h
  refine .ite (fun _ => .read hc fun t h => ?_) fun _ => .ite (fun _ => ?_) fun _ =>
    .ite (fun _ => ?_) fun _ => .ite (fun _ => .read hc fun found h => ?_) fun _ => ?_
  · exact .pure hc (.inl (compileMultiType_settled hc h))
  · exact (ht.whole _ _ _ _ hc).mono fun _ _ h => .inl h
  · obtain ⟨s, whole, items⟩ := p
    cases items with
    | none => exact .fail hc
    | some items =>
      exact .bind (ht.items items rfl _ _ _ _ hc) fun d c₁ hk hd =>
        .pure hk.holds (ready_mapType (fun _ => hboxes hk.holds) (.inl hd))
  · cases found with
    | none =>
      exact .bind (ht.whole _ _ _ _ hc) fun d c₁ hk hd => .pure hk.holds
        (ready_mapType (fun _ ht => hboxes hk.holds (ht.withFormat hk.holds _)) (.inl hd))
    | some t =>
      refine .read hc fun d hd => .pure hc ?_
      obtain rfl := (Prod.mk.inj (Except.ok.inj hd)).1
      exact hboxes hc (.inl (settled_of_lookup hc (lookupType_ok h) _))
  · refine .read hc fun owner _ => .bind (compileEnum_leads hc env _ _) fun t c₁ hk hfresh =>
      .read hk.holds fun d hd => .pure hk.holds ?_
    obtain rfl := (Prod.mk.inj (Except.ok.inj hd)).1
    have hready : D.Ready scope c₁ t := .inr hfresh
    exact hboxes hk.holds (hready.withFormat hk.holds _)

theorem compileProperty_leads (hc : D.Holds scope c) (env : Environment) (name : String)
    {p : Part} {t : PartCourse p} (ht : D.PartLeads t) :
    D.Leads (compileProperty.course env scope name t) scope
      (fun field c' => D.Good c' field.type) c := by
  have hfield : ∀ {c} (field : CompiledProperty), D.Holds scope c → D.Ready scope c field.type →
      D.Leads (.bind (.still (pure_still field)) fun field =>
        .bind (declareDefinition.course scope (.type field.type)) fun _ =>
          .still (pure_still field))
        scope (fun field c' => D.Good c' field.type) c := by
    intro c field hc hready
    refine .read hc fun field' h => ?_
    obtain rfl := (Prod.mk.inj (Except.ok.inj h)).1
    exact .bind (declareDefinition_leads hc hready) fun _ c₁ hk h =>
      .pure hk.holds (D.good_of_settled h)
  refine .bind (compilePropertyType_leads hc env name ht) fun d c₁ hk hd => ?_
  cases d with
  | parameter t given number repeated => exact hfield _ hk.holds hd
  | type t =>
    exact .ite (fun _ => .read hk.holds fun _ _ => hfield _ hk.holds hd)
      fun _ => .read hk.holds fun _ _ => hfield _ hk.holds hd

theorem addPropertyField_leads (hc : D.Holds scope c) (message : Nat) {p : CompiledProperty}
    (hp : D.Good c p.type) (number : Int) :
    D.Leads (addPropertyField.course message p number) scope (fun _ _ => True) c := by
  refine .bind (Q := fun _ _ => True) (.once hc fun _ c' h => ?_) fun _ c₁ hk _ => ?_
  · exact ⟨⟨(D.addField hc hp h).1, (D.addField hc hp h).2⟩, trivial⟩
  · refine .read hk.holds fun _ _ => .read hk.holds fun _ _ => ?_
    exact (addImportFor_leads hk.holds _).mono fun _ _ _ => trivial

theorem compileEach_leads (hc : D.Holds scope c) {env : Environment}
    {properties : List (String × Schema)}
    {t : ∀ entry ∈ properties, PartCourse (part env entry.2)}
    (ht : ∀ entry hentry, D.PartLeads (t entry hentry)) :
    D.Leads (compileEach.course env scope t) scope
      (fun fields c' => ∀ field ∈ fields, D.Good c' field.type) c := by
  refine .same (Safe.mono (Safe.mapM
    (I := fun fields c' => D.Kept scope c c' ∧ ∀ field ∈ fields, D.Good c' field.type)
    (fun _ c' h => ⟨scope, h.1.holds⟩) (fun (key, s) hentry fields c₁ h => ?_) ⟨.refl hc, nofun⟩)
    fun fields c' h => ⟨h.1, fun field hfield => h.2 field (List.mem_reverse.2 hfield)⟩)
  refine Safe.framed (Safe.mono (compileProperty_leads h.1.holds env key (ht _ _)) ?_)
  rintro field c₂ ⟨hk, hfield⟩
  refine ⟨h.1.trans hk, fun f hf => ?_⟩
  rcases List.mem_cons.1 hf with rfl | hf
  · exact hfield
  · exact hk.good _ (h.2 f hf)

theorem addNumbered_leads (hc : D.Holds scope c) (message : Nat) {fields : List CompiledProperty}
    (hfields : ∀ field ∈ fields, D.Good c field.type) (numbers : Except Error (List Int)) :
    D.Leads (addNumbered.course message fields numbers) scope (fun _ _ => True) c := by
  cases numbers with
  | error e => exact .still hc fun _ h => (throw_ok_iff.1 h).elim
  | ok numbers =>
    refine (Leads.forM (I := fun c' => ∀ field ∈ fields, D.Good c' field.type)
      (fun field hfield c₁ hc₁ h => ?_) hc hfields).mono fun _ _ _ => trivial
    have hgood := h field.1 (List.of_mem_zip hfield).1
    exact Safe.mono (addPropertyField_leads hc₁ message hgood field.2) fun _ c' h' =>
      ⟨h'.1, fun f hf => h'.1.good _ (h f hf)⟩

theorem compileProperties_leads (hc : D.Holds scope c) {env : Environment} (message : Nat)
    (name : String) {properties : List (String × Schema)}
    {t : ∀ entry ∈ properties, PartCourse (part env entry.2)}
    (ht : ∀ entry hentry, D.PartLeads (t entry hentry)) :
    D.Leads (compileProperties.course env scope message name t) scope (fun _ _ => True) c :=
  .same (.bind (compileEach_leads hc ht) fun _ _ hk hfields =>
    addNumbered_leads hk.holds message hfields _)

theorem compileMessage_leads (hc : D.Holds scope c) {env : Environment} {name : String}
    (plain : Name.IsPlain name) (comment : Value) {properties : List (String × Schema)}
    {t : ∀ entry ∈ properties, PartCourse (part env entry.2)}
    (ht : ∀ entry hentry, D.PartLeads (t entry hentry)) :
    D.Leads (compileMessage.course env scope name comment t) scope
      (fun d c' => D.Settled scope c' d.unwrap) c := by
  refine .bind (newNode_leads hc (.message plain rfl nofun)) ?_
  rintro message _ hk ⟨rfl, rfl⟩
  have hinner := @D.enter _ _ _ comment hc plain
  have hinside := compileProperties_leads hinner c.graph.size name ht
  refine .bind (.framed (.leave hk.holds hinside)) fun _ c₁ hk₁ h => ?_
  exact .bind (declareDefinition_leads hk₁.holds (.inr ⟨_, rfl, h.1⟩)) fun _ c₂ hk₂ h =>
    .pure hk₂.holds h

/-! ## Schemas -/

theorem compileNew_leads (hc : D.Holds scope c) {env : Environment} (s : Schema) (rawName : String)
    {name : String} (plain : Name.IsPlain name) (comment : Value) {items : Option Action}
    {additional : Option Part} {properties : List (String × Schema)}
    {ti : ∀ a, items = some a → ActionCourse a} {ta : ∀ p, additional = some p → PartCourse p}
    {tp : ∀ entry ∈ properties, PartCourse (part env entry.2)}
    (hi : ∀ a h, D.ActionLeads (ti a h)) (ha : ∀ p h, D.PartLeads (ta p h))
    (hp : ∀ entry hentry, D.PartLeads (tp entry hentry)) :
    D.Leads (compileNew.course env s scope rawName name comment ti ta tp) scope
      (fun d c' => D.Settled scope c' d.unwrap) c := by
  refine .ite (fun _ => .read hc fun t h => .pure hc (compileMultiType_settled hc h)) fun _ =>
    .ite (fun _ => ?_) fun _ => .ite (fun _ => ?_) fun _ => .ite (fun _ => ?_) fun _ =>
      .ite (fun _ => .pure hc (D.builtin hc (by decide))) fun _ => .fail hc
  · cases additional with
    | none => exact compileMessage_leads hc plain comment hp
    | some p =>
      refine .ite (fun _ => .bind (addImportFor_leads hc _) fun _ _ hk _ => ?_) fun _ => ?_
      · exact .pure hk.holds (D.builtin hk.holds (by decide))
      · exact .bind (compileMap_leads hc env plain _ (ha p rfl)) fun t c₁ hk ht => .pure hk.holds ht
  · cases items with
    | none => exact .fail hc
    | some a =>
      refine .bind (hi a rfl _ _ _ _ hc) fun d c₁ hk hd => ?_
      cases d with
      | parameter t given number repeated =>
        refine .bind (Q := fun _ c' => D.Settled scope c' t) ?_ fun _ c₂ hk₂ h => .pure hk₂.holds h
        cases scope <;> exact .pure hk.holds hd
      | type t =>
        exact .bind (declareDefinition_leads hk.holds (.inl hd)) fun _ c₂ hk₂ h => .pure hk₂.holds h
  · refine .ite (fun _ => .read hc fun found h => ?_) fun _ => ?_
    · cases found with
      | none => exact .fail hc
      | some t => exact .pure hc (settled_of_lookup hc (lookupType_ok h) _)
    · exact .bind (compileEnum_leads hc env _ _) fun t c₁ hk hfresh =>
        .bind (declareDefinition_leads hk.holds (.inr hfresh)) fun _ c₂ hk₂ h => .pure hk₂.holds h

theorem compileWith_leads {env : Environment} (s : Schema) {items : Option Action}
    {additional : Option Part} {properties : List (String × Schema)}
    {ti : ∀ a, items = some a → ActionCourse a} {ta : ∀ p, additional = some p → PartCourse p}
    {tp : ∀ entry ∈ properties, PartCourse (part env entry.2)}
    (hi : ∀ a h, D.ActionLeads (ti a h)) (ha : ∀ p h, D.PartLeads (ta p h))
    (hp : ∀ entry hentry, D.PartLeads (tp entry hentry)) :
    D.ActionLeads (compileWith.course env s ti ta tp) := by
  intro scope rawName comment c hc
  refine .ite (fun _ => .framed (compileReferenceValue_leads hc _)) fun _ =>
    .read hc fun found h => ?_
  cases found with
  | some t => exact .pure hc (settled_of_lookup hc (lookupType_ok h) _)
  | none =>
    refine .read hc fun found h => ?_
    cases found with
    | some t => exact .pure hc (settled_of_lookup hc (lookupType_ok h) _)
    | none => exact compileNew_leads hc _ rawName (Name.pascal_plain rawName) comment hi ha hp

theorem ofMapped_all {γ : β → Type 1} {k : α → β} {o : Option α} {t : ∀ a, o = some a → γ (k a)}
    (P : ∀ b, γ b → Prop) (ht : ∀ a h, P (k a) (t a h)) : ∀ b h, P b (ofMapped o t b h) := by
  intro b h
  cases o with
  | none => cases h
  | some a =>
    obtain rfl := Option.some.inj h
    exact ht a rfl

theorem part_leads {env : Environment} {s : Schema}
    {t : ∀ i : Schema, sizeOf i ≤ sizeOf s → ActionCourse (compileSchema env i)}
    (ht : ∀ i h, D.ActionLeads (t i h)) : D.PartLeads (part.course env s t) where
  whole := ht s _
  items a _ := ofMapped_all (γ := ActionCourse) (k := compileSchema env)
    (fun _ t => D.ActionLeads t) (fun i _ => ht i _) a _

/-- Compiling a schema keeps to every discipline. -/
theorem compileSchema_leads (env : Environment) (s : Schema) :
    D.ActionLeads (compileSchema.course env s) := by
  intro scope name comment c hc
  unfold compileSchema.course
  refine .same (compileWith_leads s ?_ ?_ ?_ scope name comment c hc)
  · refine ofMapped_all (γ := ActionCourse) (k := compileSchema env)
      (fun _ t => D.ActionLeads t) fun i hi => ?_
    have := sizeOf_items hi
    exact compileSchema_leads env i
  · refine ofMapped_all (γ := PartCourse) (k := part env)
      (fun _ t => D.PartLeads t) fun i hi => part_leads fun i' hle => ?_
    have := Nat.lt_of_le_of_lt hle (sizeOf_additional hi)
    exact compileSchema_leads env i'
  · refine fun entry hentry => part_leads fun i' hle => ?_
    have := Nat.lt_of_le_of_lt hle (sizeOf_property hentry)
    exact compileSchema_leads env i'
termination_by sizeOf s

end Discipline

end ApiProto.Compile
