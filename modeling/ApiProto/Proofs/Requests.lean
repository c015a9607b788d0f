import ApiProto.Proofs.NamedLists
import ApiProto.Proofs.Procedures
import ApiProto.Proofs.Reordering
import ApiProto.Proofs.SnakeNames
import Mathlib.Data.List.Induction
import Mathlib.Data.List.Perm.Basic

/-!
# Fields of requests

The parameters of an operation become the properties of an object, and these the fields of a
message. A parameter whose key comes again later is dropped; all others have a field of their own.

* `Parameter.key?`, `Parameter.property` — a parameter as a property.
* `lastsBy` — a list without the items whose key comes again; `collectEntries_perm` says that these
  are the ones that collecting entries keeps.
* `IsFieldOf` — the field that a parameter is compiled to.
* `Compiles.request_fields` — the fields of a new request message.
-/

namespace ApiProto

/-- The items of a list without those whose key comes again. -/
def lastsBy {α κ : Type} [DecidableEq κ] (key : α → κ) : List α → List α
  | [] => []
  | a :: rest => if key a ∈ rest.map key then lastsBy key rest else a :: lastsBy key rest

section Lasts

variable {α κ : Type} [DecidableEq κ] (key : α → κ)

theorem lastsBy_sublist (l : List α) : (lastsBy key l).Sublist l := by
  induction l with
  | nil => exact .slnil
  | cons a rest ih =>
    rw [lastsBy]
    split
    · exact ih.cons a
    · exact ih.cons_cons a

/-- No key is lost. -/
theorem mem_map_lastsBy {k : κ} {l : List α} : k ∈ (lastsBy key l).map key ↔ k ∈ l.map key := by
  induction l with
  | nil => rfl
  | cons a rest ih =>
    rw [lastsBy]
    split
    · next hagain =>
      rw [ih, List.map_cons, List.mem_cons]
      refine ⟨.inr, fun h => h.elim (fun heq => ?_) id⟩
      rwa [heq]
    · rw [List.map_cons, List.map_cons, List.mem_cons, List.mem_cons, ih]

/-- What comes later wins over what comes before. -/
theorem lastsBy_append (l l' : List α) :
    lastsBy key (l ++ l') =
      (lastsBy key l).filter (fun a => key a ∉ l'.map key) ++ lastsBy key l' := by
  induction l with
  | nil => rfl
  | cons a rest ih =>
    rw [List.cons_append, lastsBy, lastsBy, List.map_append]
    by_cases hrest : key a ∈ rest.map key
    · rw [if_pos (List.mem_append_left _ hrest), if_pos hrest, ih]
    · by_cases hlater : key a ∈ l'.map key
      · rw [if_pos (List.mem_append_right _ hlater), if_neg hrest, ih,
          List.filter_cons_of_neg (by simpa using hlater)]
      · rw [if_neg (by simp only [List.mem_append, hrest, hlater, or_self, not_false_eq_true]),
          if_neg hrest, ih, List.filter_cons_of_pos (by simpa using hlater), List.cons_append]

theorem lastsBy_eq_self {l : List α} (h : (l.map key).Nodup) : lastsBy key l = l := by
  induction l with
  | nil => rfl
  | cons a rest ih =>
    obtain ⟨hnew, hrest⟩ := List.nodup_cons.1 h
    rw [lastsBy, if_neg hnew, ih hrest]

/-- Keys that tell the same items apart keep the same items. -/
theorem lastsBy_comp {κ' : Type} [DecidableEq κ'] {f : κ → κ'} (hf : Function.Injective f)
    (l : List α) : lastsBy (fun a => f (key a)) l = lastsBy key l := by
  induction l with
  | nil => rfl
  | cons a rest ih =>
    have hkeys : f (key a) ∈ rest.map (fun a => f (key a)) ↔ key a ∈ rest.map key := by
      simp [hf.eq_iff]
    rw [lastsBy, lastsBy, ih]
    simp only [hkeys]

omit [DecidableEq κ] in
theorem forall₂_comp {β γ : Type} {R : α → β → Prop} {S : β → γ → Prop} {T : α → γ → Prop}
    {l : List α} {l₁ : List β} {l₂ : List γ} (h : List.Forall₂ R l l₁)
    (h' : List.Forall₂ S l₁ l₂) (hcomp : ∀ a b c, R a b → S b c → T a c) :
    List.Forall₂ T l l₂ := by
  induction h generalizing l₂ with
  | nil =>
    obtain rfl := List.forall₂_nil_left_iff.1 h'
    exact .nil
  | cons hab _ ih =>
    obtain ⟨c, rest, hbc, hrest, rfl⟩ := List.forall₂_cons_left_iff.1 h'
    exact .cons (hcomp _ _ _ hab hbc) (ih hrest)

omit [DecidableEq κ] in
theorem exists_of_mem_forall₂ {β : Type} {R : α → β → Prop} {l : List α} {l' : List β}
    (h : List.Forall₂ R l l') {a : α} (ha : a ∈ l) : ∃ b ∈ l', R a b := by
  induction h with
  | nil => cases ha
  | cons hab _ ih =>
    rcases List.mem_cons.1 ha with rfl | ha
    · exact ⟨_, List.mem_cons_self .., hab⟩
    · exact (ih ha).imp fun b hb => ⟨List.mem_cons_of_mem _ hb.1, hb.2⟩

omit [DecidableEq κ] in
theorem map_eq_of_forall₂ {β : Type} {R : α → β → Prop} {key' : β → κ} {l : List α} {l' : List β}
    (h : List.Forall₂ R l l') (hkey : ∀ a b, R a b → key a = key' b) : l.map key = l'.map key' := by
  induction h with
  | nil => rfl
  | cons hab _ ih => rw [List.map_cons, List.map_cons, hkey _ _ hab, ih]

/-- Two lists that go together item by item still do once earlier items of each key are dropped. -/
theorem forall₂_lastsBy {β : Type} {R : α → β → Prop} {key' : β → κ} {l : List α} {l' : List β}
    (h : List.Forall₂ R l l') (hkey : ∀ a b, R a b → key a = key' b) :
    List.Forall₂ R (lastsBy key l) (lastsBy key' l') := by
  induction h with
  | nil => exact .nil
  | @cons a b rest rest' hab hrest ih =>
    rw [lastsBy, lastsBy, hkey a b hab, map_eq_of_forall₂ key hrest hkey]
    split
    · exact ih
    · exact .cons hab ih

theorem insertEntry_perm {α : Type} (entry : String × α) {l : List (String × α)}
    (h : (l.map (·.1)).Nodup) :
    (insertEntry entry.1 entry.2 l).Perm (l.filter (fun e => e.1 ≠ entry.1) ++ [entry]) := by
  induction l with
  | nil => exact .refl _
  | cons first rest ih =>
    obtain ⟨hfirst, hrest⟩ := List.nodup_cons.1 h
    rw [insertEntry]
    split
    · next hkey =>
      have hkept : rest.filter (fun e => e.1 ≠ entry.1) = rest :=
        List.filter_eq_self.2 fun e he => decide_eq_true fun heq =>
          hfirst (List.mem_map.2 ⟨e, he, heq.trans hkey.symm⟩)
      rw [List.filter_cons_of_neg (by simpa using hkey), hkept]
      exact (List.perm_append_singleton _ _).symm
    · next hkey =>
      rw [List.filter_cons_of_pos (by simpa using hkey), List.cons_append]
      exact (ih hrest).cons _

/-- Collecting entries keeps the last one of each key. -/
theorem collectEntries_perm {α : Type} (l : List (String × α)) :
    (collectEntries l).Perm (lastsBy Prod.fst l) := by
  induction l using List.reverseRecOn with
  | nil => exact .refl _
  | append_singleton rest entry ih =>
    have hcollect : collectEntries (rest ++ [entry]) =
        insertEntry entry.1 entry.2 (collectEntries rest) := by
      simp [collectEntries, List.foldl_append]
    rw [hcollect, lastsBy_append]
    refine (insertEntry_perm entry (nodup_keys_collectEntries rest)).trans (.append ?_ (.refl _))
    simpa using ih.filter fun e => e.1 ≠ entry.1

end Lasts

end ApiProto

namespace ApiProto.Document

/-! ## Parameters as properties -/

namespace Parameter

variable (q : Parameter)

/-- The key of a parameter among the properties of a request: its name in snake case, or that of
what follows the last slash of its reference. What is no text has none. -/
def key? : Option String :=
  if q.ref.isEmpty then q.name.wordText.toOption.map Name.snake
  else
    (q.ref.keyText.bind fun ref =>
      if q.name.isEmpty then .ok (String.ofList (Text.afterLast '/' ref.toList))
      else q.name.wordText).toOption.map Name.snake

/-- Keys are in snake case. -/
theorem snake_key? {key : String} (h : q.key? = some key) : Name.snake key = key := by
  unfold key? at h
  split at h <;>
    (obtain ⟨word, -, rfl⟩ := Option.map_eq_some_iff.1 h
     exact Name.snake_snake word)

/-- The property of a request for a parameter without reference. -/
def property (key : String) : Schema :=
  match q.schema with
  | some s => { s with
    protoName := .text key
    description := q.description
    tag := if q.tag = 0 then s.tag else q.tag }
  | none => { Schema.blank with
    types := q.types
    choices := q.choices
    format := q.format
    items := q.items
    protoName := .text key
    tag := q.tag
    description := q.description }

end Parameter

/-- A description of shared parameters and of one operation. -/
def Spec.ofOperation (parameters : List (String × Parameter)) (op : Operation) : Spec :=
  { Spec.ofDefinitions [] with
    parameters := parameters
    paths := [(op.path, .single op.shared op.endpoint)] }

end ApiProto.Document

namespace ApiProto.Compile

open Proto Document CompileM

variable {env : Environment} {scope : Scope} {opened : List Nat} {g : Graph}
  {c c₁ c₂ c' : Compilation} {d : Definition}

/-- What a parameter is as a property. A reference must have a definition. -/
theorem parameterSchema_cases {q : Parameter} {key : String} {s : Schema}
    (h : parameterSchema q c = .ok ((key, s), c')) :
    q.key? = some key ∧
      ((q.ref.isEmpty = false ∧ ∃ ref, q.ref.keyText = .ok ref ∧
          (c.definition? ref).isSome = true ∧
          s = { Schema.blank with ref := .text ref, protoName := .text key }) ∨
        (q.ref.isEmpty = true ∧ ∃ word, q.name.wordText = .ok word ∧ key = Name.snake word ∧
          s = q.property key)) := by
  unfold parameterSchema at h
  unfold Parameter.key?
  split at h
  · next href =>
    have href : q.ref.isEmpty = false := by simpa using href
    rw [if_neg (by simp [href])]
    obtain ⟨ref, _, hkey, h⟩ := bind_ok_iff.1 h
    obtain ⟨hkey, rfl⟩ := ofResult_ok_iff.1 hkey
    rw [get_bind] at h
    split at h
    · simp [bind_ok_iff] at h
    · next hdefined =>
      have hdefined : (c.definition? ref).isSome = true := by
        simpa [Option.isSome_iff_ne_none] using hdefined
      rw [hkey]
      split at h
      · next hname =>
        simp only [pure_bind_run, pure_run, Except.ok.injEq, Prod.mk.injEq] at h
        obtain ⟨⟨rfl, rfl⟩, rfl⟩ := h
        refine ⟨?_, .inl ⟨href, ref, rfl, hdefined, rfl⟩⟩
        simp [Except.bind, hname, Except.toOption]
      · next hname =>
        obtain ⟨word, _, hword, h⟩ := bind_ok_iff.1 h
        obtain ⟨hword, rfl⟩ := ofResult_ok_iff.1 hword
        simp only [pure_run, Except.ok.injEq, Prod.mk.injEq] at h
        obtain ⟨⟨rfl, rfl⟩, rfl⟩ := h
        refine ⟨?_, .inl ⟨href, ref, rfl, hdefined, rfl⟩⟩
        simp [Except.bind, hname, hword, Except.toOption]
  · next href =>
    have href : q.ref.isEmpty = true := by simpa using href
    rw [if_pos href]
    obtain ⟨word, _, hword, h⟩ := bind_ok_iff.1 h
    obtain ⟨hword, rfl⟩ := ofResult_ok_iff.1 hword
    rw [hword]
    refine Parameter.property.eq_def q key ▸ ?_
    rcases hs : q.schema with _ | s₀ <;> rw [hs] at h <;>
      (simp only [pure_run, Except.ok.injEq, Prod.mk.injEq] at h
       obtain ⟨⟨rfl, rfl⟩, rfl⟩ := h
       exact ⟨rfl, .inr ⟨href, word, rfl, rfl, rfl⟩⟩)

theorem mapM_parameterSchema {frame : Parameter → String} {parameters : List Parameter}
    {properties : List (String × Schema)}
    (h : (parameters.mapM fun q => within (frame q) (parameterSchema q)) c =
      .ok (properties, c')) :
    List.Forall₂ (fun q entry => parameterSchema q c = .ok (entry, c)) parameters properties := by
  induction parameters generalizing properties with
  | nil =>
    obtain ⟨rfl, -⟩ : [] = properties ∧ c = c' := by simpa using h
    exact .nil
  | cons q rest ih =>
    rw [List.mapM_cons] at h
    obtain ⟨entry, c₁, hfirst, h⟩ := bind_ok_iff.1 h
    obtain ⟨others, c₂, hrest, h⟩ := bind_ok_iff.1 h
    obtain ⟨rfl, rfl⟩ : entry :: others = properties ∧ c₂ = c' := by simpa using h
    have hfirst := within_ok_iff.1 hfirst
    obtain rfl := parameterSchema_ok hfirst
    exact .cons hfirst (ih hrest)

/-- The properties of a request are those of its parameters, the last one of each key. -/
theorem requestSchema_properties {parameters : List Parameter} {s : Schema}
    (h : requestSchema parameters c = .ok (s, c')) :
    ∃ properties, List.Forall₂ (fun q entry => parameterSchema q c = .ok (entry, c))
        parameters properties ∧
      s = { Schema.blank with properties := collectEntries properties } := by
  unfold requestSchema at h
  obtain ⟨properties, c₁, hproperties, h⟩ := bind_ok_iff.1 h
  obtain ⟨rfl, -⟩ := Prod.mk.inj (Except.ok.inj h)
  exact ⟨properties, mapM_parameterSchema hproperties, rfl⟩

/-! ## Properties as fields -/

/-- Numbers that are given are kept. -/
theorem assignNumbers_explicit {message : String} {fields : List (String × Int)}
    {numbers : List Int} (h : assignNumbers message fields = .ok numbers) :
    List.Forall₂ (fun field number => field.2 ≠ 0 → number = field.2) fields numbers := by
  unfold assignNumbers at h
  dsimp only at h
  split at h
  · cases h
  · obtain rfl := Except.ok.inj h
    have hfields : fields = fields.zipIdx.map Prod.fst := by simp
    conv =>
      arg 2
      rw [hfields]
    refine List.forall₂_map_left_iff.2 (List.forall₂_map_right_iff.2 (List.forall₂_same.2 ?_))
    intro e _ hexplicit
    rw [if_neg hexplicit]

/-- A field that the property of an object is compiled to, in some state with given definitions. -/
def IsPropertyField (env : Environment) (g : Graph) (definitions : List (String × Definition))
    (key : String) (s : Schema) (f : Proto.Field TypeRef Value) : Prop :=
  ∃ scope c c' p number, c.definitions = definitions ∧
    compileProperty env scope key (part env s) c = .ok (p, c') ∧
    (p.number ≠ 0 → number = p.number) ∧ (p.field number).Becomes g f

theorem mapM_compileProperty_fields {properties : List (String × Schema)}
    {compiled : List CompiledProperty} {numbers : List Int}
    {fields : List (Proto.Field TypeRef Value)}
    (h : ((partList env properties).mapM fun (key, p) =>
      within ("failed to compile property " ++ key) (compileProperty env scope key p)) c =
        .ok (compiled, c'))
    (hnumbers : List.Forall₂ (fun p number => p.number ≠ 0 → number = p.number) compiled numbers)
    (hfields : List.Forall₂ (Field.Becomes g)
      ((compiled.zip numbers).map fun (p, number) => p.field number) fields) :
    List.Forall₂ (fun entry f => IsPropertyField env g c.definitions entry.1 entry.2 f)
      properties fields := by
  induction properties generalizing c compiled numbers fields with
  | nil =>
    obtain ⟨rfl, rfl⟩ := Prod.mk.inj (Except.ok.inj h)
    obtain rfl := List.forall₂_nil_left_iff.1 hfields
    exact .nil
  | cons entry rest ih =>
    obtain ⟨key, s⟩ := entry
    rw [partList, List.mapM_cons] at h
    obtain ⟨p, c₁, hfirst, h⟩ := bind_ok_iff.1 h
    obtain ⟨others, c₂, hrest, h⟩ := bind_ok_iff.1 h
    obtain ⟨rfl, rfl⟩ : p :: others = compiled ∧ c₂ = c' := by simpa using h
    obtain ⟨number, numbers, hnumber, hothers, rfl⟩ := List.forall₂_cons_left_iff.1 hnumbers
    obtain ⟨f, fields, hf, hbecome, rfl⟩ := List.forall₂_cons_left_iff.1 hfields
    have hfirst := within_ok_iff.1 hfirst
    have hsame := (compileProperty_runs (part_runs env s) hfirst).definitions_eq
    exact .cons ⟨scope, c, c₁, p, number, rfl, hfirst, hnumber, hf⟩ (hsame ▸ ih hrest hothers hbecome)

/-- The field that a parameter is compiled to when a compilation has come to its operation. -/
def IsFieldOf (env : Environment) (g : Graph) (c : Compilation) (q : Parameter)
    (f : Proto.Field TypeRef Value) : Prop :=
  ∃ key s, parameterSchema q c = .ok ((key, s), c) ∧ IsPropertyField env g c.definitions key s f

/-! ## Request messages -/

/-- No type is visible in the package under the name of a schema. -/
def Compilation.Free (c : Compilation) (package : Nat) (rawName : String) : Prop :=
  c.registry.lookup c.graph rawName [package] = none ∧
    c.registry.lookup c.graph (Name.pascal rawName) [package] = none

instance (package : Nat) (rawName : String) : Decidable (c.Free package rawName) :=
  inferInstanceAs (Decidable (_ ∧ _))

/-- The object that the parameters of an operation make becomes a new message, with a field for each
parameter but for those whose key comes again. -/
theorem Compiles.request_fields {path name : String} {item : PathItem} {e : Endpoint} {s : Schema}
    (h : Compiles env (.request path item e) name s c d c') (hfree : c.Free env.package name)
    (hrun : compilePhases env (startOf env) = .ok ((), c₂)) :
    ∃ m l, d.unwrap = .node c.graph.size ∧ c₂.graph.message? c.graph.size = some m ∧
      m.name = Name.pascal name ∧
      l.Perm (lastsBy Parameter.key? (item.parameters ++ e.parameters)) ∧
      List.Forall₂ (IsFieldOf env c₂.graph c) l m.fields := by
  obtain ⟨hunderway, hsettles⟩ := h.settles hrun
  cases h with
  | request hreaches hid hsome hs hd =>
    obtain ⟨properties, hproperties, rfl⟩ := requestSchema_properties hs
    rcases compileSchema_cases hd with href | ⟨-, ⟨found, t, hname, hfound, -⟩ | ⟨-, -, hnew⟩⟩
    · cases href
    · rcases hname with rfl | rfl
      · exact nomatch hfree.1.symm.trans hfound
      · exact nomatch hfree.2.symm.trans hfound
    · have hmessage : compileMessage env [env.package] (Name.pascal _) (.text "")
          (partList env (collectEntries properties)) c = .ok (d, c') := hnew
      obtain ⟨compiled, c₁, numbers, m, hcompiled, -, hnumbers, hm, hmname, hbecome⟩ :=
        compileMessage_fields hmessage hunderway.opening hsettles
      have hexplicit := List.forall₂_map_left_iff.1 (assignNumbers_explicit hnumbers)
      have hfields := mapM_compileProperty_fields hcompiled hexplicit hbecome
      -- The properties that are left are those of the parameters that are left.
      have hlasts : List.Forall₂ (fun q entry => parameterSchema q c = .ok (entry, c))
          (lastsBy Parameter.key? (item.parameters ++ e.parameters))
          (lastsBy (fun entry => some entry.1) properties) :=
        forall₂_lastsBy Parameter.key? hproperties fun q entry hq => (parameterSchema_cases hq).1
      rw [lastsBy_comp Prod.fst (fun _ _ => Option.some.inj)] at hlasts
      obtain ⟨l, hl, hperm⟩ := List.perm_comp_forall₂
        ((sortBy_perm _ _).trans (collectEntries_perm properties)) hlasts.flip
      refine ⟨m, l, compileMessage_type hmessage ▸ rfl, Graph.message?_of_node? hm, hmname, hperm,
        forall₂_comp hl.flip hfields fun q entry f hq hf => ⟨entry.1, entry.2, hq, hf⟩⟩

/-! ## New requests -/

/-- The request of an operation is new: when the compilation comes to the operation, no type is
visible in the package under its name. -/
def NewRequest (env : Environment) (op : Operation) : Prop :=
  ∀ item c name, op.shared = item.parameters → ReachesOperation env op.path item op.endpoint c →
    op.name? = some name → c.Free env.package (name ++ "Request")

theorem NewRequest.free {path name : String} {item : PathItem} {e : Endpoint} {s : Schema}
    (hnew : NewRequest env ⟨path, item.parameters, e⟩)
    (h : Compiles env (.request path item e) name s c d c') : c.Free env.package name := by
  cases h with
  | request hreaches hid _ _ _ => exact hnew item c _ rfl hreaches (Operation.name?_eq _ hid)

/-- The fields of a type; what is no message has none. -/
def fieldsOf (g : Graph) : TypeRef → List (Proto.Field TypeRef Value)
  | .builtin _ => []
  | .node id => ((g.message? id).map (·.fields)).getD []

/-- The request of a procedure, if it is new, has a field for each parameter of its operation but for
those whose key comes again. -/
theorem Gives.request_fields {op : Operation} {rpc : Rpc TypeRef}
    (h : Gives env c₂.graph op rpc) (hrun : compilePhases env (startOf env) = .ok ((), c₂))
    (hnew : NewRequest env op) :
    ∃ item c l, op.shared = item.parameters ∧ ReachesOperation env op.path item op.endpoint c ∧
      l.Perm (lastsBy Parameter.key? op.parameters) ∧
      List.Forall₂ (IsFieldOf env c₂.graph c) l (fieldsOf c₂.graph rpc.parameter) := by
  obtain ⟨item, c, c₁, _, hshared, hreaches, hrequest, -⟩ := h.compiled
  refine ⟨item, c, ?_⟩
  rcases hsome : op.parameters with _ | ⟨first, rest⟩
  · rw [h.noRequest hsome]
    exact ⟨[], hshared, hreaches, .refl _, .nil⟩
  · obtain ⟨identifier, hid⟩ : ∃ identifier, op.endpoint.operationId.wordText = .ok identifier := by
      rcases hid : op.endpoint.operationId.wordText with e | identifier
      · have hname := h.name
        simp [Operation.name?, hid, Except.toOption] at hname
      · exact ⟨identifier, rfl⟩
    have hname : rpc.name = Name.endpointName op.endpoint.verb.word op.path identifier :=
      Option.some.inj (h.name.symm.trans (op.name?_eq hid))
    have hparameters : op.parameters = item.parameters ++ op.endpoint.parameters := by
      rw [← hshared]
      rfl
    have hnone : op.parameters.isEmpty = false := by simp [hsome]
    obtain ⟨s, d, c₃, hs, hd, hunwrap, -⟩ := compileRequest_ok hnone hrequest
    rw [hname] at hd
    have hplace : Compiles env (.request op.path item op.endpoint) _ s c d c₃ :=
      .request hreaches hid (hparameters ▸ hnone) (hparameters ▸ hs) hd
    obtain ⟨m, l, hnode, hm, -, hperm, hfields⟩ := hplace.request_fields
      (hnew item c _ hshared hreaches (op.name?_eq hid)) hrun
    refine ⟨l, hshared, hreaches, ?_, ?_⟩
    · rwa [← hsome, hparameters]
    · rw [hunwrap, hnode, fieldsOf, hm]
      exact hfields

/-- Whether a test holds of the state in which a compilation comes to its paths. -/
def reachesPathsTo (env : Environment) (test : Compilation → Bool) : Bool :=
  match compileNamed env (startOf env) with
  | .error _ => false
  | .ok (_, c₀) =>
    match resolveAll c₀ with
    | .error _ => false
    | .ok (_, c₁) =>
      match env.spec.extensions.forM compileExtension { c₁ with deferring := false } with
      | .error _ => false
      | .ok (_, c) => test c

theorem ReachesPaths.test {test : Compilation → Bool} (h : ReachesPaths env c)
    (htest : reachesPathsTo env test = true) : test c = true := by
  obtain ⟨c₀, c₁, hnamed, hresolve, hextensions⟩ := h
  unfold reachesPathsTo at htest
  rw [hnamed] at htest
  dsimp only at htest
  rw [hresolve] at htest
  dsimp only at htest
  rw [hextensions] at htest
  exact htest

theorem ComesTo.of_singleton {α : Type} {f : α → CompileM Unit} {a b : α}
    (h : ComesTo f [b] c a c₁) : c₁ = c := by
  obtain ⟨before, after, heq, hrun⟩ := h
  obtain rfl : before = [] := by
    rcases before with _ | ⟨_, _ | ⟨_, _⟩⟩ <;> simp at heq ⊢
  exact forM_ok_nil.1 hrun

/-- The request of the only operation of a description is new if it is when the compilation comes to
the paths. -/
theorem newRequest_of_only {options : Options} {parameters : List (String × Parameter)}
    {op : Operation}
    (htest : reachesPathsTo ⟨options, .ofOperation parameters op⟩ (fun c => op.name?.all fun name =>
      decide (c.Free (Environment.package ⟨options, .ofOperation parameters op⟩)
        (name ++ "Request"))) = true) :
    NewRequest ⟨options, .ofOperation parameters op⟩ op := by
  intro item c name hshared hreaches hname
  obtain ⟨-, c₀, c₁, hstart, hentry, hoperation⟩ := hreaches
  have htest := hstart.test htest
  rw [hname] at htest
  have hsort : sortEntries (Spec.ofOperation parameters op).paths =
      [(op.path, .single op.shared op.endpoint)] := rfl
  rw [hsort] at hentry
  obtain ⟨before, after, heq, -⟩ := id hentry
  obtain rfl : item = .single op.shared op.endpoint := by
    have hmem : (op.path, item) ∈ [(op.path, PathItem.single op.shared op.endpoint)] :=
      heq ▸ by simp
    simpa using hmem
  obtain rfl := hentry.of_singleton
  obtain rfl := hoperation.of_singleton
  simpa using htest

/-- Whether the package has a message of a name with fields of given names and numbers. -/
def hasFields (name : String) (fields : List (String × Int)) (c : Compilation) : Bool :=
  (c.graph.children c.package).any fun t => match t with
    | .node id => (c.graph.message? id).any fun m =>
        m.name == name && m.fields.map (fun f => (f.name, f.number)) == fields
    | .builtin _ => false

theorem exists_of_hasFields {name : String} {fields : List (String × Int)}
    (h : hasFields name fields c = true) :
    ∃ id m, .node id ∈ c.graph.children c.package ∧ c.graph.message? id = some m ∧
      m.name = name ∧ m.fields.map (fun f => (f.name, f.number)) = fields := by
  obtain ⟨t, hchild, ht⟩ := List.any_eq_true.1 h
  cases t with
  | builtin => cases ht
  | node id =>
    obtain ⟨m, hm, hfields⟩ := Option.any_eq_true _ _ |>.1 ht
    rw [Bool.and_eq_true, beq_iff_eq, beq_iff_eq] at hfields
    exact ⟨id, m, hchild, hm, hfields⟩

end ApiProto.Compile
