import ApiProto.Proofs.Courses
import ApiProto.Proofs.Phases
import ApiProto.Proofs.ResolutionSteps
import ApiProto.Proofs.Walk

/-!
# The course of a compilation

How compiling a description is made of elementary steps: a node is added, a type is declared, a
field or an import is added, a definition is made, a reference is replaced. So it is known which
states a compilation passes, also one that fails.

* `CompileM.Elementary`, `ResolveM.Elementary` — the elementary steps.
* `compiling`, `resolutions` — the machines of compilations and of resolution.
* `compileSchema.course`, `compileAll.course` — the courses of compiling a schema and a description.
-/

namespace ApiProto.Proto

open Compile

/-! ## Resolution -/

/-- The steps of resolution that change the graph at most once. -/
inductive ResolveM.Elementary : {α : Type} → ResolveM α → Prop
  | modify (k : Resolution → Resolution) : Elementary (modify k)

/-- The machine of resolution. -/
def resolutions : Machine ResolveM Resolution where
  next m r := match m.run.run r with
    | (.ok a, r') => some (a, r')
    | (.error _, _) => none
  framed := ResolveM.within
  Elementary := ResolveM.Elementary
  next_pure _ _ := rfl
  next_bind m f r := by
    rw [ResolveM.run_bind]
    rcases m.run.run r with ⟨e | a, r'⟩ <;> rfl
  next_framed frame m r := by
    show (match (ApiProto.framed frame (m.run.run r).1, (m.run.run r).2) with
      | (.ok a, r') => some (a, r')
      | (.error _, _) => none) = _
    rcases m.run.run r with ⟨e | a, r'⟩ <;> rfl

theorem ResolveM.get_still : resolutions.Still get := by
  rintro r a r' h
  exact (Prod.mk.inj (Option.some.inj h)).2.symm

theorem ResolveM.throw_still {α : Type} (e : Error) : resolutions.Still (throw e : ResolveM α) :=
  nofun

open Course in
def resolveChild.course (targets : Targets) (depth : Nat)
    (t : ∀ id, Course resolutions (resolveMessage targets depth id)) :
    ∀ child, Course resolutions (resolveChild targets depth child)
  | .node c =>
    .bind (still ResolveM.get_still) fun _ => .ite (t c) (still (resolutions.still_pure _))
  | .builtin _ => still (resolutions.still_pure _)

open Course in
def resolveField.course (targets : Targets) (depth id : Nat) (name : String)
    (t : ∀ t, Course resolutions (resolveType targets depth t)) :
    ∀ field, Course resolutions (resolveField targets depth id name field)
  | (field, _) => .bind (.framed (S := resolutions) (t field.type)) fun _ => once (.modify _)

open Course in
mutual

def resolveType.course (targets : Targets) :
    ∀ depth t, Course resolutions (resolveType targets depth t)
  | _, .builtin b =>
    .same (m := pure (.builtin b)) (by rw [resolveType]) (still (resolutions.still_pure _))
  | 0, .node _ => .same (m := throw (.of .endless)) (by rw [resolveType])
      (still (ResolveM.throw_still _))
  | depth + 1, .node id =>
    .bind (still ResolveM.get_still) fun r =>
      match r.graph.node? id with
      | some (.reference ref) => .bind (still ResolveM.get_still) fun r =>
        match follow r.graph targets ref with
        | .ok t => resolveType.course targets depth t
        | .error _ => still (ResolveM.throw_still _)
      | some (.map key value) => .bind (resolveType.course targets depth value) fun _ =>
          .bind (once (.modify _)) fun _ => still (resolutions.still_pure _)
      | some (.message _) => .bind (resolveMessage.course targets depth id) fun _ =>
          still (resolutions.still_pure _)
      | some (.package _) | some (.enumeration _) | some (.extension _) | some (.service _)
      | some (.builtin _) | none => still (resolutions.still_pure _)
termination_by structural depth => depth

def resolveMessage.course (targets : Targets) :
    ∀ depth id : Nat, Course resolutions (resolveMessage targets depth id)
  | 0, _ => .same (m := throw (.of .endless)) (by rw [resolveMessage])
      (still (ResolveM.throw_still _))
  | depth + 1, id =>
    .bind (still ResolveM.get_still) fun r =>
      match r.graph.message? id with
      | none => still (resolutions.still_pure _)
      | some m =>
        .ite (still (resolutions.still_pure _)) <|
        .bind (once (.modify _)) fun _ =>
          .bind (.forM (resolveChild.course targets depth (resolveMessage.course targets depth)) _)
            fun _ =>
              .forM
                (resolveField.course targets depth id m.name (resolveType.course targets depth)) _
termination_by structural depth => depth

end

open Course in
def resolvePackage.course (targets : Targets) (package : Nat) :
    Course resolutions (resolvePackage targets package) :=
  .bind (still ResolveM.get_still) fun _ =>
    .forM (resolveChild.course targets _ (resolveMessage.course targets _)) _

open Course in
def resolveAt.course (targets : Targets) (t : TypeRef) :
    Course resolutions (resolveAt targets t) :=
  .bind (still ResolveM.get_still) fun _ => resolveType.course targets _ t

end ApiProto.Proto

namespace ApiProto.Compile

open Proto Document CompileM

/-! ## Compilation -/

/-- The steps of a compilation that change the state at most once. -/
inductive CompileM.Elementary : {α : Type} → CompileM α → Prop
  | modify (k : Compilation → Compilation) : Elementary (modify k)
  | newNode (n : Node) : Elementary (newNode n)
  | declareIn (scope : Scope) (parent : Nat) (t : TypeRef) : Elementary (declareIn scope parent t)
  | addImport (file : String) : Elementary (addImport file)
  | addField (message : Nat) (f : Proto.Field TypeRef Value) : Elementary (addField message f)
  | define (ref : String) (d : Definition) : Elementary (define ref d)

theorem toOption_eq_some {α ε : Type} {result : Except ε α} {a : α} :
    result.toOption = some a ↔ result = .ok a := by
  cases result <;> simp [Except.toOption]

/-- The machine of compilations. -/
def compiling : Machine CompileM Compilation where
  next m c := (m c).toOption
  framed := within
  Elementary := CompileM.Elementary
  next_pure _ _ := rfl
  next_bind m f c := by
    show ((m c).bind fun p => f p.1 p.2).toOption = _
    rcases m c with e | p <;> rfl
  next_framed frame m c := by
    refine Option.ext fun p => ?_
    rw [toOption_eq_some, toOption_eq_some, within_ok_iff]

variable {α β : Type}

/-- A compilation that succeeds passes the state in which it ends. -/
theorem passes_of_ok {m : CompileM α} (t : Course compiling m) {c c' : Compilation} {a : α}
    (h : m c = .ok (a, c')) : t.Passes c c' :=
  t.passes_end (toOption_eq_some.2 h)

/-- A step of a compilation that changes nothing. -/
theorem still_of {m : CompileM α} (h : ∀ c a c', m c = .ok (a, c') → c = c') : compiling.Still m :=
  fun c a c' hnext => (h c a c' (toOption_eq_some.1 hnext)).symm

theorem get_still : compiling.Still get := still_of fun _ _ _ h => (Prod.mk.inj (Except.ok.inj h)).2

theorem pure_still (a : α) : compiling.Still (pure a) := compiling.still_pure a

theorem failWith_still (cause : Cause) : compiling.Still (failWith cause : CompileM α) :=
  still_of fun _ _ _ h => (failWith_ok_iff.1 h).elim

theorem throw_still (e : Error) : compiling.Still (throw e : CompileM α) :=
  still_of fun _ _ _ h => (throw_ok_iff.1 h).elim

theorem ofResult_still (result : Except Error α) : compiling.Still (ofResult result) :=
  still_of fun _ _ _ h => (ofResult_ok_iff.1 h).2

theorem lookupType_still (name : String) (scope : Scope) :
    compiling.Still (lookupType name scope) :=
  still_of fun _ _ _ h => (Prod.mk.inj (Except.ok.inj h)).2

theorem nameOf_still (t : TypeRef) : compiling.Still (nameOf t) :=
  still_of fun _ _ _ h => (Prod.mk.inj (Except.ok.inj h)).2

theorem isMap_still (t : TypeRef) : compiling.Still (isMap t) :=
  still_of fun _ _ _ h => isMap_ok h

theorem compileMultiType_still (s : Schema) : compiling.Still (compileMultiType s) := by
  unfold compileMultiType
  split
  · split
    · exact pure_still _
    · exact failWith_still _
  · exact pure_still _

theorem requestSchema_still (parameters : List Parameter) :
    compiling.Still (requestSchema parameters) :=
  still_of fun _ _ _ h => requestSchema_ok h

theorem parameterSchema_still (p : Parameter) : compiling.Still (parameterSchema p) :=
  still_of fun _ _ _ h => parameterSchema_ok h

theorem checkResolved_still : compiling.Still checkResolved :=
  still_of fun _ _ _ h => (checkResolved_ok h).1

/-! ## Declarations, imports and references -/

open Course

def declareDefinition.course (scope : Scope) (d : Definition) :
    Course compiling (declareDefinition scope d) :=
  match scope, d with
  | parent :: _, .type t => once (.declareIn _ parent t)
  | [], _ => still (pure_still _)
  | _ :: _, .parameter .. => still (pure_still _)

def addImportFor.course (name : String) : Course compiling (addImportFor name) :=
  show Course compiling (match importOf? name with
    | some file => addImport file
    | none => return) from
  match importOf? name with
  | some file => once (.addImport file)
  | none => still (pure_still _)

def compileReference.course (ref : String) : Course compiling (compileReference ref) :=
  .bind (still get_still) fun c =>
    match c.definition? ref with
    | some _ => still (pure_still _)
    | none => .bind (still get_still) fun _ =>
        .ite (.bind (once (.newNode _)) fun _ => still (pure_still _)) (still (failWith_still _))

def compileReferenceValue.course (ref : Value) : Course compiling (compileReferenceValue ref) :=
  .bind (still (ofResult_still _)) fun _ => compileReference.course _

def compileEnum.course (env : Environment) (scope : Scope) (name : String) (choices : List String) :
    Course compiling (compileEnum env scope name choices) :=
  .bind (still get_still) fun _ => .bind (once (.newNode _)) fun _ => still (pure_still _)

/-! ## Schemas -/

/-- The courses of a way to compile a schema. -/
abbrev ActionCourse (a : Action) : Type 1 :=
  ∀ scope name comment, Course compiling (a scope name comment)

/-- The courses of the ways to compile an inner schema. -/
structure PartCourse (p : Part) : Type 1 where
  whole : ActionCourse p.whole
  items : ∀ a, p.items = some a → ActionCourse a

def refListWrapper.course (env : Environment) (scope : Scope) (ref : Value) :
    Course compiling (refListWrapper env scope ref) :=
  .bind (still (ofResult_still _)) fun text => .bind (still get_still) fun c =>
    match c.wrappers.lookup (Name.pascal (String.ofList (Text.afterLast '/' text.toList))) with
    | some _ => still (pure_still _)
    | none =>
      .bind (compileReference.course _) fun _ => .bind (still get_still) fun _ =>
        .bind (once (.newNode _)) fun _ => .bind (once (.modify _)) fun _ =>
          .bind (still get_still) fun _ => .bind (once (.declareIn _ _ _)) fun _ =>
            still (pure_still _)

def objectListWrapper.course (scope : Scope) (name rawName : String) (comment : Value)
    {items : Action} (itemComment : Value) (t : ActionCourse items) :
    Course compiling (objectListWrapper scope name rawName comment items itemComment) :=
  .bind (t scope name itemComment) fun _ => .bind (declareDefinition.course _ _) fun _ =>
    .bind (still (nameOf_still _)) fun _ => .bind (once (.newNode _)) fun _ =>
      .bind (declareDefinition.course _ _) fun _ => still (pure_still _)

/-- The course of giving up a type for a well-known one, with the import that it needs. -/
def wellKnown.course (b : Builtin) :
    Course compiling (do addImportFor b.name; return .builtin b : CompileM TypeRef) :=
  .bind (addImportFor.course _) fun _ => still (pure_still _)

def compileMapValue.course (env : Environment) (scope : Scope) (name rawName : String) {p : Part}
    (t : PartCourse p) : Course compiling (compileMapValue env scope name rawName p) :=
  .ite (.bind (compileReferenceValue.course _) fun _ => still (pure_still _)) <|
  .ite
    (match p.schema.items, p.items, t.items with
    | some items, some action, t =>
      .ite (refListWrapper.course env scope items.ref) <|
      .ite (objectListWrapper.course _ _ _ _ _ (t action rfl)) (wellKnown.course _)
    | none, _, _ => wellKnown.course _
    | some _, none, _ => wellKnown.course _) <|
  .bind (t.whole _ _ _) fun _ => .bind (still (isMap_still _)) fun _ =>
    .ite (wellKnown.course _) (still (pure_still _))

def compileMap.course (env : Environment) (scope : Scope) (name rawName : String) {p : Part}
    (t : PartCourse p) : Course compiling (compileMap env scope name rawName p) :=
  .bind (compileMapValue.course env scope name rawName t) fun _ =>
    .bind (once (.newNode _)) fun _ => still (pure_still _)

def compilePropertyType.course (env : Environment) (scope : Scope) (name : String) {p : Part}
    (t : PartCourse p) : Course compiling (compilePropertyType env scope name p) :=
  .ite (.bind (still (compileMultiType_still _)) fun _ => still (pure_still _)) <|
  .ite (t.whole _ _ _) <|
  .ite
    (match p.items, t.items with
    | none, _ => still (failWith_still _)
    | some items, t => .bind (t items rfl _ _ _) fun _ => still (pure_still _)) <|
  .ite
    (.bind (still (lookupType_still _ _)) fun found =>
      match found with
      | some _ => .bind (still (pure_still _)) fun _ => still (pure_still _)
      | none => .bind (t.whole _ _ _) fun _ => still (pure_still _))
    (.bind (still (nameOf_still _)) fun _ => .bind (compileEnum.course _ _ _ _) fun _ =>
      .bind (still (pure_still _)) fun _ => still (pure_still _))

def compileProperty.course (env : Environment) (scope : Scope) (name : String) {p : Part}
    (t : PartCourse p) : Course compiling (compileProperty env scope name p) :=
  .bind (compilePropertyType.course env scope name t) fun d =>
    match d with
    | .parameter .. => .bind (still (pure_still _)) fun _ =>
      .bind (declareDefinition.course _ _) fun _ => still (pure_still _)
    | .type _ =>
      .ite
        (.bind (still (pure_still _)) fun _ => .bind (still (pure_still _)) fun _ =>
          .bind (declareDefinition.course _ _) fun _ => still (pure_still _))
        (.bind (still (ofResult_still _)) fun _ => .bind (still (pure_still _)) fun _ =>
          .bind (declareDefinition.course _ _) fun _ => still (pure_still _))

def addPropertyField.course (message : Nat) (p : CompiledProperty) (number : Int) :
    Course compiling (addPropertyField message p number) :=
  .bind (once (.addField _ _)) fun _ => .bind (still get_still) fun _ =>
    .bind (still (nameOf_still _)) fun _ => addImportFor.course _

theorem sortEntries_partList (env : Environment) (properties : List (String × Schema)) :
    sortEntries (partList env properties) =
      (sortEntries properties).map fun entry => (entry.1, part env entry.2) := by
  rw [partList_eq_map]
  exact sortBy_map (fun _ _ => rfl) properties

/-- The course of compiling properties one after the other. -/
def compileEach.course (env : Environment) (scope : Scope) {properties : List (String × Schema)}
    (t : ∀ entry ∈ properties, PartCourse (part env entry.2)) :
    Course compiling ((sortEntries (partList env properties)).mapM fun (key, p) =>
      within ("failed to compile property " ++ key) (compileProperty env scope key p)) :=
  .same (by rw [sortEntries_partList]) <|
    .mapM (f := fun (key, p) =>
      within ("failed to compile property " ++ key) (compileProperty env scope key p))
      (k := fun entry => (entry.1, part env entry.2)) (sortEntries properties)
      fun (key, s) hentry =>
        .framed (S := compiling) (compileProperty.course env scope key
          (t (key, s) (mem_sortEntries.1 hentry)))

/-- Adds the fields of properties that have been compiled, once they have got numbers. -/
def addNumbered (message : Nat) (compiled : List CompiledProperty) :
    Except Error (List Int) → CompileM Unit
  | .error e => throw e
  | .ok numbers => addFields message (compiled.zip numbers)

theorem compileProperties_eq (env : Environment) (scope : Scope) (message : Nat) (name : String)
    (properties : List (String × Part)) : compileProperties env scope message name properties =
      ((sortEntries properties).mapM fun (key, p) =>
        within ("failed to compile property " ++ key) (compileProperty env scope key p)) >>=
      fun compiled => addNumbered message compiled
        (assignNumbers name (compiled.map fun p => (Name.fieldName p.name, p.number))) := by
  unfold compileProperties
  refine congrArg (Bind.bind _) (funext fun compiled => ?_)
  rcases assignNumbers name _ with e | numbers <;> rfl

def addNumbered.course (message : Nat) (compiled : List CompiledProperty) :
    ∀ numbers, Course compiling (addNumbered message compiled numbers)
  | .error e => still (throw_still e)
  | .ok _ => .forM (fun (p, number) => addPropertyField.course message p number) _

def compileProperties.course (env : Environment) (scope : Scope) (message : Nat) (name : String)
    {properties : List (String × Schema)}
    (t : ∀ entry ∈ properties, PartCourse (part env entry.2)) :
    Course compiling (compileProperties env scope message name (partList env properties)) :=
  .same (compileProperties_eq ..).symm <|
    .bind (compileEach.course env scope t) fun compiled => addNumbered.course message compiled _

def compileMessage.course (env : Environment) (scope : Scope) (name : String) (comment : Value)
    {properties : List (String × Schema)}
    (t : ∀ entry ∈ properties, PartCourse (part env entry.2)) :
    Course compiling (compileMessage env scope name comment (partList env properties)) :=
  .bind (once (.newNode _)) fun message =>
    .bind (.framed (compileProperties.course env (message :: scope) message name t)) fun _ =>
      .bind (declareDefinition.course _ _) fun _ => still (pure_still _)

def compileNew.course (env : Environment) (s : Schema) (scope : Scope) (rawName name : String)
    (comment : Value) {items : Option Action} {additional : Option Part}
    {properties : List (String × Schema)} (ti : ∀ a, items = some a → ActionCourse a)
    (ta : ∀ p, additional = some p → PartCourse p)
    (tp : ∀ entry ∈ properties, PartCourse (part env entry.2)) :
    Course compiling
      (compileNew env s scope rawName name comment items additional (partList env properties)) :=
  .ite (.bind (still (compileMultiType_still _)) fun _ => still (pure_still _)) <|
  .ite
    (match additional, ta with
    | none, _ => compileMessage.course env scope name comment tp
    | some p, ta =>
      .ite (.bind (addImportFor.course _) fun _ => still (pure_still _))
        (.bind (compileMap.course env scope name _ (ta p rfl)) fun _ => still (pure_still _))) <|
  .ite
    (match items, ti with
    | none, _ => still (failWith_still _)
    | some a, ti => .bind (ti a rfl _ _ _) fun _ =>
        .bind (declareDefinition.course _ _) fun _ => still (pure_still _)) <|
  .ite
    (.ite
      (.bind (still (lookupType_still _ _)) fun found =>
        match found with
        | some _ => still (pure_still _)
        | none => still (failWith_still _))
      (.bind (compileEnum.course _ _ _ _) fun _ =>
        .bind (declareDefinition.course _ _) fun _ => still (pure_still _))) <|
  .ite (still (pure_still _)) (still (failWith_still _))

def compileWith.course (env : Environment) (s : Schema) {items : Option Action}
    {additional : Option Part} {properties : List (String × Schema)}
    (ti : ∀ a, items = some a → ActionCourse a) (ta : ∀ p, additional = some p → PartCourse p)
    (tp : ∀ entry ∈ properties, PartCourse (part env entry.2)) :
    ActionCourse (compileWith env s items additional (partList env properties)) :=
  fun scope rawName comment =>
    .ite (.framed (S := compiling) (compileReferenceValue.course _)) <|
    .bind (still (lookupType_still _ _)) fun found =>
      match found with
      | some _ => still (pure_still _)
      | none => .bind (still (lookupType_still _ _)) fun found =>
        match found with
        | some _ => still (pure_still _)
        | none => compileNew.course env s.denull scope rawName _ comment ti ta tp

theorem sizeOf_items {s i : Schema} (h : s.items = some i) : sizeOf i < sizeOf s := by
  cases s
  subst h
  simp only [Schema.mk.sizeOf_spec, Option.some.sizeOf_spec]
  omega

theorem sizeOf_additional {s i : Schema} (h : s.additional = some i) : sizeOf i < sizeOf s := by
  cases s
  subst h
  simp only [Schema.mk.sizeOf_spec, Option.some.sizeOf_spec]
  omega

theorem sizeOf_property {s : Schema} {entry : String × Schema} (h : entry ∈ s.properties) :
    sizeOf entry.2 < sizeOf s := by
  have hmem := List.sizeOf_lt_of_mem h
  cases s
  obtain ⟨key, i⟩ := entry
  simp only [Schema.mk.sizeOf_spec, Prod.mk.sizeOf_spec] at hmem ⊢
  omega

/-- What goes with the result of a map goes with what it was made from. -/
def ofMapped {γ : β → Type 1} {k : α → β} :
    (o : Option α) → (∀ a, o = some a → γ (k a)) → ∀ b, o.map k = some b → γ b
  | none, _, _, h => nomatch h
  | some a, t, _, h => Option.some.inj h ▸ t a rfl

/-- The courses of compiling an inner schema, given those of compiling it and its items. -/
def part.course (env : Environment) (s : Schema)
    (t : ∀ i : Schema, sizeOf i ≤ sizeOf s → ActionCourse (compileSchema env i)) :
    PartCourse (part env s) where
  whole := t s (Nat.le_refl _)
  items a h := ofMapped s.items (fun i hi => t i (Nat.le_of_lt (sizeOf_items hi))) a
    ((compileItems_eq_map env s).symm.trans h)

/-- The courses of compiling a schema. -/
def compileSchema.course (env : Environment) (s : Schema) : ActionCourse (compileSchema env s) :=
  fun scope name comment =>
    .same (congrFun (congrFun (congrFun (compileSchema_eq env s) scope) name) comment).symm <|
      compileWith.course env s
        (ofMapped s.items fun i _ => compileSchema.course env i)
        (ofMapped s.additional fun i _ => part.course env i fun i' _ => compileSchema.course env i')
        (fun entry _ => part.course env entry.2 fun i _ => compileSchema.course env i)
        scope name comment
termination_by sizeOf s
decreasing_by
  · exact sizeOf_items ‹_›
  · exact Nat.lt_of_le_of_lt ‹_› (sizeOf_additional ‹_›)
  · exact Nat.lt_of_le_of_lt ‹_› (sizeOf_property ‹_›)

/-! ## Operations -/

def declareMessage.course (role : MessageRole) (scope : Scope) (typeName endpoint : String)
    (t : TypeRef) : Course compiling (declareMessage role scope typeName endpoint t) :=
  .bind (still get_still) fun _ =>
    .ite (.bind (still (failWith_still _)) fun _ =>
        .bind (declareDefinition.course _ _) fun _ => still (pure_still _))
      (.bind (declareDefinition.course _ _) fun _ => still (pure_still _))

def compileRequest.course (env : Environment) (scope : Scope) (name : String)
    (parameters : List Parameter) : Course compiling (compileRequest env scope name parameters) :=
  .ite (still (pure_still _)) <|
  .bind (still (requestSchema_still _)) fun _ =>
    .bind (.framed (S := compiling) (compileSchema.course env _ _ _ _)) fun _ =>
      declareMessage.course _ _ _ _ _

def compileArrayResponse.course (env : Environment) (scope : Scope) (name typeName : String)
    (items : Schema) : Course compiling (compileArrayResponse env scope name typeName items) :=
  .bind (.framed (S := compiling) (compileSchema.course env _ _ _ _)) fun _ =>
    .bind (once (.newNode _)) fun _ => .bind (still (nameOf_still _)) fun _ =>
      .bind (addImportFor.course _) fun _ => still (pure_still _)

/-- Compiles the response of an operation, given its schema, if it has one. -/
def compileResponseOf (env : Environment) (scope : Scope) (name : String) :
    Option Schema → CompileM TypeRef
  | none => return .builtin .empty
  | some s => do
    match ← ofResult (arrayItems env.spec s) with
    | some items => do
      let t ← compileArrayResponse env scope name (name ++ "Response") items
      declareMessage .response scope (name ++ "Response") name t
    | none => do
      let d ← within ("failed to compile response for " ++ name)
        (compileSchema env s scope (name ++ "Response") s.description)
      declareMessage .response scope (name ++ "Response") name d.unwrap

theorem compileResponse_eq (env : Environment) (scope : Scope) (name : String) (e : Endpoint) :
    compileResponse env scope name e = compileResponseOf env scope name (responseSchema? e) := by
  unfold compileResponse
  rcases responseSchema? e with _ | s <;> rfl

def compileResponseOf.course (env : Environment) (scope : Scope) (name : String) :
    ∀ s, Course compiling (compileResponseOf env scope name s)
  | none => still (pure_still _)
  | some s => .bind (still (ofResult_still _)) fun items =>
    match items with
    | some items => .bind (compileArrayResponse.course env scope name _ items) fun _ =>
        declareMessage.course _ _ _ _ _
    | none => .bind (.framed (S := compiling) (compileSchema.course env s scope _ _)) fun _ =>
        declareMessage.course _ _ _ _ _

def addRpc.course (rpc : Rpc TypeRef) : Course compiling (addRpc rpc) :=
  .bind (still get_still) fun c =>
    match c.graph.service? c.service with
    | none => still (pure_still _)
    | some _ =>
      .ite (still (pure_still _)) <|
      .bind (still (nameOf_still _)) fun _ => .bind (addImportFor.course _) fun _ =>
        .bind (still (nameOf_still _)) fun _ => .bind (addImportFor.course _) fun _ =>
          once (.modify _)

def compileOperation.course (env : Environment) (scope : Scope) (path : String)
    (shared : List Parameter) (e : Endpoint) :
    Course compiling (compileOperation env scope path shared e) :=
  .bind (still (ofResult_still _)) fun _ => .bind (still (ofResult_still _)) fun _ =>
    .bind (still (ofResult_still _)) fun _ => .bind (compileRequest.course _ _ _ _) fun _ =>
      .bind (.same (compileResponse_eq _ _ _ _).symm (compileResponseOf.course _ _ _ _)) fun _ =>
        .ite (.bind (.same (m := ofResult _ >>= fun option => pure [option]) rfl
            (.bind (still (ofResult_still _)) fun _ => still (pure_still _))) fun _ =>
              addRpc.course _)
          (.bind (still (pure_still _)) fun _ => addRpc.course _)

def compilePathEntry.course (env : Environment) (scope : Scope) :
    ∀ entry, Course compiling (compilePathEntry env scope entry)
  | (path, item) => .framed (S := compiling) <|
      .forM (fun e => compileOperation.course env scope path item.parameters e) _

/-! ## Descriptions -/

def compileDefinition.course (env : Environment) (scope : Scope) :
    ∀ entry, Course compiling (compileDefinition env scope entry)
  | (_, s) => .bind (.framed (S := compiling) (compileSchema.course env s _ _ _)) fun _ =>
      once (.define _ _)

def compileParameter.course (env : Environment) (scope : Scope) :
    ∀ entry, Course compiling (compileParameter env scope entry)
  | (_, p) =>
    .bind (.framed (S := compiling) (.bind (still (parameterSchema_still p)) fun entry =>
        compileSchema.course env entry.2 _ _ _)) fun _ =>
      .ite (.bind (still (nameOf_still _)) fun _ => once (.define _ _))
        (.bind (still (ofResult_still _)) fun _ => once (.define _ _))

/-- The course of a step of resolution on the graph of a compilation. -/
def resolving.course {α : Type} (visited : List Nat) {step : Definitions → ResolveM α}
    (t : ∀ table, Course resolutions (step table)) : Course compiling (resolving visited step) :=
  nested fun c c' => ∃ r, (t c.table).Passes ⟨c.graph, visited⟩ r ∧ c' = { c with graph := r.graph }

def resolveDefinitions.course : ∀ (l : List (String × Definition)) (visited : List Nat),
    Course compiling (resolveDefinitions l visited)
  | [], _ => still (pure_still _)
  | (_, d) :: rest, visited =>
    .bind (.framed (S := compiling)
      (resolving.course visited fun table => resolveAt.course table d.unwrap)) fun (_, visited) =>
        .bind (once (.modify _)) fun _ => resolveDefinitions.course rest visited

def resolveAll.course : Course compiling resolveAll :=
  .bind (still get_still) fun c =>
    .bind (resolving.course [] fun table => resolvePackage.course table c.package)
      fun (_, visited) => resolveDefinitions.course c.definitions visited

/-- The course of taking over the fields of an extension. -/
def extensionFields.course (fields : List Document.ExtensionField) :
    Course compiling (fields.mapM fun (f : Document.ExtensionField) => do
      let type ← ofResult f.type.keyText
      addImportFor type
      return (⟨f.name.display, type, f.number⟩ : Proto.ExtensionField)) :=
  .same (by rw [List.map_id]) <|
    .mapM (k := id) (f := fun (f : Document.ExtensionField) => do
      let type ← ofResult f.type.keyText
      addImportFor type
      return (⟨f.name.display, type, f.number⟩ : Proto.ExtensionField)) fields fun f _ =>
      .bind (still (ofResult_still f.type.keyText)) fun type =>
        .bind (addImportFor.course type) fun _ => still (pure_still _)

def compileExtension.course (e : Document.Extension) : Course compiling (compileExtension e) :=
  .bind (extensionFields.course e.fields) fun _ =>
    .bind (still (ofResult_still _)) fun _ => .bind (addImportFor.course _) fun _ =>
      .bind (once (.newNode _)) fun _ => once (.modify _)

def compileDeclared.course (env : Environment) (scope : Scope) :
    Course compiling (compileDeclared env scope) :=
  .bind (.framed (S := compiling) (.forM (compileDefinition.course env scope) _)) fun _ =>
    .framed (S := compiling) (.forM (compileParameter.course env scope) _)

def compileNamed.course (env : Environment) : Course compiling (compileNamed env) :=
  .bind (still get_still) fun _ =>
    .ite (.bind (once (.addImport _)) fun _ => compileDeclared.course env _)
      (compileDeclared.course env _)

def compilePhases.course (env : Environment) : Course compiling (compilePhases env) :=
  .bind (still get_still) fun _ => .bind (compileNamed.course env) fun _ =>
    .bind (.framed (S := compiling) resolveAll.course) fun _ => .bind (once (.modify _)) fun _ =>
      .bind (.forM compileExtension.course _) fun _ =>
        .ite (.framed (S := compiling) (.forM (compilePathEntry.course env _) _))
          (still (pure_still _))

def compileAll.course (env : Environment) : Course compiling (compileAll env) :=
  .same (compileAll_eq env).symm <|
    .bind (compilePhases.course env) fun _ => still checkResolved_still

end ApiProto.Compile
