import ApiProto.Proofs.DocumentTranslation
import ApiProto.Proofs.PackageTranslation

/-!
# One package from both versions

A document in the older version and the same document in the newer one give the same package, as long
as no name spells out a reference.

* `file?_compileDocument_upgrade` — the packages are the same.
* `Spec.isPortable` — a test for schemas that spell out no reference.
* `upgrade_tells_wrappedAhead` — a comment that gives a type as the reference to it tells the versions
  apart.
-/

namespace ApiProto.Document

/-! ## Portable schemas -/

/-- Whether a list of objects that are given in place spells out no reference. -/
def Schema.listsSilently (s : Schema) : Bool :=
  match s.items with
  | some i => s.firstType != "array" || !i.ref.isEmpty || i.properties.isEmpty || !i.spells
  | none => true

theorem Schema.listsSilently_iff {s : Schema} : s.listsSilently = true ↔ s.ListsSilently := by
  unfold listsSilently ListsSilently
  rcases s.items with _ | i
  · simp
  · simp only [Bool.or_eq_true, bne_iff_ne, Bool.not_eq_true', List.isEmpty_iff, Option.some.injEq,
      forall_eq', ne_eq]
    by_cases h : s.firstType = "array" <;> cases i.ref.isEmpty <;>
      by_cases hp : i.properties = [] <;> simp [h, hp]

/-- Whether a value is a text. -/
def isText (v : Value) : Bool := v matches .text _

theorem exists_of_isText {v : Value} (h : isText v = true) : ∃ s, v = .text s := by
  cases v with
  | text s => exact ⟨s, rfl⟩
  | _ => cases h

mutual

/-- Whether a schema and all schemas in it are transferable. -/
def Schema.isPortable : Schema → Bool
  | ⟨ref, _, _, _, _, properties, items, additional, _, _⟩ =>
    isText ref && (additional.all Schema.listsSilently && (optionIsPortable items &&
      (optionIsPortable additional && allArePortable properties)))

/-- Whether a schema that may be missing is portable. -/
def optionIsPortable : Option Schema → Bool
  | none => true
  | some s => s.isPortable

/-- Whether all schemas of a table are portable. -/
def allArePortable : List (String × Schema) → Bool
  | [] => true
  | entry :: rest => entry.2.isPortable && allArePortable rest

end

mutual

theorem Schema.portable_of_isPortable : ∀ s : Schema, s.isPortable = true → s.Portable
  | ⟨ref, types, format, choices, description, properties, items, additional, tag, protoName⟩,
    h => by
    rw [Schema.isPortable, Bool.and_eq_true, Bool.and_eq_true, Bool.and_eq_true,
      Bool.and_eq_true] at h
    obtain ⟨href, hvalues, hitems, hadditional, hproperties⟩ := h
    intro t ht
    cases ht with
    | self =>
      refine ⟨exists_of_isText href, fun p hp => Schema.listsSilently_iff.1 ?_⟩
      obtain rfl : additional = some p := hp
      exact hvalues
    | items hi ht => exact portable_of_optionIsPortable items hitems _ hi t ht
    | additional hp ht => exact portable_of_optionIsPortable additional hadditional _ hp t ht
    | property hentry ht => exact portable_of_allArePortable properties hproperties _ hentry t ht

theorem portable_of_optionIsPortable : ∀ o : Option Schema, optionIsPortable o = true →
    ∀ s, o = some s → s.Portable
  | none, _ => nofun
  | some s, h => fun _ hs => Option.some.inj hs ▸ s.portable_of_isPortable h

theorem portable_of_allArePortable : ∀ l : List (String × Schema), allArePortable l = true →
    ∀ entry ∈ l, entry.2.Portable
  | [], _ => nofun
  | first :: rest, h => by
    rw [allArePortable, Bool.and_eq_true] at h
    intro entry hentry
    cases hentry with
    | head => exact first.2.portable_of_isPortable h.1
    | tail _ hentry => exact portable_of_allArePortable rest h.2 entry hentry

end

/-- Whether what a parameter is as a property is portable. -/
def Parameter.isPortable (p : Parameter) : Bool :=
  !p.ref.isEmpty || (p.property "").isPortable

/-- The name of a property is no part of its schema. -/
theorem Parameter.isPortable_property (p : Parameter) (key : String) :
    (p.property key).isPortable = (p.property "").isPortable := by
  unfold property
  rcases p.schema with _ | s
  · rfl
  · cases s
    rfl

theorem Parameter.portable_of_isPortable {p : Parameter} (h : p.isPortable = true) : p.Portable := by
  intro href key
  refine Schema.portable_of_isPortable _ ?_
  rw [isPortable_property]
  simpa [isPortable, href] using h

/-- Whether the schemas of an operation are portable. -/
def Endpoint.isPortable (e : Endpoint) : Bool :=
  e.parameters.all Parameter.isPortable &&
    e.responses.all fun entry => optionIsPortable entry.2.schema

theorem Endpoint.portable_of_isPortable {e : Endpoint} (h : e.isPortable = true) : e.Portable := by
  rw [isPortable, Bool.and_eq_true, List.all_eq_true, List.all_eq_true] at h
  exact ⟨fun p hp => Parameter.portable_of_isPortable (h.1 p hp),
    fun entry hentry => portable_of_optionIsPortable _ (h.2 entry hentry)⟩

/-- Whether the schemas of a description are portable. -/
def Spec.isPortable (spec : Spec) : Bool :=
  spec.definitions.all (fun entry => entry.2.isPortable) &&
    (spec.parameters.all (fun entry => entry.2.isPortable) && spec.paths.all fun entry =>
      entry.2.parameters.all Parameter.isPortable && entry.2.endpoints.all Endpoint.isPortable)

theorem Spec.portable_of_isPortable {spec : Spec} (h : spec.isPortable = true) : spec.Portable := by
  simp only [isPortable, Bool.and_eq_true, List.all_eq_true] at h
  obtain ⟨hdefinitions, hparameters, hpaths⟩ := h
  exact ⟨fun entry hentry => Schema.portable_of_isPortable _ (hdefinitions entry hentry),
    fun entry hentry => Parameter.portable_of_isPortable (hparameters entry hentry),
    fun entry hentry p hp => Parameter.portable_of_isPortable ((hpaths entry hentry).1 p hp),
    fun entry hentry e he => Endpoint.portable_of_isPortable ((hpaths entry hentry).2 e he)⟩

/-- If all shared parameters have names, these are all that is needed. -/
theorem Spec.namesSilently_of_named {spec : Spec}
    (h : (spec.parameters.all fun entry => !entry.2.name.isEmpty) = true) : spec.NamesSilently := by
  intro entry hentry hname
  have hnamed := List.all_eq_true.1 h entry hentry
  simp [hname] at hnamed

end ApiProto.Document

namespace ApiProto.Proto

namespace Graph

/-- Whether a type is something else than a reference. -/
def isNoReference (g : Graph) : TypeRef → Bool
  | .builtin _ => true
  | .node id => !(g.node? id matches some (.reference _))

theorem IsReference.isNoReference_eq_false {g : Graph} {t : TypeRef} (h : g.IsReference t) :
    g.isNoReference t = false := by
  obtain ⟨id, ref, rfl, hn⟩ := h
  simp [isNoReference, hn]

/-- Whether neither the package nor a node mentions a reference. -/
def isSettled (g : Graph) (package : Nat) : Bool :=
  (g.children package).all g.isNoReference && g.nodes.all fun n => n.mentions.all g.isNoReference

theorem dangling_eq_nil_of_isSettled {g : Graph} {package : Nat}
    (h : g.isSettled package = true) : dangling g package = [] := by
  obtain ⟨hchildren, hnodes⟩ := Bool.and_eq_true_iff.1 h
  refine dangling_eq_nil_iff.2 fun t ht href => ?_
  cases ht with
  | child hchild =>
    exact absurd (List.all_eq_true.1 hchildren t hchild) (by simp [href.isNoReference_eq_false])
  | mention _ hn hmention =>
    obtain ⟨hlt, hget⟩ := Array.getElem?_eq_some_iff.1 hn
    have hall := Array.all_eq_true.1 hnodes _ hlt
    rw [hget] at hall
    exact absurd (List.all_eq_true.1 hall t hmention) (by simp [href.isNoReference_eq_false])

end Graph

end ApiProto.Proto

namespace ApiProto.Compile

open Proto Document

/-! ## Both versions -/

/-- A document and the same document in the newer version give the same package, or both fail. -/
theorem file?_compileDocument_upgrade (options : Options) {doc : Value}
    (hdoc : Older.IsDocument doc)
    (hspec : ∀ spec, Spec.read doc = .ok spec → spec.Portable ∧ spec.NamesSilently) :
    (compileDocument options (upgrade doc)).toOption.map Output.file? =
      (compileDocument options doc).toOption.map Output.file? := by
  have htally := Spec.read_upgrade hdoc
  unfold compileDocument
  rcases hread : Spec.read doc with e | spec <;>
    rcases hread' : Spec.read (upgrade doc) with e' | spec' <;> rw [hread, hread'] at htally
  · rfl
  · exact htally.elim
  · exact htally.elim
  · obtain ⟨hportable, hnames⟩ := hspec spec hread
    exact file?_compile_of_translates options htally (Spec.read_sharesApart hread) hportable hnames

/-- Whether a document can be read as a description that passes a test. -/
def readsTo (doc : Value) (test : Spec → Bool) : Bool :=
  match Spec.read doc with
  | .ok spec => test spec
  | .error _ => false

theorem test_of_readsTo {doc : Value} {test : Spec → Bool} (h : readsTo doc test = true)
    {spec : Spec} (hspec : Spec.read doc = .ok spec) : test spec = true := by
  rwa [readsTo, hspec] at h

/-- Whether a description can be compiled to a package that passes a test, such that no reference is
mentioned in the end. -/
def settlesTo (test : Output → Bool) (options : Options) (spec : Spec) : Bool :=
  match compilePhases ⟨options, spec⟩ (startOf ⟨options, spec⟩) with
  | .ok (_, c) => c.graph.isSettled c.package && test ⟨c.graph, c.package⟩
  | .error _ => false

theorem compileDocument_of_readsTo {test : Output → Bool} {options : Options} {doc : Value}
    (h : readsTo doc (settlesTo test options) = true) :
    ∃ o, compileDocument options doc = .ok o ∧ test o = true := by
  rcases hspec : Spec.read doc with e | spec
  · rw [readsTo, hspec] at h
    cases h
  · have h := test_of_readsTo h hspec
    unfold settlesTo at h
    split at h
    · next c hphases =>
      obtain ⟨hsettled, htest⟩ := Bool.and_eq_true_iff.1 h
      have hrun := compileAll_ok_iff.2 ⟨hphases, Graph.dangling_eq_nil_of_isSettled hsettled⟩
      refine ⟨_, ?_, htest⟩
      rw [compileDocument, hspec]
      exact compile_ok_iff.2 ⟨c, hrun, rfl⟩
    · cases h

/-- An object with one member. -/
def single (key : String) (member : Value) : Value := .object [(key, member)]

/-- A written reference. -/
def writtenReference (ref : String) : Value := single "$ref" (.text ref)

/-- A written schema for objects. -/
def writtenObject (properties : List (String × Value)) : Value :=
  .object [("type", .text "object"), ("properties", .object properties)]

/-- A written schema for the values of objects with arbitrary keys. -/
def writtenMap (values : Value) : Value :=
  .object [("type", .text "object"), ("additionalProperties", values)]

/-- A written schema for lists. -/
def writtenList (items : Value) : Value := .object [("type", .text "array"), ("items", items)]

/-- A store of pets, with a shared parameter and a body. -/
def petStore : Value := .object [
  ("swagger", .text "2.0"),
  ("info", single "title" (.text "pets")),
  ("basePath", .text "/v1"),
  ("definitions", .object [
    ("Owner", writtenObject [("name", single "type" (.text "string"))]),
    ("Pet", writtenObject [("owner", writtenReference "#/definitions/Owner"),
      ("labels", writtenMap (single "type" (.text "string")))])]),
  ("parameters", .object [
    ("PageLimit", .object [("name", .text "limit"), ("in", .text "query"),
      ("type", .text "integer")])]),
  ("paths", .object [
    ("/pets", .object [
      ("get", .object [("operationId", .text "listPets"),
        ("parameters", .list [writtenReference "#/parameters/PageLimit"]),
        ("responses", single "200" (single "schema"
          (writtenList (writtenReference "#/definitions/Pet"))))]),
      ("post", .object [("operationId", .text "addPet"),
        ("parameters", .list [.object [("in", .text "body"), ("name", .text "body"),
          ("schema", writtenReference "#/definitions/Pet")]]),
        ("responses", single "200" (single "description" (.text "")))])])])]

theorem isDocument_petStore : Older.IsDocument petStore where
  version := by decide
  basePath := by
    rintro _ ⟨⟩
    have hplain : ∀ c ∈ "v1".toList, c.isAlphanum = true ∨ c = '-' ∨ c = '_' ∨ c = '/' :=
      List.forall_mem_cons.2 ⟨.inl (by decide), List.forall_mem_singleton.2 (.inl (by decide))⟩
    have hpath : Older.IsBasePath (.text ("/" ++ "v1")) := .path (by decide) hplain
    exact hpath
  parameters := by
    rintro _ ⟨⟩ entry hentry
    obtain rfl := List.mem_singleton.1 hentry
    exact .given ⟨rfl, rfl, rfl, nofun, by decide +kernel⟩
  paths := by
    rintro _ ⟨⟩ entry hentry
    obtain rfl := List.mem_singleton.1 hentry
    refine ⟨fun _ h => (by cases h), fun verb op hop => ?_⟩
    cases verb <;> try cases hop
    · refine ⟨?_, rfl, ?_⟩
      · rintro _ ⟨⟩
        have hreference : Older.IsParameter (writtenReference ("#/parameters/" ++ "PageLimit")) :=
          .reference rfl
        exact ⟨[writtenReference "#/parameters/PageLimit"], none, rfl,
          by simpa using ⟨hreference, rfl⟩, nofun⟩
      · rintro _ ⟨⟩
        exact ⟨_, rfl, by simpa using ⟨⟨_, rfl⟩, rfl, rfl⟩⟩
    · refine ⟨?_, rfl, ?_⟩
      · rintro _ ⟨⟩
        refine ⟨[], some _, rfl, nofun, ?_⟩
        rintro _ ⟨⟩
        exact ⟨rfl, rfl, ⟨_, rfl⟩, rfl, rfl, rfl, rfl⟩
      · rintro _ ⟨⟩
        exact ⟨_, rfl, by simpa using ⟨⟨_, rfl⟩, rfl, rfl⟩⟩

theorem file?_compileDocument_upgrade_petStore : Older.IsDocument petStore ∧
    (∀ spec, Spec.read petStore = .ok spec → spec.Portable ∧ spec.NamesSilently) ∧
    ∃ o, compileDocument ⟨true, false, true, true, "pet"⟩ petStore = .ok o ∧
      (compileDocument ⟨true, false, true, true, "pet"⟩ (upgrade petStore)).toOption.map
        Output.file? = some o.file? := by
  have hspec : ∀ spec, Spec.read petStore = .ok spec → spec.Portable ∧ spec.NamesSilently :=
    fun spec hspec =>
      ⟨Spec.portable_of_isPortable (test_of_readsTo (by decide +kernel) hspec),
        Spec.namesSilently_of_named (test_of_readsTo (show readsTo petStore (fun spec =>
          spec.parameters.all fun entry => !entry.2.name.isEmpty) = true by decide +kernel) hspec)⟩
  obtain ⟨o, hrun, -⟩ := compileDocument_of_readsTo
    (show readsTo petStore (settlesTo (fun _ => true) ⟨true, false, true, true, "pet"⟩) = true by
      decide +kernel)
  refine ⟨isDocument_petStore, hspec, o, hrun, ?_⟩
  rw [file?_compileDocument_upgrade _ isDocument_petStore hspec, hrun]
  rfl

/-! ## A comment that spells out a reference -/

/-- Lists of maps to a schema that is compiled later. -/
def wrappedAhead : Value := .object [
  ("swagger", .text "2.0"),
  ("definitions", .object [
    ("A", writtenMap (writtenList (.object [("type", .text "object"),
      ("properties", single "x" (single "type" (.text "string"))),
      ("additionalProperties", writtenReference "#/definitions/Z")]))),
    ("Z", writtenObject [("n", single "type" (.text "integer"))])])]

/-- Whether a package has a message with a comment. -/
def hasComment (comment : String) (o : Output) : Bool :=
  o.file?.any fun f => f.children.any fun d => match d with
    | .message _ (.text text) _ _ => text == comment
    | _ => false

theorem isDocument_wrappedAhead : Older.IsDocument wrappedAhead where
  version := by decide
  basePath := nofun
  parameters := nofun
  paths := nofun

/-- Whether a package tells that a list of values has items of a type. -/
def tellsItems (type : String) : Output → Bool :=
  hasComment ("automatically generated wrapper for a list of " ++ type ++ " items")

/-- The comment of the message for such lists gives the type of the maps while their values are still
a reference, so the versions can be told apart. -/
theorem upgrade_tells_wrappedAhead : Older.IsDocument wrappedAhead ∧ ∃ o o',
    compileDocument ⟨false, false, false, false, "pet"⟩ wrappedAhead = .ok o ∧
    compileDocument ⟨false, false, false, false, "pet"⟩ (upgrade wrappedAhead) = .ok o' ∧
    tellsItems "map<string, #/definitions/Z>" o = true ∧
    tellsItems "map<string, #/components/schemas/Z>" o' = true ∧ o.file? ≠ o'.file? := by
  obtain ⟨o, hrun, htest⟩ := compileDocument_of_readsTo
    (show readsTo wrappedAhead (settlesTo (fun o => tellsItems "map<string, #/definitions/Z>" o &&
        !tellsItems "map<string, #/components/schemas/Z>" o)
      ⟨false, false, false, false, "pet"⟩) = true by decide +kernel)
  obtain ⟨o', hrun', htest'⟩ := compileDocument_of_readsTo
    (show readsTo (upgrade wrappedAhead)
      (settlesTo (tellsItems "map<string, #/components/schemas/Z>")
        ⟨false, false, false, false, "pet"⟩) = true by decide +kernel)
  obtain ⟨htells, hlacks⟩ := Bool.and_eq_true_iff.1 htest
  refine ⟨isDocument_wrappedAhead, o, o', hrun, hrun', htells, htest', fun heq => ?_⟩
  unfold tellsItems hasComment at hlacks htest'
  rw [heq, htest'] at hlacks
  cases hlacks

end ApiProto.Compile
