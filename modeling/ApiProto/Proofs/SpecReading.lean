import ApiProto.Document.SpecReader

/-!
# What is read

A description is read part by part, and what is read of a part is in the description.

* `bind_eq_ok_iff`, `map_eq_ok_iff` — when composed readings succeed.
* `Spec.read_eq`, `Spec.read_paths` — the parts of a description.
-/

namespace ApiProto.Document

open Text

/-! ## Composed readings -/

section Composed

variable {α β ε : Type}

theorem bind_eq_ok_iff {r : Except ε α} {f : α → Except ε β} {b : β} :
    (r >>= f) = .ok b ↔ ∃ a, r = .ok a ∧ f a = .ok b := by
  rcases r with e | a
  · exact ⟨(nomatch ·), fun ⟨_, h, _⟩ => nomatch h⟩
  · exact ⟨fun h => ⟨a, rfl, h⟩, fun ⟨_, h, hf⟩ => Except.ok.inj h ▸ hf⟩

theorem map_eq_ok_iff {r : Except ε α} {f : α → β} {b : β} :
    r.map f = .ok b ↔ ∃ a, r = .ok a ∧ f a = b := by
  rcases r with e | a
  · exact ⟨(nomatch ·), fun ⟨_, h, _⟩ => nomatch h⟩
  · exact ⟨fun h => ⟨a, rfl, Except.ok.inj h⟩, fun ⟨_, h, hf⟩ => Except.ok.inj h ▸ hf ▸ rfl⟩

/-- What is collected from a list comes from its items. -/
theorem exists_of_mem_mapM {f : α → Except ε β} {l : List α} {l' : List β} (h : l.mapM f = .ok l')
    {b : β} (hb : b ∈ l') : ∃ a ∈ l, f a = .ok b := by
  induction l generalizing l' with
  | nil =>
    rw [List.mapM_nil] at h
    obtain rfl := Except.ok.inj h
    cases hb
  | cons a rest ih =>
    rw [List.mapM_cons] at h
    obtain ⟨b', hb', h⟩ := bind_eq_ok_iff.1 h
    obtain ⟨rest', hrest, h⟩ := bind_eq_ok_iff.1 h
    obtain rfl := Except.ok.inj h
    rcases List.mem_cons.1 hb with rfl | hb
    · exact ⟨a, List.mem_cons_self .., hb'⟩
    · obtain ⟨a', ha', heq⟩ := ih hrest hb
      exact ⟨a', List.mem_cons_of_mem _ ha', heq⟩

end Composed

/-! ## Descriptions -/

/-- The version of the format of a document. -/
def versionOf (doc : Value) : Version :=
  if (doc.member? "openapi").isSome then .openapi3 else .swagger2

/-- What holds the definitions and shared parameters of a document, and the key of the
definitions. -/
def readHolder (doc : Value) : Version → Except Error (Value × String)
  | .openapi3 =>
    (entriesWith "get" (doc.member? "components")).map fun entries => (.object entries, "schemas")
  | .swagger2 => .ok (doc, "definitions")

/-- What stands before every path of a document. -/
def readBasePath (doc : Value) : Version → Except Error Value
  | .openapi3 => (readServerPath (doc.member? "servers")).map .text
  | .swagger2 =>
    match textMember "basePath" doc with
    | .text "/" => .ok (.text "")
    | v => .ok v

theorem readBasePath_root {doc : Value} (h : textMember "basePath" doc = .text "/") :
    readBasePath doc .swagger2 = .ok (.text "") := by
  simp only [readBasePath, h]

theorem readBasePath_other {doc : Value} (h : textMember "basePath" doc ≠ .text "/") :
    readBasePath doc .swagger2 = .ok (textMember "basePath" doc) := by
  show (match textMember "basePath" doc with
    | .text "/" => .ok (.text "")
    | v => .ok v : Except Error Value) = _
  split
  · next hroot => exact absurd hroot h
  · rfl

section Descriptions

variable [Libraries]

/-- The definitions and shared parameters of a document. -/
def readShared (doc : Value) (holder : Value × String) :
    Except Error (List (String × Schema) × List (String × Parameter)) :=
  framed "failed to read definitions" do
    let definitions ← (← entriesWith "items" (holder.1.member? holder.2)).mapM fun (name, s) =>
      (Schema.read s).map fun s => (name, s)
    let parameters ← (← entriesWith "items" (holder.1.member? "parameters")).mapM fun (name, p) =>
      (readParameter doc p).map fun p => (name, p)
    return (definitions, parameters)

/-- The paths of a document. -/
def readPaths (version : Version) (doc : Value) : Except Error (List (String × PathItem)) := do
  (← entriesWith "items" (doc.member? "paths")).mapM fun (path, item) =>
    (framed ("failed to read path " ++ path) (readPathItem version doc path item)).map
      fun item => (path, item)

/-- A description is read part by part. -/
theorem Spec.read_eq {doc : Value} (hdoc : doc.entries?.isNone = false) : Spec.read doc = do
    let info ← entriesWith "get" (doc.member? "info")
    let holder ← readHolder doc (versionOf doc)
    let basePath ← readBasePath doc (versionOf doc)
    let shared ← readShared doc holder
    let globalOptions ← entriesWith "items" (doc.member? "x-global-options")
    let extensions ← (← listOf (doc.member? "x-extensions")).mapM readExtension
    let paths ← readPaths (versionOf doc) doc
    return {
      title := plainMember "title" (.object info)
      basePath := basePath
      definitions := shared.1
      parameters := shared.2
      paths := paths
      globalOptions := globalOptions.map fun (name, value) => (name, value.plain)
      extensions := extensions
      definitionsPrefix := (versionOf doc).definitionsPrefix
      parametersPrefix := (versionOf doc).parametersPrefix } := by
  unfold Spec.read readPaths versionOf
  rw [if_neg (by simp [hdoc])]
  simp only [bind_assoc]
  rcases hversion : (doc.member? "openapi").isSome with _ | _
  · simp only [if_false, Bool.false_eq_true]
    refine congrArg _ (funext fun info => ?_)
    split
    · next hroot =>
      rw [readBasePath_root hroot]
      rfl
    · next hother =>
      rw [readBasePath_other hother]
      rfl
  · simp only [if_true]
    refine congrArg _ (funext fun info => ?_)
    unfold readHolder
    dsimp only
    rcases entriesWith "get" (doc.member? "components") with e | entries
    · rfl
    · rfl

/-- The paths of a description are read one by one, and references start as the version of the
document says. -/
theorem Spec.read_paths {doc : Value} {spec : Spec} (h : Spec.read doc = .ok spec) :
    readPaths (versionOf doc) doc = .ok spec.paths ∧
      spec.definitionsPrefix = (versionOf doc).definitionsPrefix ∧
      spec.parametersPrefix = (versionOf doc).parametersPrefix := by
  rcases hdoc : doc.entries?.isNone with _ | _
  · rw [Spec.read_eq hdoc] at h
    obtain ⟨info, -, h⟩ := bind_eq_ok_iff.1 h
    obtain ⟨holder, -, h⟩ := bind_eq_ok_iff.1 h
    obtain ⟨basePath, -, h⟩ := bind_eq_ok_iff.1 h
    obtain ⟨shared, -, h⟩ := bind_eq_ok_iff.1 h
    obtain ⟨globalOptions, -, h⟩ := bind_eq_ok_iff.1 h
    obtain ⟨list, -, h⟩ := bind_eq_ok_iff.1 h
    obtain ⟨extensions, -, h⟩ := bind_eq_ok_iff.1 h
    obtain ⟨paths, hpaths, h⟩ := bind_eq_ok_iff.1 h
    obtain rfl := Except.ok.inj h
    exact ⟨hpaths, rfl, rfl⟩
  · unfold Spec.read at h
    rw [if_pos hdoc] at h
    cases h

end Descriptions

end ApiProto.Document
