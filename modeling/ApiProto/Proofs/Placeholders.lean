import ApiProto.Compile.Schema

/-!
# Placeholders

Some builtin types only stand for a scalar that depends on a format. They are known by their names,
and a format makes them scalars.

* `Builtin.IsPlaceholder` — a placeholder for a scalar.
* `Builtin.withFormat_cases` — what a format makes of a builtin type.
* `not_isPlaceholder_of_multiType` — what becomes of a schema with two types or more.
-/

namespace ApiProto.Proto

/-- What a lookup finds is an entry. -/
theorem mem_of_lookup {κ α : Type} [BEq κ] [LawfulBEq κ] {l : List (κ × α)} {key : κ} {a : α}
    (h : l.lookup key = some a) : (key, a) ∈ l := by
  obtain ⟨before, after, rfl, -⟩ := List.lookup_eq_some_iff.1 h
  simp

namespace Builtin

/-- A placeholder for a scalar that depends on a format. -/
def IsPlaceholder (b : Builtin) : Prop := "pseudo:".toList <+: b.name.toList

instance (b : Builtin) : Decidable b.IsPlaceholder :=
  inferInstanceAs (Decidable (_ <+: _))

/-- The names of the types that a format may change. -/
def formatted : List String :=
  ["bytes", "pseudo:boolean", "string", "pseudo:integer", "pseudo:float", "pseudo:number"]

/-- A format makes a scalar of the types that it may change, and leaves all others. -/
theorem withFormat_cases (b : Builtin) (format : String) :
    ¬ (b.withFormat format).IsPlaceholder ∨ b.name ∉ formatted ∧ b.withFormat format = b := by
  unfold withFormat
  repeat' split
  all_goals first
    | exact .inl (by decide)
    | exact .inr ⟨by simp [formatted, *], rfl⟩

theorem not_isPlaceholder_withFormat {b : Builtin} (h : ¬ b.IsPlaceholder) (format : String) :
    ¬ (b.withFormat format).IsPlaceholder := by
  rcases b.withFormat_cases format with hscalar | ⟨-, heq⟩
  · exact hscalar
  · rwa [heq]

/-- What a reserved name denotes is no placeholder once it has a format. -/
theorem not_isPlaceholder_of_reserved {name : String} {b : Builtin}
    (h : reservedTypes.lookup name = some b) (format : String) :
    ¬ (b.withFormat format).IsPlaceholder := by
  have hall : ∀ entry ∈ reservedTypes, entry.2.name ∉ formatted → ¬ entry.2.IsPlaceholder := by
    decide
  rcases b.withFormat_cases format with hscalar | ⟨hname, heq⟩
  · exact hscalar
  · rw [heq]
    exact hall _ (mem_of_lookup h) hname

theorem not_isPlaceholder_boxed {b : Builtin} (h : ¬ b.IsPlaceholder) :
    ¬ b.boxed.IsPlaceholder := by
  unfold boxed
  rcases hw : wrappers.lookup b with _ | w
  · exact h
  · have hall : ∀ entry ∈ wrappers, ¬ entry.2.IsPlaceholder := by decide
    obtain ⟨before, after, heq, -⟩ := List.lookup_eq_some_iff.1 hw
    exact hall (b, w) (by simp [heq])

theorem not_isPlaceholder_knownDefinitions :
    ∀ entry ∈ knownDefinitions, ¬ entry.2.IsPlaceholder := by decide

theorem not_isPlaceholder_of_known {ref : String} {b : Builtin}
    (h : knownDefinition? ref = some b) : ¬ b.IsPlaceholder :=
  not_isPlaceholder_knownDefinitions _ (mem_of_lookup h)

end Builtin

/-- Reserved names alone denote builtin types. -/
theorem Registry.reserved_of_lookup {g : Graph} {r : Registry} {name : String} {scope : Scope}
    {b : Builtin} (h : r.lookup g name scope = some (.builtin b)) :
    reservedTypes.lookup name = some b := by
  unfold Registry.lookup at h
  split at h
  · next b' hb' =>
    obtain rfl := TypeRef.builtin.inj (Option.some.inj h)
    exact hb'
  · obtain ⟨container, -, hfound⟩ := List.exists_of_findSome?_eq_some h
    obtain ⟨id, -, hid⟩ := Option.map_eq_some_iff.1 hfound
    cases hid

end ApiProto.Proto

namespace ApiProto.Compile

open Proto Document

variable {c c' : Compilation}

/-- A schema with two types or more is compiled to a scalar in its wrapper message, or to a type
that stands for any value. -/
theorem not_isPlaceholder_of_multiType {s : Schema} {t : TypeRef}
    (h : compileMultiType s c = .ok (t, c')) : ∃ b, t = .builtin b ∧ ¬ b.IsPlaceholder := by
  have hpure : ∀ {b : Builtin}, ¬ b.IsPlaceholder →
      (pure (.builtin b) : CompileM TypeRef) c = .ok (t, c') →
        ∃ b, t = .builtin b ∧ ¬ b.IsPlaceholder :=
    fun hb h => ⟨_, (Prod.mk.inj (Except.ok.inj h)).1.symm, hb⟩
  generalize hm : compileMultiType s = m at h
  unfold compileMultiType at hm
  split at hm
  · next type _ =>
    split at hm
    · next b hb =>
      subst hm
      have hreserved : reservedTypes.lookup type = some b := by
        split at hb
        · exact hb
        · cases hb
      exact hpure (Builtin.not_isPlaceholder_boxed
        (Builtin.not_isPlaceholder_of_reserved hreserved s.format)) h
    · subst hm
      cases h
  · subst hm
    exact hpure (by decide) h

end ApiProto.Compile
