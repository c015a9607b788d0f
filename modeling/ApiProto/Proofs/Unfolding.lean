import ApiProto.Source.Inline

/-!
# Unfoldings

What a value stands for once every reference into another document is replaced by what it leads to.
How references are followed is a parameter. In a world documents are read afresh, and nothing is
remembered: neither what has been read nor the way that has been taken.

* `World.document`, `World.follow` — a document, and what a reference leads to.
* `externals`, `substitute` — the references in a value, and the value with others in their places.
* `externals_substitute` — where no reference is left.
* `Unfolds` — the unfolding of a value, if it is finite and finds all that it needs.
* `Fails`, `Endless` — unfoldings that meet a failure first, and those that go on without end.
* `Unfolds.unique`, `Fails.unique`, `Unfolds.not_fails`, … — only one of these can be.
-/

namespace ApiProto.Source

open Uri

/-! ## Reading afresh -/

namespace World

/-- The text at a place, or why there is none. -/
def look (w : World) : Place → Except LoadFailure String
  | .page url => (w.page url).mapError .unavailable
  | .file path => (w.file path).mapError .unavailable
  | .unsupported scheme => .error (.unsupportedScheme scheme)

/-- The text at a URL. -/
def textOf (w : World) (u : Url) : Except Error String :=
  (w.look (placeOf u)).mapError fun failure => .of (.load (String.ofList u.text) failure)

section Libraries

variable [Libraries]

/-- The document at a URL. -/
def document (w : World) (uri : String) : Except Error Value := do
  let u ← Url.parse uri.toList
  let text ← w.textOf u
  decode text uri

/-- The target of a reference seen from `base`, and what is found there. -/
def follow (w : World) (base ref : String) : Except Error (Target × Value) := do
  let target ← Target.ofReference base ref
  let doc ← w.document target.uri
  let found ← target.find doc
  return (target, found)

end Libraries

end World

/-! ## References in a value -/

mutual

/-- The references into other documents that stand in a value, in their order. -/
def externals : Value → List String
  | .list items => externalsOfItems items
  | .object entries =>
    match externalRef? entries with
    | some ref => [ref]
    | none => externalsOfEntries entries
  | _ => []

/-- The references in the items of a list. -/
def externalsOfItems : List Value → List String
  | [] => []
  | v :: rest => externals v ++ externalsOfItems rest

/-- The references in the entries of an object. -/
def externalsOfEntries : List (String × Value) → List String
  | [] => []
  | (_, v) :: rest => externals v ++ externalsOfEntries rest

end

mutual

/-- A value in which what `σ` gives stands in the places of references into other documents. All
else is as it was. -/
def substitute (σ : String → Value) : Value → Value
  | .list items => .list (substituteItems σ items)
  | .object entries =>
    match externalRef? entries with
    | some ref => σ ref
    | none => .object (substituteEntries σ entries)
  | v => v

/-- The same for the items of a list. -/
def substituteItems (σ : String → Value) : List Value → List Value
  | [] => []
  | v :: rest => substitute σ v :: substituteItems σ rest

/-- The same for the entries of an object. -/
def substituteEntries (σ : String → Value) : List (String × Value) → List (String × Value)
  | [] => []
  | (key, v) :: rest => (key, substitute σ v) :: substituteEntries σ rest

end

section Substitution

variable {σ σ' : String → Value}

mutual

theorem substitute_congr : ∀ {v : Value}, (∀ ref ∈ externals v, σ ref = σ' ref) →
    substitute σ v = substitute σ' v
  | .list items, h => congrArg Value.list (substituteItems_congr (by simpa [externals] using h))
  | .object entries, h => by
    rcases hr : externalRef? entries with _ | ref
    · simp only [externals, hr] at h
      simp only [substitute, hr, substituteEntries_congr h]
    · simp only [externals, hr, List.mem_singleton, forall_eq] at h
      simp only [substitute, hr, h]
  | .null, _ | .bool _, _ | .int _, _ | .float _, _ | .text _, _ | .date _, _ | .timestamp _, _
  | .bytes _, _ | .pastEnd _, _ => rfl

theorem substituteItems_congr : ∀ {items : List Value},
    (∀ ref ∈ externalsOfItems items, σ ref = σ' ref) →
    substituteItems σ items = substituteItems σ' items
  | [], _ => rfl
  | v :: rest, h => by
    simp only [externalsOfItems, List.mem_append] at h
    rw [substituteItems, substituteItems, substitute_congr fun ref hr => h ref (.inl hr),
      substituteItems_congr fun ref hr => h ref (.inr hr)]

theorem substituteEntries_congr : ∀ {entries : List (String × Value)},
    (∀ ref ∈ externalsOfEntries entries, σ ref = σ' ref) →
    substituteEntries σ entries = substituteEntries σ' entries
  | [], _ => rfl
  | (key, v) :: rest, h => by
    simp only [externalsOfEntries, List.mem_append] at h
    rw [substituteEntries, substituteEntries, substitute_congr fun ref hr => h ref (.inl hr),
      substituteEntries_congr fun ref hr => h ref (.inr hr)]

end

end Substitution

mutual

/-- No object in a value is given a text under `$ref` by substitution: what is there is not itself
an object that stands for a reference. -/
def PlainRefs : Value → Prop
  | .list items => PlainRefsOfItems items
  | .object entries =>
    match externalRef? entries with
    | some _ => True
    | none =>
      (∀ inner, entries.lookup "$ref" = some (.object inner) → externalRef? inner = none) ∧
        PlainRefsOfEntries entries
  | _ => True

/-- The same for the items of a list. -/
def PlainRefsOfItems : List Value → Prop
  | [] => True
  | v :: rest => PlainRefs v ∧ PlainRefsOfItems rest

/-- The same for the entries of an object. -/
def PlainRefsOfEntries : List (String × Value) → Prop
  | [] => True
  | (_, v) :: rest => PlainRefs v ∧ PlainRefsOfEntries rest

end

section Results

variable {σ : String → Value}

theorem lookup_substituteEntries (key : String) (entries : List (String × Value)) :
    (substituteEntries σ entries).lookup key = (entries.lookup key).map (substitute σ) := by
  induction entries with
  | nil => rfl
  | cons entry rest ih =>
    obtain ⟨k, v⟩ := entry
    rw [substituteEntries, List.lookup_cons, List.lookup_cons]
    split <;> simp [ih]

/-- Substitution does not make an object stand for a reference. -/
theorem externalRef_substituteEntries {entries : List (String × Value)}
    (hplain : ∀ inner, entries.lookup "$ref" = some (.object inner) → externalRef? inner = none)
    (h : externalRef? entries = none) : externalRef? (substituteEntries σ entries) = none := by
  unfold externalRef? at h ⊢
  rw [lookup_substituteEntries]
  rcases hlookup : entries.lookup "$ref" with _ | v
  · rfl
  · rw [hlookup] at h
    cases v with
    | text ref => exact h
    | object inner => simp [substitute, hplain inner hlookup]
    | _ => rfl

mutual

/-- No reference stands in a value in which all references have been replaced. -/
theorem externals_substitute : ∀ {v : Value}, (∀ ref ∈ externals v, externals (σ ref) = []) →
    PlainRefs v → externals (substitute σ v) = []
  | .list items, h, hplain => by
    simp only [substitute, externals]
    exact externals_substituteItems (by simpa [externals] using h) hplain
  | .object entries, h, hplain => by
    rcases hr : externalRef? entries with _ | ref
    · simp only [PlainRefs, hr] at hplain
      simp only [externals, hr] at h
      simp only [substitute, hr, externals, externalRef_substituteEntries hplain.1 hr]
      exact externals_substituteEntries h hplain.2
    · simp only [externals, hr, List.mem_singleton, forall_eq] at h
      simpa only [substitute, hr] using h
  | .null, _, _ | .bool _, _, _ | .int _, _, _ | .float _, _, _ | .text _, _, _ | .date _, _, _
  | .timestamp _, _, _ | .bytes _, _, _ | .pastEnd _, _, _ => rfl

theorem externals_substituteItems : ∀ {items : List Value},
    (∀ ref ∈ externalsOfItems items, externals (σ ref) = []) → PlainRefsOfItems items →
    externalsOfItems (substituteItems σ items) = []
  | [], _, _ => rfl
  | v :: rest, h, ⟨hv, hrest⟩ => by
    simp only [externalsOfItems, List.mem_append] at h
    rw [substituteItems, externalsOfItems, externals_substitute (fun ref hr => h ref (.inl hr)) hv,
      externals_substituteItems (fun ref hr => h ref (.inr hr)) hrest, List.append_nil]

theorem externals_substituteEntries : ∀ {entries : List (String × Value)},
    (∀ ref ∈ externalsOfEntries entries, externals (σ ref) = []) → PlainRefsOfEntries entries →
    externalsOfEntries (substituteEntries σ entries) = []
  | [], _, _ => rfl
  | (key, v) :: rest, h, ⟨hv, hrest⟩ => by
    simp only [externalsOfEntries, List.mem_append] at h
    rw [substituteEntries, externalsOfEntries,
      externals_substitute (fun ref hr => h ref (.inl hr)) hv,
      externals_substituteEntries (fun ref hr => h ref (.inr hr)) hrest, List.append_nil]

end

end Results

/-! ## Unfoldings -/

/-- A way to follow references: what a reference seen from a location leads to. -/
abbrev Follow := String → String → Except Error (Target × Value)

section Unfoldings

variable {F : Follow}

/-- The unfolding of a value read at `base`: in the place of every reference stands the unfolding of
what it leads to, read at the place of its target. -/
inductive Unfolds (F : Follow) : String → Value → Value → Prop
  | intro {base : String} {v : Value} (target : String → Target) (found σ : String → Value) :
      (∀ ref ∈ externals v, F base ref = .ok (target ref, found ref)) →
      (∀ ref ∈ externals v, Unfolds F (target ref).uri (found ref) (σ ref)) →
      Unfolds F base v (substitute σ v)

/-- A reference leads to something that has an unfolding. -/
def Resolves (F : Follow) (base ref : String) : Prop :=
  ∃ target found v, F base ref = .ok (target, found) ∧ Unfolds F target.uri found v

/-- Unfolding a value in order comes to the target of a reference, after the references before it
have been unfolded. -/
def Descends (F : Follow) (s s' : String × Value) : Prop :=
  ∃ before ref after target, externals s.2 = before ++ ref :: after ∧
    (∀ r ∈ before, Resolves F s.1 r) ∧ F s.1 ref = .ok (target, s'.2) ∧ s'.1 = target.uri

/-- Unfolding a value in order meets a failure, before anything else goes wrong. -/
inductive Fails (F : Follow) : String → Value → Error → Prop
  | here {base : String} {v : Value} {before after : List String} {ref : String} {e : Error} :
      externals v = before ++ ref :: after → (∀ r ∈ before, Resolves F base r) →
      F base ref = .error e → Fails F base v e
  | later {base base' : String} {v v' : Value} {e : Error} :
      Descends F (base, v) (base', v') → Fails F base' v' e → Fails F base v e

/-- Unfolding a value in order goes on without end, and meets no failure. -/
def Endless (F : Follow) (base : String) (v : Value) : Prop :=
  ∃ s : Nat → String × Value, s 0 = (base, v) ∧ ∀ n, Descends F (s n) (s (n + 1))

variable {base base' : String} {v v' v'' : Value} {e e' : Error}

theorem Unfolds.unique (h : Unfolds F base v v') (h' : Unfolds F base v v'') : v' = v'' := by
  induction h generalizing v'' with
  | intro target found σ hopen _ ih =>
    obtain ⟨target', found', σ', hopen', hbelow'⟩ := h'
    refine substitute_congr fun ref hr => ?_
    obtain ⟨htarget, hfound⟩ :=
      Prod.mk.inj (Except.ok.inj ((hopen ref hr).symm.trans (hopen' ref hr)))
    refine ih ref hr ?_
    rw [htarget, hfound]
    exact hbelow' ref hr

/-- Two ways to pick out a reference: the same one, or one comes before the other. -/
theorem eq_or_mem_of_append {before before' after after' : List String} {ref ref' : String}
    (h : before ++ ref :: after = before' ++ ref' :: after') :
    ref = ref' ∨ ref ∈ before' ∨ ref' ∈ before := by
  rcases List.append_eq_append_iff.1 h with ⟨between, rfl, htail⟩ | ⟨between, rfl, htail⟩
  · cases between with
    | nil => exact .inl (List.cons.inj htail).1
    | cons r between =>
      obtain ⟨rfl, -⟩ := List.cons.inj htail
      exact .inr (.inl (by simp))
  · cases between with
    | nil => exact .inl (List.cons.inj htail).1.symm
    | cons r between =>
      obtain ⟨rfl, -⟩ := List.cons.inj htail
      exact .inr (.inr (by simp))

/-- What an unfolding descends to has an unfolding. -/
theorem Unfolds.of_descends (h : Unfolds F base v v'') (hstep : Descends F (base, v) (base', v')) :
    ∃ u, Unfolds F base' v' u := by
  obtain ⟨target, found, σ, hopen, hbelow⟩ := h
  obtain ⟨before, ref, after, target', hsplit, -, hopen', rfl⟩ := hstep
  have hr : ref ∈ externals v := hsplit ▸ (by simp)
  obtain ⟨htarget, hfound⟩ := Prod.mk.inj (Except.ok.inj ((hopen ref hr).symm.trans hopen'))
  exact ⟨σ ref, htarget ▸ (show found ref = v' from hfound) ▸ hbelow ref hr⟩

theorem Fails.not_unfolds (h : Fails F base v e) : ¬ Unfolds F base v v' := by
  induction h generalizing v' with
  | here hsplit _ hopen =>
    rintro ⟨target, found, σ, hopen', -⟩
    cases (hopen' _ (hsplit ▸ (by simp))).symm.trans hopen
  | later hstep _ ih =>
    intro hunfolds
    obtain ⟨u, hu⟩ := hunfolds.of_descends hstep
    exact ih hu

theorem Endless.not_unfolds (h : Endless F base v) : ¬ Unfolds F base v v' := by
  intro hunfolds
  induction hunfolds with
  | @intro base v target found σ hopen _ ih =>
    obtain ⟨s, hstart, hsteps⟩ := h
    obtain ⟨before, ref, after, target', hsplit, -, hopen', huri⟩ := hsteps 0
    rw [hstart] at hsplit hopen'
    have hr : ref ∈ externals v := hsplit ▸ (by simp)
    obtain ⟨htarget, hfound⟩ := Prod.mk.inj (Except.ok.inj ((hopen ref hr).symm.trans hopen'))
    exact ih ref hr ⟨fun n => s (n + 1), Prod.ext (huri.trans (htarget ▸ rfl)) hfound.symm,
      fun n => hsteps (n + 1)⟩

/-- Unfolding comes to the target of at most one reference. -/
theorem Descends.unique {s s' s'' : String × Value} (h : Descends F s s') (h' : Descends F s s'') :
    (∃ u, Unfolds F s'.1 s'.2 u) ∨ (∃ u, Unfolds F s''.1 s''.2 u) ∨ s' = s'' := by
  obtain ⟨before, ref, after, target, hsplit, hbefore, hopen, huri⟩ := h
  obtain ⟨before', ref', after', target', hsplit', hbefore', hopen', huri'⟩ := h'
  rcases eq_or_mem_of_append (hsplit.symm.trans hsplit') with rfl | hmem | hmem
  · obtain ⟨rfl, hfound⟩ := Prod.mk.inj (Except.ok.inj (hopen.symm.trans hopen'))
    exact .inr (.inr (Prod.ext (huri.trans huri'.symm) hfound))
  · obtain ⟨_, _, u, hopen'', hu⟩ := hbefore' ref hmem
    obtain ⟨rfl, rfl⟩ := Prod.mk.inj (Except.ok.inj (hopen.symm.trans hopen''))
    exact .inl ⟨u, huri ▸ hu⟩
  · obtain ⟨_, _, u, hopen'', hu⟩ := hbefore ref' hmem
    obtain ⟨rfl, rfl⟩ := Prod.mk.inj (Except.ok.inj (hopen'.symm.trans hopen''))
    exact .inr (.inl ⟨u, huri' ▸ hu⟩)

/-- Where a failure is met at once, unfolding only descends to what has an unfolding. -/
theorem unfolds_of_descends_of_error {s : String × Value} {before after : List String}
    {ref : String} (hsplit : externals v = before ++ ref :: after)
    (hbefore : ∀ r ∈ before, Resolves F base r) (hopen : F base ref = .error e)
    (h : Descends F (base, v) s) : ∃ u, Unfolds F s.1 s.2 u := by
  obtain ⟨before', ref', after', target', hsplit', hbefore', hopen', huri'⟩ := h
  rcases eq_or_mem_of_append (hsplit.symm.trans hsplit') with rfl | hmem | hmem
  · cases hopen.symm.trans hopen'
  · obtain ⟨_, _, _, hopen'', -⟩ := hbefore' ref hmem
    cases hopen.symm.trans hopen''
  · obtain ⟨_, _, u, hopen'', hu⟩ := hbefore ref' hmem
    obtain ⟨rfl, rfl⟩ := Prod.mk.inj (Except.ok.inj (hopen'.symm.trans hopen''))
    exact ⟨u, huri' ▸ hu⟩

theorem Fails.unique (h : Fails F base v e) (h' : Fails F base v e') : e = e' := by
  induction h with
  | @here base v before after ref e hsplit hbefore hopen =>
    cases h' with
    | @here _ _ before' after' ref' _ hsplit' hbefore' hopen' =>
      rcases eq_or_mem_of_append (hsplit.symm.trans hsplit') with rfl | hmem | hmem
      · exact Except.error.inj (hopen.symm.trans hopen')
      · obtain ⟨_, _, _, hopen'', -⟩ := hbefore' ref hmem
        cases hopen.symm.trans hopen''
      · obtain ⟨_, _, _, hopen'', -⟩ := hbefore ref' hmem
        cases hopen'.symm.trans hopen''
    | later hstep hfails =>
      obtain ⟨u, hu⟩ := unfolds_of_descends_of_error hsplit hbefore hopen hstep
      exact absurd hu hfails.not_unfolds
  | later hstep hfails ih =>
    cases h' with
    | here hsplit hbefore hopen =>
      obtain ⟨u, hu⟩ := unfolds_of_descends_of_error hsplit hbefore hopen hstep
      exact absurd hu hfails.not_unfolds
    | later hstep' hfails' =>
      rcases hstep.unique hstep' with ⟨u, hu⟩ | ⟨u, hu⟩ | heq
      · exact absurd hu hfails.not_unfolds
      · exact absurd hu hfails'.not_unfolds
      · obtain ⟨rfl, rfl⟩ := Prod.mk.inj heq
        exact ih hfails'

theorem Fails.not_endless (h : Fails F base v e) : ¬ Endless F base v := by
  induction h with
  | here hsplit hbefore hopen =>
    rintro ⟨s, hstart, hsteps⟩
    have hfirst := hsteps 0
    rw [hstart] at hfirst
    obtain ⟨u, hu⟩ := unfolds_of_descends_of_error hsplit hbefore hopen hfirst
    exact Endless.not_unfolds ⟨fun n => s (n + 1), rfl, fun n => hsteps (n + 1)⟩ hu
  | later hstep hfails ih =>
    rintro ⟨s, hstart, hsteps⟩
    have hfirst := hsteps 0
    rw [hstart] at hfirst
    rcases hstep.unique hfirst with ⟨u, hu⟩ | ⟨u, hu⟩ | heq
    · exact hfails.not_unfolds hu
    · exact Endless.not_unfolds ⟨fun n => s (n + 1), rfl, fun n => hsteps (n + 1)⟩ hu
    · exact ih ⟨fun n => s (n + 1), heq.symm, fun n => hsteps (n + 1)⟩

end Unfoldings

end ApiProto.Source
