import ApiProto.Proofs.FiniteTargets

/-!
# Inlining step by step

Inlining follows the references in a value one after the other, up to the first that fails. It keeps
the keys of the targets that led to a value, and ends since the targets that can be met are finitely
many.

* `InlineM.Returns` — inlining that returns where it may go deep enough, and what holds then.
* `inlineExternal_step` — inlining goes as deep as it takes.
* `inlineWithin_returns` — inlining a value, from what holds of the references in it.
* `openTarget_opening` — what opening the target of a reference gives.
* `inlineWithin_ends` — inlining always returns.
-/

namespace ApiProto.Source

open Uri

/-! ## Steps that return -/

namespace InlineM

variable {α β : Type} {I : Loader → Prop} {l : Loader} {P : Loader → Except Error α → Prop}
  {Q : Loader → Except Error β → Prop}

/-- Runs a step. -/
def step (m : InlineM α) (l : Loader) : Option (Except Error α × Loader) := (ExceptT.run m).run l

/-- From a loader, inlining that may go deep enough returns. The loader that it leaves has `I` and
has forgotten no document, and `P` holds of it and of what is returned. -/
def Returns (I : Loader → Prop) (l : Loader) (m : Nat → InlineM α)
    (P : Loader → Except Error α → Prop) : Prop :=
  ∃ r l', (∃ depth, ∀ d ≥ depth, (m d).step l = some (r, l')) ∧ I l' ∧ l.Extends l' ∧ P l' r

theorem step_bind (m : InlineM α) (f : α → InlineM β) (l : Loader) :
    step (m >>= f) l = match m.step l with
      | none => none
      | some (.ok a, l') => (f a).step l'
      | some (.error e, l') => some (.error e, l') := by
  show (m.step l).bind (fun (r, l') => ExceptT.bindCont f r l') = _
  rcases m.step l with _ | ⟨e | a, l'⟩ <;> rfl

theorem Returns.pure {a : α} (hl : I l) (h : P l (.ok a)) : Returns I l (fun _ => pure a) P :=
  ⟨_, l, ⟨0, fun _ _ => rfl⟩, hl, .refl l, h⟩

theorem Returns.ofLoad {m : LoadM α}
    (h : ∀ r l', m.step l = (r, l') → I l' ∧ l.Extends l' ∧ P l' r) :
    Returns I l (fun _ => InlineM.ofLoad m) P :=
  ⟨_, _, ⟨0, fun _ _ => rfl⟩, h _ _ rfl⟩

theorem Returns.bind {m : Nat → InlineM α} {f : Nat → α → InlineM β} (hm : Returns I l m P)
    (hok : ∀ a l₁, I l₁ → l.Extends l₁ → P l₁ (.ok a) → Returns I l₁ (fun d => f d a) Q)
    (herror : ∀ e l₁, l.Extends l₁ → P l₁ (.error e) → Q l₁ (.error e)) :
    Returns I l (fun d => m d >>= f d) Q := by
  obtain ⟨r, l₁, ⟨depth, hstep⟩, hl₁, hextends, hr⟩ := hm
  cases r with
  | ok a =>
    obtain ⟨r', l₂, ⟨depth', hstep'⟩, hl₂, hextends', hr'⟩ := hok a l₁ hl₁ hextends hr
    refine ⟨r', l₂, ⟨max depth depth', fun d hd => ?_⟩, hl₂, hextends.trans hextends', hr'⟩
    rw [step_bind, hstep d (le_of_max_le_left hd)]
    exact hstep' d (le_of_max_le_right hd)
  | error e =>
    refine ⟨_, l₁, ⟨depth, fun d hd => ?_⟩, hl₁, hextends, herror e l₁ hextends hr⟩
    rw [step_bind, hstep d hd]

theorem Returns.imp {m : Nat → InlineM α} {P' : Loader → Except Error α → Prop}
    (h : Returns I l m P) (himp : ∀ l' r, l.Extends l' → P l' r → P' l' r) :
    Returns I l m P' := by
  obtain ⟨r, l', hstep, hl', hextends, hr⟩ := h
  exact ⟨r, l', hstep, hl', hextends, himp l' r hextends hr⟩

/-- What returns one level deeper returns. -/
theorem Returns.of_succ {m : Nat → InlineM α} (h : Returns I l (fun d => m (d + 1)) P) :
    Returns I l m P := by
  obtain ⟨r, l', ⟨depth, hstep⟩, hrest⟩ := h
  refine ⟨r, l', ⟨depth + 1, fun d hd => ?_⟩, hrest⟩
  obtain ⟨d', rfl⟩ : ∃ d', d = d' + 1 := ⟨d - 1, by omega⟩
  exact hstep d' (by omega)

/-- Where a computation returns, another returns the same. -/
def Within (m m' : InlineM α) : Prop := ∀ l x, m.step l = some x → m'.step l = some x

theorem Within.refl (m : InlineM α) : Within m m := fun _ _ => id

theorem Within.bind {m m' : InlineM α} {f f' : α → InlineM β} (hm : Within m m')
    (hf : ∀ a, Within (f a) (f' a)) : Within (m >>= f) (m' >>= f') := by
  intro l x h
  rw [step_bind] at h ⊢
  rcases hx : m.step l with _ | ⟨e | a, l'⟩ <;> rw [hx] at h
  · cases h
  · rw [hm l _ hx]
    exact h
  · rw [hm l _ hx]
    exact hf a l' x h

end InlineM

open InlineM

/-! ## Going deeper -/

/-- Inlining what a reference leads to. -/
def inlineTarget [Libraries] (world : World) (path : List String) (base ref : String)
    (depth : Nat) : InlineM Value := do
  let opened ← InlineM.ofLoad (openTarget world path base ref)
  inlineWithin world (opened.1.key :: path) opened.1.uri opened.2 depth

theorem inlineWithin_succ [Libraries] (w : World) (path : List String) (base : String) (v : Value)
    (depth : Nat) : inlineWithin w path base v (depth + 1) =
      replaceExternal (fun ref => inlineTarget w path base ref depth) v := rfl

section Deeper

variable {f g : String → InlineM Value}

mutual

theorem replaceExternal_within (h : ∀ ref, Within (f ref) (g ref)) :
    ∀ v, Within (replaceExternal f v) (replaceExternal g v)
  | .list items => by
    simp only [replaceExternal]
    exact (replaceItems_within h items).bind fun _ => .refl _
  | .object entries => by
    rcases hr : externalRef? entries with _ | ref
    · simp only [replaceExternal, hr]
      exact (replaceEntries_within h entries).bind fun _ => .refl _
    · simpa only [replaceExternal, hr] using h ref
  | .null | .bool _ | .int _ | .float _ | .text _ | .date _ | .timestamp _ | .bytes _
  | .pastEnd _ => by
    simpa only [replaceExternal] using .refl _

theorem replaceItems_within (h : ∀ ref, Within (f ref) (g ref)) :
    ∀ items, Within (replaceItems f items) (replaceItems g items)
  | [] => .refl _
  | v :: rest => by
    simp only [replaceItems]
    exact (replaceExternal_within h v).bind fun _ =>
      (replaceItems_within h rest).bind fun _ => .refl _

theorem replaceEntries_within (h : ∀ ref, Within (f ref) (g ref)) :
    ∀ entries, Within (replaceEntries f entries) (replaceEntries g entries)
  | [] => .refl _
  | (key, v) :: rest => by
    simp only [replaceEntries]
    exact (replaceExternal_within h v).bind fun _ =>
      (replaceEntries_within h rest).bind fun _ => .refl _

end

/-- Inlining that may go deeper returns what it returned. -/
theorem inlineWithin_within [Libraries] (w : World) (depth : Nat) : ∀ path base v,
    Within (inlineWithin w path base v depth) (inlineWithin w path base v (depth + 1)) := by
  induction depth with
  | zero =>
    intro path base v l x h
    cases h
  | succ depth ih =>
    intro path base v
    rw [inlineWithin_succ, inlineWithin_succ]
    refine replaceExternal_within (fun ref => ?_) v
    unfold inlineTarget
    exact (Within.refl _).bind fun opened => ih (opened.1.key :: path) opened.1.uri opened.2

/-- The first computation that gives something gives what a later one gives, if those between keep
it. -/
theorem firstOf_eq {α : Type} [Nonempty α] {f : Nat → Option α} {a : α}
    (hkeeps : ∀ n a, f n = some a → f (n + 1) = some a) {n : Nat} (k : Nat)
    (h : f (n + k) = some a) : firstOf f n = a := by
  let Next : Nat → Nat → Prop := fun next n => next = n + 1 ∧ f n = none
  have hacc : ∀ k n, f (n + k) = some a → Acc Next n := by
    intro k
    induction k with
    | zero =>
      intro n h
      exact ⟨n, fun _ hnext => absurd (h.symm.trans hnext.2) (by simp)⟩
    | succ k ih =>
      intro n h
      refine ⟨n, ?_⟩
      rintro _ ⟨rfl, -⟩
      exact ih (n + 1) (by rwa [Nat.add_right_comm, Nat.add_assoc])
  have hgiven : ∀ k n b, f n = some b → f (n + k) = some b := by
    intro k n b hb
    induction k with
    | zero => exact hb
    | succ k ih => exact hkeeps _ _ ih
  induction k generalizing n with
  | zero =>
    rw [firstOf, WellFounded.partialExtrinsicFix_eq_apply_of_acc (hacc 0 n h)]
    split
    · next b hb => exact Option.some.inj (hb.symm.trans h)
    · next hnone => exact absurd (h.symm.trans hnone) (by simp)
  | succ k ih =>
    rw [firstOf, WellFounded.partialExtrinsicFix_eq_apply_of_acc (hacc (k + 1) n h)]
    split
    · next b hb => exact Option.some.inj ((hgiven (k + 1) n b hb).symm.trans h)
    · exact ih (by rwa [Nat.add_right_comm, Nat.add_assoc])

theorem inlineExternal_step [Libraries] {w : World} {base : String} {v : Value} {depth : Nat}
    {l l' : Loader} {r : Except Error Value}
    (h : (inlineWithin w [] base v depth).step l = some (r, l')) :
    (inlineExternal w base v).step l = (r, l') :=
  firstOf_eq (fun n x => inlineWithin_within w n [] base v l x) depth (by rwa [Nat.zero_add])

/-- What inlining gives can be read off inlining up to some depth. -/
theorem inlineExternal_result [Libraries] {w : World} {base : String} {v : Value} {l : Loader}
    {r : Except Error Value} (depth : Nat)
    (h : ((inlineWithin w [] base v depth).step l).map Prod.fst = some r) :
    ((inlineExternal w base v).step l).1 = r := by
  obtain ⟨⟨_, l'⟩, hstep, rfl⟩ := Option.map_eq_some_iff.1 h
  rw [inlineExternal_step hstep]

/-- Inlining that returns if it may go deep enough goes as deep as it takes. -/
theorem InlineM.Returns.inlineExternal [Libraries] {w : World} {base : String} {v : Value}
    {I : Loader → Prop} {l : Loader} {P : Loader → Except Error Value → Prop}
    (h : Returns I l (inlineWithin w [] base v) P) :
    ∃ r l', (inlineExternal w base v).step l = (r, l') ∧ I l' ∧ l.Extends l' ∧ P l' r := by
  obtain ⟨r, l', ⟨depth, hstep⟩, hrest⟩ := h
  exact ⟨r, l', inlineExternal_step (hstep depth le_rfl), hrest⟩

end Deeper

/-! ## A value and its references -/

section References

variable {w : World} {path : List String} {base : String} {I : Loader → Prop} {l l' : Loader}
  {follow : String → Nat → InlineM Value} {Q : Loader → String → Except Error Value → Prop}

/-- What is known to come out for a reference stays known. -/
def Kept (Q : Loader → String → Except Error Value → Prop) : Prop :=
  ∀ l l' ref u, l.Extends l' → Q l ref (.ok u) → Q l' ref (.ok u)

/-- References lead to values. -/
def AllGood (Q : Loader → String → Except Error Value → Prop) (l : Loader) (refs : List String) :
    Prop :=
  ∀ ref ∈ refs, ∃ u, Q l ref (.ok u)

theorem AllGood.append {refs refs' : List String} (h : AllGood Q l refs) (h' : AllGood Q l refs') :
    AllGood Q l (refs ++ refs') :=
  fun ref hr => (List.mem_append.1 hr).elim (h ref) (h' ref)

theorem AllGood.mono {refs : List String} (hkept : Kept Q) (h : AllGood Q l refs)
    (hextends : l.Extends l') : AllGood Q l' refs := fun ref hr =>
  (h ref hr).imp fun u hu => hkept l l' ref u hextends hu

/-- What comes out when references are followed in order, if `Q` holds for what comes out for each:
a whole that is made of their values, or the failure of the first that fails. -/
def InOrder {α : Type} (Q : Loader → String → Except Error Value → Prop) (refs : List String)
    (whole : (String → Value) → α) (l : Loader) : Except Error α → Prop
  | .ok a => AllGood Q l refs ∧
      ∀ σ : String → Value, (∀ ref u, Q l ref (.ok u) → u = σ ref) → a = whole σ
  | .error e => ∃ before ref after, refs = before ++ ref :: after ∧ AllGood Q l before ∧
      Q l ref (.error e)

/-- Each of some references can be followed after those before it have led to values. -/
def Followable (follow : String → Nat → InlineM Value) (I : Loader → Prop)
    (Q : Loader → String → Except Error Value → Prop) (l : Loader) (refs : List String) : Prop :=
  ∀ before ref after l', refs = before ++ ref :: after → l.Extends l' → I l' →
    AllGood Q l' before → Returns I l' (follow ref) fun l' r => Q l' ref r

theorem Followable.left {refs refs' : List String}
    (h : Followable follow I Q l (refs ++ refs')) : Followable follow I Q l refs :=
  fun before ref after l' heq => h before ref (after ++ refs') l' (by simp [heq])

theorem Followable.right {refs refs' : List String} (hkept : Kept Q)
    (h : Followable follow I Q l (refs ++ refs')) (hextends : l.Extends l')
    (hgood : AllGood Q l' refs) : Followable follow I Q l' refs' :=
  fun before ref after l₁ heq hextends' hl₁ hbefore =>
    h (refs ++ before) ref after l₁ (by simp [heq]) (hextends.trans hextends') hl₁
      ((hgood.mono hkept hextends').append hbefore)

/-- Two steps in order, of which the second follows further references. -/
theorem InOrder.both {α β γ : Type} {refs refs' : List String} {m : Nat → InlineM α}
    {n : Nat → InlineM β} {f : α → β → γ} {whole : (String → Value) → α}
    {whole' : (String → Value) → β}
    (hkept : Kept Q) (hm : Returns I l m (InOrder Q refs whole))
    (hn : ∀ l₁, I l₁ → l.Extends l₁ → AllGood Q l₁ refs → Returns I l₁ n (InOrder Q refs' whole')) :
    Returns I l (fun d => do let a ← m d; let b ← n d; return f a b)
      (InOrder Q (refs ++ refs') fun σ => f (whole σ) (whole' σ)) := by
  refine hm.bind ?_ ?_
  · rintro a l₁ hl₁ hextends ⟨hgood, hwhole⟩
    refine (hn l₁ hl₁ hextends hgood).bind ?_ ?_
    · rintro b l₂ hl₂ hextends' ⟨hgood', hwhole'⟩
      refine Returns.pure hl₂ ⟨(hgood.mono hkept hextends').append hgood', fun σ hσ => ?_⟩
      rw [hwhole' σ hσ, hwhole σ fun ref u hu => hσ ref u (hkept l₁ l₂ ref u hextends' hu)]
    · rintro e l₂ hextends' ⟨before, ref, after, rfl, hbefore, he⟩
      exact ⟨refs ++ before, ref, after, by simp, (hgood.mono hkept hextends').append hbefore, he⟩
  · rintro e l₁ - ⟨before, ref, after, rfl, hgood, he⟩
    exact ⟨before, ref, after ++ refs', by simp, hgood, he⟩

mutual

/-- Replacing references follows those in a value, in their order, up to the first failure. -/
theorem replaceExternal_returns (hkept : Kept Q) : ∀ {v : Value} {l : Loader}, I l →
    Followable follow I Q l (externals v) →
    Returns I l (fun d => replaceExternal (follow · d) v)
      (InOrder Q (externals v) fun σ => substitute σ v)
  | .list items, l, hl, h => by
    simp only [replaceExternal]
    refine (replaceItems_returns hkept hl (by simpa [externals] using h)).bind ?_ ?_
    · rintro items' l₁ hl₁ - ⟨hgood, hwhole⟩
      refine Returns.pure hl₁ ⟨by simpa [externals] using hgood, fun σ hσ => ?_⟩
      simp only [substitute, hwhole σ hσ]
    · rintro e l₁ - ⟨before, ref, after, heq, hrest⟩
      exact ⟨before, ref, after, by simpa [externals] using heq, hrest⟩
  | .object entries, l, hl, h => by
    rcases hr : externalRef? entries with _ | ref
    · simp only [externals, hr] at h ⊢
      simp only [replaceExternal, hr]
      refine (replaceEntries_returns hkept hl h).bind ?_ ?_
      · rintro entries' l₁ hl₁ - ⟨hgood, hwhole⟩
        refine Returns.pure hl₁ ⟨hgood, fun σ hσ => ?_⟩
        simp only [substitute, hr, hwhole σ hσ]
      · rintro e l₁ - ⟨before, ref, after, heq, hrest⟩
        exact ⟨before, ref, after, heq, hrest⟩
    · simp only [externals, hr] at h ⊢
      simp only [replaceExternal, hr]
      refine (h [] ref [] l rfl (.refl l) hl nofun).imp fun l' r _ hQ => ?_
      cases r with
      | ok u =>
        refine ⟨fun r' hr' => ⟨u, List.mem_singleton.1 hr' ▸ hQ⟩, fun σ hσ => ?_⟩
        simp only [substitute, hr, hσ ref u hQ]
      | error e => exact ⟨[], ref, [], rfl, nofun, hQ⟩
  | .null, l, hl, _ | .bool _, l, hl, _ | .int _, l, hl, _ | .float _, l, hl, _
  | .text _, l, hl, _ | .date _, l, hl, _ | .timestamp _, l, hl, _ | .bytes _, l, hl, _
  | .pastEnd _, l, hl, _ => by
    simp only [replaceExternal]
    exact Returns.pure hl ⟨nofun, fun _ _ => rfl⟩

theorem replaceItems_returns (hkept : Kept Q) : ∀ {items : List Value} {l : Loader}, I l →
    Followable follow I Q l (externalsOfItems items) →
    Returns I l (fun d => replaceItems (follow · d) items)
      (InOrder Q (externalsOfItems items) fun σ => substituteItems σ items)
  | [], l, hl, _ => by
    simp only [replaceItems]
    exact Returns.pure hl ⟨nofun, fun _ _ => rfl⟩
  | v :: rest, l, hl, h => by
    simp only [replaceItems]
    exact InOrder.both hkept (replaceExternal_returns hkept hl h.left) fun l₁ hl₁ hextends hgood =>
      replaceItems_returns hkept hl₁ (h.right hkept hextends hgood)

theorem replaceEntries_returns (hkept : Kept Q) : ∀ {entries : List (String × Value)} {l : Loader},
    I l → Followable follow I Q l (externalsOfEntries entries) →
    Returns I l (fun d => replaceEntries (follow · d) entries)
      (InOrder Q (externalsOfEntries entries) fun σ => substituteEntries σ entries)
  | [], l, hl, _ => by
    simp only [replaceEntries]
    exact Returns.pure hl ⟨nofun, fun _ _ => rfl⟩
  | (key, v) :: rest, l, hl, h => by
    simp only [replaceEntries]
    exact InOrder.both hkept (replaceExternal_returns hkept hl h.left) fun l₁ hl₁ hextends hgood =>
      replaceEntries_returns hkept hl₁ (h.right hkept hextends hgood)

end

/-- Inlining a value follows the references in it, in their order, up to the first failure. -/
theorem inlineWithin_returns [Libraries] (hkept : Kept Q) {v : Value} (hl : I l)
    (h : Followable (inlineTarget w path base) I Q l (externals v)) :
    Returns I l (inlineWithin w path base v) (InOrder Q (externals v) fun σ => substitute σ v) :=
  Returns.of_succ (replaceExternal_returns hkept hl h)

/-! ## Targets -/

section Targets

variable [Libraries]

/-- What opening a target gives, if `D` holds of the documents that are given. -/
inductive Opening (D : String → Except Error Value → Prop) (path : List String)
    (base ref : String) : Except Error (Target × Value) → Prop
  | unreadable {e : Error} : Target.ofReference base ref = .error e →
      Opening D path base ref (.error e)
  | circular {t : Target} : Target.ofReference base ref = .ok t → t.key ∈ path →
      Opening D path base ref (.error (.of (.load t.key .circular)))
  | unavailable {t : Target} {e : Error} : Target.ofReference base ref = .ok t → t.key ∉ path →
      D t.uri (.error e) → Opening D path base ref (.error e)
  | missing {t : Target} {doc : Value} {e : Error} : Target.ofReference base ref = .ok t →
      t.key ∉ path → D t.uri (.ok doc) → t.find doc = .error e → Opening D path base ref (.error e)
  | found {t : Target} {doc found : Value} : Target.ofReference base ref = .ok t →
      t.key ∉ path → D t.uri (.ok doc) → t.find doc = .ok found →
      Opening D path base ref (.ok (t, found))

theorem openTarget_opening {D : Loader → String → Except Error Value → Prop} {ref : String}
    (hl : I l) (hdocument : ∀ t, Target.ofReference base ref = .ok t → ∀ r l',
      (document w t.uri).step l = (r, l') → I l' ∧ D l' t.uri r)
    {r : Except Error (Target × Value)} (h : (openTarget w path base ref).step l = (r, l')) :
    I l' ∧ l.Extends l' ∧ Opening (D l') path base ref r := by
  unfold openTarget at h
  rw [LoadM.step_bind, LoadM.step_ofExcept] at h
  rcases ht : Target.ofReference base ref with e | t <;> rw [ht] at h
  · obtain ⟨rfl, rfl⟩ := Prod.mk.inj h
    exact ⟨hl, .refl l, .unreadable ht⟩
  · dsimp only at h
    by_cases hpath : t.key ∈ path
    · rw [if_pos (by simpa using hpath), LoadM.step_bind] at h
      obtain ⟨rfl, rfl⟩ := Prod.mk.inj h
      exact ⟨hl, .refl l, .circular ht hpath⟩
    · rw [if_neg (by simpa using hpath), LoadM.step_bind] at h
      rcases hdoc : (document w t.uri).step l with ⟨r₁, l₁⟩
      rw [hdoc] at h
      obtain ⟨hl₁, hr₁⟩ := hdocument t ht r₁ l₁ hdoc
      have hextends := (document_extends hdoc).1
      cases r₁ with
      | error e =>
        obtain ⟨rfl, rfl⟩ := Prod.mk.inj h
        exact ⟨hl₁, hextends, .unavailable ht hpath hr₁⟩
      | ok doc =>
        dsimp only at h
        rw [LoadM.step_bind, LoadM.step_ofExcept] at h
        rcases hfound : t.find doc with e | found <;> rw [hfound] at h
        · obtain ⟨rfl, rfl⟩ := Prod.mk.inj h
          exact ⟨hl₁, hextends, .missing ht hpath hr₁ hfound⟩
        · obtain ⟨rfl, rfl⟩ := Prod.mk.inj h
          exact ⟨hl₁, hextends, .found ht hpath hr₁ hfound⟩

/-- Inlining a target returns if inlining what is found there does. -/
theorem inlineTarget_returns {D : Loader → String → Except Error Value → Prop} {ref : String}
    {P : Loader → Except Error Value → Prop} (hl : I l)
    (hdocument : ∀ t, Target.ofReference base ref = .ok t → ∀ r l',
      (document w t.uri).step l = (r, l') → I l' ∧ D l' t.uri r)
    (hbelow : ∀ t doc found l', I l' → Target.ofReference base ref = .ok t → t.key ∉ path →
      D l' t.uri (.ok doc) → t.find doc = .ok found →
      Returns I l' (inlineWithin w (t.key :: path) t.uri found) P)
    (herror : ∀ e l', Opening (D l') path base ref (.error e) → P l' (.error e)) :
    Returns I l (inlineTarget w path base ref) P := by
  refine (Returns.ofLoad fun r l' hstep => openTarget_opening hl hdocument hstep).bind ?_
    fun e l' _ => herror e l'
  rintro ⟨t, found⟩ l' hl' - h
  cases h with
  | found ht hfresh hdoc hfound => exact hbelow t _ found l' hl' ht hfresh hdoc hfound

end Targets

/-- Where all references lead to unfoldings, what comes out is the unfolding of the whole. -/
theorem InOrder.unfolds {F : Follow} {v v' : Value}
    (h : InOrder Q (externals v) (fun σ => substitute σ v) l (.ok v'))
    (hQ : ∀ ref u, Q l ref (.ok u) → ∃ t found, F base ref = .ok (t, found) ∧
      Unfolds F t.uri found u) : Unfolds F base v v' := by
  obtain ⟨hgood, hwhole⟩ := h
  have hunique : ∀ ref u u', Q l ref (.ok u) → Q l ref (.ok u') → u = u' := by
    intro ref u u' hu hu'
    obtain ⟨t, found, hfollow, hunfolds⟩ := hQ ref u hu
    obtain ⟨t', found', hfollow', hunfolds'⟩ := hQ ref u' hu'
    obtain ⟨rfl, rfl⟩ := Prod.mk.inj (Except.ok.inj (hfollow.symm.trans hfollow'))
    exact hunfolds.unique hunfolds'
  classical
  let σ : String → Value := fun ref => if h : ∃ u, Q l ref (.ok u) then h.choose else .null
  have hσ : ∀ ref u, Q l ref (.ok u) → u = σ ref := by
    intro ref u hu
    have hsome : ∃ u, Q l ref (.ok u) := ⟨u, hu⟩
    simp only [σ, dif_pos hsome]
    exact hunique ref u _ hu hsome.choose_spec
  have hopen : ∀ ref ∈ externals v, ∃ t found, F base ref = .ok (t, found) ∧
      Unfolds F t.uri found (σ ref) := by
    intro ref hr
    obtain ⟨u, hu⟩ := hgood ref hr
    exact hσ ref u hu ▸ hQ ref u hu
  choose! target found hfollow hunfolds using hopen
  rw [hwhole σ hσ]
  exact .intro target found σ hfollow hunfolds

end References

/-! ## Inlining returns -/

/-- Inlining returns, whatever has been read before. -/
theorem inlineWithin_ends [Libraries] (w : World) (base : String) (v : Value) {l : Loader}
    (hl : l.From w) : Returns (Loader.From w) l (inlineWithin w [] base v) fun _ _ => True := by
  refine met_induction (w := w) (P := fun path base v => ∀ l : Loader, l.From w →
    Returns (Loader.From w) l (inlineWithin w path base v) fun _ _ => True) ?_ l hl
  intro path base v _ hbelow l hl
  refine (inlineWithin_returns (Q := fun _ _ _ => True) (fun _ _ _ _ _ h => h) hl ?_).imp
    fun _ _ _ _ => trivial
  intro before ref after l' hsplit _ hl' _
  have hr : ref ∈ externals v := hsplit ▸ by simp
  refine inlineTarget_returns (D := fun _ uri r => ∀ doc, r = .ok doc → w.Offers uri doc) hl'
    (fun t _ r l' hstep => hl'.document hstep) ?_ fun _ _ _ => trivial
  intro t doc found l' hl' ht hfresh hdoc hfound
  exact hbelow ref hr t doc found ht hfresh (hdoc doc rfl) hfound l' hl'

end ApiProto.Source
