import ApiProto.Proofs.Step

/-!
# Courses

A run passes through states, also if it fails. Which states these are is known once it is known how
what is run is made of elementary steps, each of which changes the state at most once.

* `Machine` — a monad of steps on a state, with the steps that are elementary.
* `Course` — how a step is made of elementary steps and of steps that change nothing.
* `Course.Passes` — the states that a run passes, its start and its end among them.
* `Course.Safe` — what holds of all states that a run passes, and of its result.
-/

namespace ApiProto.Compile

/-- A monad of steps on a state. A step that fails has no next state. -/
structure Machine (M : Type → Type) [Monad M] (σ : Type) where
  next : {α : Type} → M α → σ → Option (α × σ)
  /-- Adds a frame to the error of a step. -/
  framed : {α : Type} → String → M α → M α
  /-- The steps that change the state at most once. -/
  Elementary : {α : Type} → M α → Prop
  next_pure : ∀ {α : Type} (a : α) (s : σ), next (pure a) s = some (a, s)
  next_bind : ∀ {α β : Type} (m : M α) (f : α → M β) (s : σ),
    next (m >>= f) s = (next m s).bind fun p => next (f p.1) p.2
  next_framed : ∀ {α : Type} (frame : String) (m : M α) (s : σ), next (framed frame m) s = next m s

variable {M : Type → Type} [Monad M] {σ : Type} {S : Machine M σ}

/-- A step that never changes the state. -/
def Machine.Still {α : Type} (S : Machine M σ) (m : M α) : Prop :=
  ∀ s a s', S.next m s = some (a, s') → s' = s

theorem Machine.still_pure {α : Type} (a : α) : S.Still (pure a) := by
  intro s b s' h
  rw [S.next_pure] at h
  exact (Prod.mk.inj (Option.some.inj h)).2.symm

/-- How a step is made of elementary steps. -/
inductive Course (S : Machine M σ) : {α : Type} → M α → Type 1
  | still {α : Type} {m : M α} : S.Still m → Course S m
  | once {α : Type} {m : M α} : S.Elementary m → Course S m
  /-- A step that runs another machine: `inside s s'` says that a run from `s` passes `s'`. -/
  | nested {α : Type} {m : M α} (inside : σ → σ → Prop) : Course S m
  | bind {α β : Type} {m : M α} {f : α → M β} :
      Course S m → ((a : α) → Course S (f a)) → Course S (m >>= f)
  | framed {α : Type} {frame : String} {m : M α} : Course S m → Course S (S.framed frame m)
  | ite {α : Type} {p : Prop} [Decidable p] {m m' : M α} :
      Course S m → Course S m' → Course S (if p then m else m')
  /-- Another way to write the same step. -/
  | same {α : Type} {m m' : M α} : m = m' → Course S m → Course S m'

namespace Course

variable {α β γ : Type} {m : M α} {s s' : σ}

/-- The states that a run passes: where it starts, where it ends, and what lies between. When a step
fails, the steps after it pass nothing. -/
def Passes : {α : Type} → {m : M α} → Course S m → σ → σ → Prop
  | _, _, still _, s, s' => s' = s
  | _, m, once _, s, s' => s' = s ∨ ∃ a, S.next m s = some (a, s')
  | _, m, nested inside, s, s' => s' = s ∨ inside s s' ∨ ∃ a, S.next m s = some (a, s')
  | _, _, @bind _ _ _ _ _ _ m _ t t', s, s' =>
    t.Passes s s' ∨ ∃ a s₁, S.next m s = some (a, s₁) ∧ (t' a).Passes s₁ s'
  | _, _, framed t, s, s' => t.Passes s s'
  | _, _, @ite _ _ _ _ _ p _ _ _ t t', s, s' => if p then t.Passes s s' else t'.Passes s s'
  | _, _, same _ t, s, s' => t.Passes s s'

/-- A run that succeeds passes the state in which it ends. -/
theorem passes_end (t : Course S m) {a : α} (h : S.next m s = some (a, s')) : t.Passes s s' := by
  induction t generalizing s with
  | still hstill => exact hstill s a s' h
  | once => exact .inr ⟨a, h⟩
  | nested => exact .inr (.inr ⟨a, h⟩)
  | bind t t' _ ih =>
    rw [S.next_bind] at h
    obtain ⟨⟨b, s₁⟩, hfirst, hrest⟩ := Option.bind_eq_some_iff.1 h
    exact .inr ⟨b, s₁, hfirst, ih b hrest⟩
  | framed t ih => exact ih (S.next_framed _ _ _ ▸ h)
  | ite t t' ih ih' =>
    unfold Passes
    split at h
    · next hp =>
      rw [if_pos hp]
      exact ih h
    · next hp =>
      rw [if_neg hp]
      exact ih' h
  | same heq t ih => exact ih (heq ▸ h)

/-! ## Lists -/

/-- The course of a step for each item of a list. -/
def forM {f : β → M PUnit} (t : ∀ b, Course S (f b)) : (l : List β) → Course S (l.forM f)
  | [] => still (S.still_pure _)
  | b :: rest => bind (t b) fun _ => forM t rest

/-- The course of a step for each item of a list made from another one, after the results `done`. -/
def mapMFrom {f : γ → M α} {k : β → γ} : (l : List β) → (∀ b ∈ l, Course S (f (k b))) →
    (done : List α) → Course S (List.mapM.loop f (l.map k) done)
  | [], _, _ => still (S.still_pure _)
  | b :: rest, t, done => bind (t b (List.mem_cons_self ..)) fun a =>
      mapMFrom rest (fun b hb => t b (List.mem_cons_of_mem _ hb)) (a :: done)

/-- The course of a step for each item of a list made from another one, with the results. -/
def mapM {f : γ → M α} {k : β → γ} (l : List β) (t : ∀ b ∈ l, Course S (f (k b))) :
    Course S ((l.map k).mapM f) :=
  mapMFrom l t []

/-! ## Safety -/

/-- Whether all states that a run passes have a property, and whatever it results in another. -/
def Safe (t : Course S m) (P : σ → Prop) (Q : α → σ → Prop) (s : σ) : Prop :=
  (∀ s', t.Passes s s' → P s') ∧ ∀ a s', S.next m s = some (a, s') → Q a s'

namespace Safe

variable {P : σ → Prop} {Q Q' : α → σ → Prop}

theorem still {h : S.Still m} (hs : P s) (hnext : ∀ a, S.next m s = some (a, s) → Q a s) :
    (Course.still h).Safe P Q s := by
  refine ⟨fun s' heq => ?_, fun a s' ha => ?_⟩
  · obtain rfl : s' = s := heq
    exact hs
  · obtain rfl := h s a s' ha
    exact hnext a ha

theorem pure {a : α} {h : S.Still (pure a)} (hs : P s) (ha : Q a s) :
    (Course.still h).Safe P Q s := by
  refine still hs fun b hb => ?_
  rw [S.next_pure] at hb
  exact (Prod.mk.inj (Option.some.inj hb)).1 ▸ ha

theorem once {h : S.Elementary m} (hs : P s)
    (hnext : ∀ a s', S.next m s = some (a, s') → P s' ∧ Q a s') : (Course.once h).Safe P Q s := by
  refine ⟨?_, fun a s' ha => (hnext a s' ha).2⟩
  rintro s' (rfl | ⟨a, ha⟩)
  · exact hs
  · exact (hnext a s' ha).1

theorem nested {inside : σ → σ → Prop} (hs : P s) (hinside : ∀ s', inside s s' → P s')
    (hnext : ∀ a s', S.next m s = some (a, s') → P s' ∧ Q a s') :
    (Course.nested inside : Course S m).Safe P Q s := by
  refine ⟨?_, fun a s' ha => (hnext a s' ha).2⟩
  rintro s' (rfl | hs' | ⟨a, ha⟩)
  · exact hs
  · exact hinside s' hs'
  · exact (hnext a s' ha).1

theorem bind {f : α → M β} {t : Course S m} {t' : ∀ a, Course S (f a)} {R : β → σ → Prop}
    (h : t.Safe P Q s) (h' : ∀ a s', Q a s' → (t' a).Safe P R s') : (t.bind t').Safe P R s := by
  refine ⟨?_, fun b s' hb => ?_⟩
  · rintro s' (hfirst | ⟨a, s₁, hfirst, hrest⟩)
    · exact h.1 s' hfirst
    · exact (h' a s₁ (h.2 a s₁ hfirst)).1 s' hrest
  · rw [S.next_bind] at hb
    obtain ⟨⟨a, s₁⟩, hfirst, hrest⟩ := Option.bind_eq_some_iff.1 hb
    exact (h' a s₁ (h.2 a s₁ hfirst)).2 b s' hrest

/-- A step that changes nothing, before other steps. -/
theorem read {h : S.Still m} {f : α → M β} {t' : ∀ a, Course S (f a)} {R : β → σ → Prop}
    (hs : P s) (h' : ∀ a, S.next m s = some (a, s) → (t' a).Safe P R s) :
    ((Course.still h).bind t').Safe P R s := by
  refine bind (Q := fun a s' => s' = s ∧ S.next m s = some (a, s))
    (still hs fun a ha => ⟨rfl, ha⟩) ?_
  rintro a s' ⟨rfl, ha⟩
  exact h' a ha

theorem framed {frame : String} {t : Course S m} (h : t.Safe P Q s) :
    (@Course.framed _ _ _ S _ frame _ t).Safe P Q s :=
  ⟨h.1, fun a s' ha => h.2 a s' (S.next_framed _ _ _ ▸ ha)⟩

theorem ite {p : Prop} [Decidable p] {m' : M α} {t : Course S m} {t' : Course S m'}
    (h : p → t.Safe P Q s) (h' : ¬ p → t'.Safe P Q s) :
    (Course.ite (p := p) t t').Safe P Q s := by
  by_cases hp : p
  · refine ⟨fun s' hs' => (h hp).1 s' ?_, fun a s' ha => (h hp).2 a s' ?_⟩
    · rwa [Passes, if_pos hp] at hs'
    · rwa [if_pos hp] at ha
  · refine ⟨fun s' hs' => (h' hp).1 s' ?_, fun a s' ha => (h' hp).2 a s' ?_⟩
    · rwa [Passes, if_neg hp] at hs'
    · rwa [if_neg hp] at ha

theorem same {m' : M α} {heq : m = m'} {t : Course S m} (h : t.Safe P Q s) :
    (Course.same heq t).Safe P Q s :=
  ⟨h.1, fun a s' ha => h.2 a s' (heq ▸ ha)⟩

theorem mono {t : Course S m} (h : t.Safe P Q s) (hQ : ∀ a s', Q a s' → Q' a s') :
    t.Safe P Q' s :=
  ⟨h.1, fun a s' ha => hQ a s' (h.2 a s' ha)⟩

/-- What each step for an item keeps is kept by all of them. -/
theorem forM {f : β → M PUnit} {t : ∀ b, Course S (f b)} {l : List β} {I : σ → Prop}
    (hI : ∀ s, I s → P s) (hstep : ∀ b ∈ l, ∀ s, I s → (t b).Safe P (fun _ s' => I s') s)
    (hs : I s) : (Course.forM t l).Safe P (fun _ s' => I s') s := by
  induction l generalizing s with
  | nil => exact pure (hI s hs) hs
  | cons b rest ih =>
    exact bind (hstep b (List.mem_cons_self ..) s hs)
      fun _ s₁ hs₁ => ih (fun b hb => hstep b (List.mem_cons_of_mem _ hb)) hs₁

theorem mapMFrom {f : γ → M α} {k : β → γ} {l : List β} {t : ∀ b ∈ l, Course S (f (k b))}
    {done : List α} {I : List α → σ → Prop} (hI : ∀ done s, I done s → P s)
    (hstep : ∀ b (hb : b ∈ l) done s, I done s →
      (t b hb).Safe P (fun a s' => I (a :: done) s') s) (hs : I done s) :
    (Course.mapMFrom l t done).Safe P (fun results s' => I results.reverse s') s := by
  induction l generalizing s done with
  | nil => exact pure (hI done s hs) ((List.reverse_reverse done).symm ▸ hs)
  | cons b rest ih =>
    exact bind (hstep b (List.mem_cons_self ..) done s hs)
      fun a s₁ hs₁ => ih (fun b hb => hstep b (List.mem_cons_of_mem _ hb)) hs₁

/-- What each step for an item adds to the results of those before it. -/
theorem mapM {f : γ → M α} {k : β → γ} {l : List β} {t : ∀ b ∈ l, Course S (f (k b))}
    {I : List α → σ → Prop} (hI : ∀ done s, I done s → P s)
    (hstep : ∀ b (hb : b ∈ l) done s, I done s →
      (t b hb).Safe P (fun a s' => I (a :: done) s') s) (hs : I [] s) :
    (Course.mapM l t).Safe P (fun results s' => I results.reverse s') s :=
  mapMFrom hI hstep hs

end Safe

end Course

end ApiProto.Compile
