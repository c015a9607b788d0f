import ApiProto.Proofs.Inlining
import ApiProto.Value.Equality
import Mathlib.Logic.Relation

/-!
# What inlining gives

Inlining remembers what has been read and the way that has been taken, and unfolding does not. Where
keys tell targets apart and normal forms of URLs tell places apart, both come to the same.

* `TellsApart` — keys tell targets apart, and normal forms tell places apart.
* `inlineWithin_outcome` — what inlining returns then.
* `inlineExternal_unfolds` — inlining is unfolding.
* `inlineExternal_misled` — how inlining goes astray otherwise.
-/

namespace ApiProto.Source

open Uri InlineM

section Outcome

variable [Libraries] {w : World} {start base : String} {root v : Value}

theorem World.follow_of {ref : String} {t : Target} (h : Target.ofReference base ref = .ok t) :
    w.follow base ref = (w.document t.uri).bind fun doc => (t.find doc).map (t, ·) := by
  unfold follow
  rw [h]
  rfl

theorem World.follow_ok_iff {ref : String} {t : Target} {found : Value} :
    w.follow base ref = .ok (t, found) ↔ Target.ofReference base ref = .ok t ∧
      ∃ doc, w.document t.uri = .ok doc ∧ t.find doc = .ok found := by
  refine ⟨fun h => ?_, ?_⟩
  · rcases ht : Target.ofReference base ref with e | t'
    · unfold follow at h
      rw [ht] at h
      cases h
    · rw [follow_of ht] at h
      rcases hdoc : w.document t'.uri with e | doc <;> rw [hdoc] at h
      · cases h
      · dsimp only [Except.bind] at h
        rcases hfound : t'.find doc with e | found' <;> rw [hfound] at h <;> cases h
        exact ⟨rfl, doc, hdoc, hfound⟩
  · rintro ⟨ht, doc, hdoc, hfound⟩
    rw [follow_of ht, hdoc]
    simp [Except.bind, Except.map, hfound]

/-- Unfolding a value in order comes to another value. -/
def Visits (w : World) (start : String) (root : Value) (s : String × Value) : Prop :=
  Relation.ReflTransGen (Descends w.follow) (start, root) s

/-- Unfolding a value in order comes to a reference with a given target. -/
def Opens (w : World) (start : String) (root : Value) (t : Target) : Prop :=
  ∃ s before ref after, Visits w start root s ∧ externals s.2 = before ++ ref :: after ∧
    (∀ r ∈ before, Resolves w.follow s.1 r) ∧ Target.ofReference s.1 ref = .ok t

/-- A location of which unfolding a value in order asks for a document. -/
def Asks (w : World) (start : String) (root : Value) (uri : String) : Prop :=
  ∃ t, Opens w start root t ∧ t.uri = uri

/-- Of the targets that unfolding a value comes to, no two have the same key, and no two lie at
different places that have the same normal form. -/
structure TellsApart (w : World) (start : String) (root : Value) : Prop where
  targets : ∀ t t', Opens w start root t → Opens w start root t' → t.key = t'.key → t = t'
  places : PlacesApart (Asks w start root)

/-- What inlining a value returns: its unfolding, or the first failure, or that it is circular. -/
def Outcome (w : World) (base : String) (v : Value) : Except Error Value → Prop
  | .ok v' => Unfolds w.follow base v v'
  | .error e => Fails w.follow base v e ∨
      Endless w.follow base v ∧ ∃ key, e = .of (.load key .circular)

/-- What inlining a reference in a value returns. It is circular where its target led to the
value. -/
def TargetOutcome (w : World) (base : String) (v : Value) (ref : String) :
    Except Error Value → Prop
  | .ok u => ∃ t found, w.follow base ref = .ok (t, found) ∧ Unfolds w.follow t.uri found u
  | .error e => w.follow base ref = .error e ∨
      ∃ t found, w.follow base ref = .ok (t, found) ∧ (Outcome w t.uri found (.error e) ∨
        Relation.ReflTransGen (Descends w.follow) (t.uri, found) (base, v) ∧
          ∃ key, e = .of (.load key .circular))

theorem Endless.of_descends {s s' : String × Value} (h : Descends w.follow s s')
    (hendless : Endless w.follow s'.1 s'.2) : Endless w.follow s.1 s.2 := by
  obtain ⟨f, hstart, hsteps⟩ := hendless
  refine ⟨fun n => Nat.casesOn n s f, rfl, fun n => ?_⟩
  cases n with
  | zero =>
    show Descends w.follow s (f 0)
    rw [hstart]
    exact h
  | succ n => exact hsteps n

/-- A value that unfolding comes back to has no end. -/
theorem Endless.of_cycle {s s' : String × Value} (h : Descends w.follow s s')
    (hback : Relation.ReflTransGen (Descends w.follow) s' s) : Endless w.follow s.1 s.2 := by
  have hnext : ∀ x : {x // Relation.ReflTransGen (Descends w.follow) x s}, ∃ y : {y //
      Relation.ReflTransGen (Descends w.follow) y s}, Descends w.follow x.1 y.1 := by
    rintro ⟨x, hx⟩
    rcases Relation.ReflTransGen.cases_head hx with rfl | ⟨y, hxy, hy⟩
    · exact ⟨⟨s', hback⟩, h⟩
    · exact ⟨⟨y, hy⟩, hxy⟩
  choose next hdescends using hnext
  let f : Nat → {x // Relation.ReflTransGen (Descends w.follow) x s} :=
    fun n => Nat.rec ⟨s, .refl⟩ (fun _ => next) n
  exact ⟨fun n => (f n).1, rfl, fun n => hdescends (f n)⟩

theorem Resolves.of_outcome {ref : String} {u : Value} (h : TargetOutcome w base v ref (.ok u)) :
    Resolves w.follow base ref := by
  obtain ⟨t, found, hfollow, hunfolds⟩ := h
  exact ⟨t, found, u, hfollow, hunfolds⟩

/-- The outcome of a value, from those of its references. -/
theorem Outcome.of_inOrder {l : Loader} {r : Except Error Value}
    (h : InOrder (fun _ => TargetOutcome w base v) (externals v) (fun σ => substitute σ v) l r) :
    Outcome w base v r := by
  cases r with
  | ok v' => exact h.unfolds fun _ _ => id
  | error e =>
    obtain ⟨before, ref, after, hsplit, hgood, he⟩ := h
    have hbefore : ∀ r ∈ before, Resolves w.follow base r := fun r hr =>
      (hgood r hr).elim fun _ => Resolves.of_outcome
    rcases he with hfollow | ⟨t, found, hfollow, hbelow⟩
    · exact .inl (.here hsplit hbefore hfollow)
    · have hdescends : Descends w.follow (base, v) (t.uri, found) :=
        ⟨before, ref, after, t, hsplit, hbefore, hfollow, rfl⟩
      rcases hbelow with (hfails | ⟨hendless, hkey⟩) | ⟨hback, hkey⟩
      · exact .inl (.later hdescends hfails)
      · exact .inr ⟨Endless.of_descends hdescends hendless, hkey⟩
      · exact .inr ⟨Endless.of_cycle hdescends hback, hkey⟩

/-- A value that has an unfolding is inlined to it. -/
theorem Outcome.of_unfolds {r : Except Error Value} {v' : Value} (h : Outcome w base v r)
    (hunfolds : Unfolds w.follow base v v') : r = .ok v' := by
  cases r with
  | ok u => exact congrArg Except.ok (Unfolds.unique h hunfolds)
  | error e =>
    rcases h with hfails | ⟨hendless, -⟩
    · exact absurd hunfolds hfails.not_unfolds
    · exact absurd hunfolds hendless.not_unfolds

/-- The keys of a path are those of targets that led to a value. -/
def Trail (w : World) (start : String) (root : Value) (path : List String) (s : String × Value) :
    Prop :=
  ∀ key ∈ path, ∃ t base ref found, t.key = key ∧ Opens w start root t ∧
    w.follow base ref = .ok (t, found) ∧ Relation.ReflTransGen (Descends w.follow) (t.uri, found) s

/-- Inlining gives the unfolding of a value if there is one, else the failure that is met first, or
tells that the value is circular. -/
theorem inlineWithin_outcome (htell : TellsApart w start root) {l : Loader}
    (hl : l.Holds w (Asks w start root)) :
    Returns (Loader.Holds w (Asks w start root)) l (inlineWithin w [] start root)
      fun _ => Outcome w start root := by
  refine met_induction (w := w) (P := fun path base v => Visits w start root (base, v) →
    Trail w start root path (base, v) → ∀ l : Loader, l.Holds w (Asks w start root) →
      Returns (Loader.Holds w (Asks w start root)) l (inlineWithin w path base v)
        fun _ => Outcome w base v) ?_ .refl
    (fun _ h => absurd h List.not_mem_nil) l hl
  intro path base v _ hbelow hvisits htrail l hl
  refine (inlineWithin_returns (Q := fun _ => TargetOutcome w base v) (fun _ _ _ _ _ h => h) hl
    ?_).imp fun _ _ _ hr => .of_inOrder hr
  intro before ref after l' hsplit _ hl' hgood
  have hbefore : ∀ r ∈ before, Resolves w.follow base r := fun r hr =>
    (hgood r hr).elim fun _ => Resolves.of_outcome
  have hr : ref ∈ externals v := hsplit ▸ by simp
  have hopens : ∀ t, Target.ofReference base ref = .ok t → Opens w start root t := fun t ht =>
    ⟨(base, v), before, ref, after, hvisits, hsplit, hbefore, ht⟩
  refine inlineTarget_returns (D := fun _ uri r => r = w.document uri) hl'
    (fun t ht r l' hstep => hl'.document htell.places ⟨t, hopens t ht, rfl⟩ hstep) ?_ ?_
  · intro t doc found l' hl' ht hfresh hdoc hfound
    have hfollow : w.follow base ref = .ok (t, found) :=
      World.follow_ok_iff.2 ⟨ht, doc, hdoc.symm, hfound⟩
    have hdescends : Descends w.follow (base, v) (t.uri, found) :=
      ⟨before, ref, after, t, hsplit, hbefore, hfollow, rfl⟩
    refine (hbelow ref hr t doc found ht hfresh (World.offers_of_document hdoc.symm) hfound
      (hvisits.tail hdescends) ?_ l' hl').imp ?_
    · intro key hkey
      rcases List.mem_cons.1 hkey with rfl | hkey
      · exact ⟨t, base, ref, found, rfl, hopens t ht, hfollow, .refl⟩
      · obtain ⟨t', base', ref', found', heq, hopens', hfollow', hback⟩ := htrail key hkey
        exact ⟨t', base', ref', found', heq, hopens', hfollow', hback.tail hdescends⟩
    · rintro - (e | u) - hout
      · exact .inr ⟨t, found, hfollow, .inl hout⟩
      · exact ⟨t, found, hfollow, hout⟩
  · intro e l' hopening
    cases hopening with
    | unreadable ht => exact .inl (by rw [World.follow, ht]; rfl)
    | @circular t ht hpath =>
      obtain ⟨t', base', ref', found, hkey, hopens', hfollow, hback⟩ := htrail _ hpath
      obtain rfl := htell.targets t' t hopens' (hopens t ht) hkey
      have hfollow' := World.follow_ok_iff.2 ⟨ht, (World.follow_ok_iff.1 hfollow).2⟩
      exact .inr ⟨t', found, hfollow', .inr ⟨hback, _, rfl⟩⟩
    | unavailable ht _ hdoc =>
      refine .inl ?_
      rw [World.follow_of ht, ← hdoc]
      rfl
    | missing ht _ hdoc hfound =>
      refine .inl ?_
      rw [World.follow_of ht, ← hdoc]
      simp [Except.bind, Except.map, hfound]

/-- No reference is left in an unfolding, unless one stood under `$ref` itself. -/
theorem Unfolds.externals_eq_nil {v' : Value} (h : Unfolds w.follow base v v')
    (hplain : ∀ s, Visits w base v s → PlainRefs s.2) : externals v' = [] := by
  induction h with
  | @intro base v target found σ hopen hbelow ih =>
    refine externals_substitute (fun ref hr => ?_) (hplain _ .refl)
    obtain ⟨before, after, hsplit⟩ := List.append_of_mem hr
    have hdescends : Descends w.follow (base, v) ((target ref).uri, found ref) :=
      ⟨before, ref, after, target ref, hsplit, fun r hmem =>
        have hr' : r ∈ externals v := hsplit ▸ List.mem_append_left _ hmem
        ⟨_, _, _, hopen r hr', hbelow r hr'⟩, hopen ref hr, rfl⟩
    exact ih ref hr fun s hs => hplain s (.head hdescends hs)

/-! ## Simple cases -/

/-- From a value with a single reference to a value without references, unfolding comes to one
target. -/
theorem opens_of_single {ref : String} {t t' : Target} {found : Value}
    (hv : externals v = [ref]) (hfollow : w.follow base ref = .ok (t, found))
    (hfound : externals found = []) (h : Opens w base v t') : t' = t := by
  have href : ∀ before r after, externals v = before ++ r :: after → r = ref := by
    intro before r after hsplit
    rw [hv] at hsplit
    cases before <;> simp_all
  have hvisits : ∀ s, Visits w base v s → s = (base, v) ∨ s = (t.uri, found) := by
    intro s hs
    induction hs with
    | refl => exact .inl rfl
    | tail _ hdescends ih =>
      obtain ⟨before, r, after, t', hsplit, -, hopen, huri⟩ := hdescends
      rcases ih with rfl | rfl
      · rw [href before r after hsplit] at hopen
        obtain ⟨rfl, heq⟩ := Prod.mk.inj (Except.ok.inj (hfollow.symm.trans hopen))
        exact .inr (Prod.ext huri heq.symm)
      · simp [hfound] at hsplit
  obtain ⟨s, before, r, after, hs, hsplit, -, hopen⟩ := h
  rcases hvisits s hs with rfl | rfl
  · rw [href before r after hsplit] at hopen
    exact Except.ok.inj (hopen.symm.trans (World.follow_ok_iff.1 hfollow).1)
  · simp [hfound] at hsplit

/-- A single target is told apart. -/
theorem tellsApart_of_single {ref : String} {t : Target} {found : Value}
    (hv : externals v = [ref]) (hfollow : w.follow base ref = .ok (t, found))
    (hfound : externals found = []) : TellsApart w base v := by
  have hopens : ∀ t', Opens w base v t' → t' = t := fun t' =>
    opens_of_single hv hfollow hfound
  refine ⟨fun t₁ t₂ h₁ h₂ _ => (hopens t₁ h₁).trans (hopens t₂ h₂).symm, ?_⟩
  rintro uri uri' ⟨t₁, h₁, rfl⟩ ⟨t₂, h₂, rfl⟩ u u' hu hu' -
  rw [hopens t₁ h₁] at hu
  rw [hopens t₂ h₂, hu] at hu'
  rw [Except.ok.inj hu']

theorem unfolds_of_single {ref : String} {t : Target} {found u : Value}
    (hv : externals v = [ref]) (hfollow : w.follow base ref = .ok (t, found))
    (hfound : Unfolds w.follow t.uri found u) :
    Unfolds w.follow base v (substitute (fun _ => u) v) := by
  refine .intro (fun _ => t) (fun _ => found) (fun _ => u) ?_ ?_ <;> intro r hr <;>
    obtain rfl : r = ref := by simpa [hv] using hr
  · exact hfollow
  · exact hfound

theorem unfolds_of_externals_eq_nil (h : externals v = []) :
    Unfolds w.follow base v (substitute (fun _ => .null) v) := by
  refine .intro (fun _ => default) (fun _ => .null) (fun _ => .null) ?_ ?_ <;> simp [h]

end Outcome

/-! ## The result -/

/-- Inlining always returns. Where keys tell the targets apart that it comes to, and normal forms
their places, it succeeds for the values that have an unfolding, and gives the unfolding, in which
no reference is left if none stood under `$ref` itself. Otherwise it gives the failure that
unfolding meets first, and if there is none, it tells that the value is circular. -/
theorem inlineExternal_unfolds [Libraries] (w : World) (base : String) (v : Value) (l : Loader)
    (hfrom : l.From w) :
    (∃ depth r l', (inlineWithin w [] base v depth).step l = some (r, l') ∧
      (inlineExternal w base v).step l = (r, l')) ∧
    (TellsApart w base v → l.Holds w (Asks w base v) →
      (∀ v', ((inlineExternal w base v).step l).1 = .ok v' ↔ Unfolds w.follow base v v') ∧
      (∀ v', Unfolds w.follow base v v' → (∀ s, Visits w base v s → PlainRefs s.2) →
        externals v' = []) ∧
      (∀ e, Fails w.follow base v e → ((inlineExternal w base v).step l).1 = .error e) ∧
      (Endless w.follow base v → ∃ key,
        ((inlineExternal w base v).step l).1 = .error (.of (.load key .circular)))) := by
  refine ⟨?_, fun htell hholds => ?_⟩
  · obtain ⟨r, l', ⟨depth, hstep⟩, -⟩ := inlineWithin_ends w base v hfrom
    have hdepth := hstep depth le_rfl
    exact ⟨depth, r, l', hdepth, inlineExternal_step hdepth⟩
  · obtain ⟨r, l', hstep, -, -, hr⟩ := (inlineWithin_outcome htell hholds).inlineExternal
    rw [hstep]
    refine ⟨fun v' => ?_, fun v' => Unfolds.externals_eq_nil, fun e hfails => ?_,
      fun hendless => ?_⟩
    · refine ⟨fun h => ?_, fun h => ?_⟩
      · obtain rfl : r = .ok v' := h
        exact hr
      · exact Outcome.of_unfolds hr h
    · cases r with
      | ok u => exact absurd hr hfails.not_unfolds
      | error e' =>
        rcases hr with hfails' | ⟨hendless, -⟩
        · exact congrArg Except.error (hfails'.unique hfails)
        · exact absurd hendless hfails.not_endless
    · cases r with
      | ok u => exact absurd hr hendless.not_unfolds
      | error e =>
        rcases hr with hfails | ⟨-, key, rfl⟩
        · exact absurd hendless hfails.not_endless
        · exact ⟨key, rfl⟩

/-- A world with one document. -/
def sizesWorld : World := .ofTexts [("/w/b.json", "\x7b\"x\": 1\x7d")]

/-- A reference into the document. -/
def sizesNode : Value := .object [("$ref", .text "b.json#/x")]

theorem inlineExternal_unfolds_sizes :
    ((inlineExternal sizesWorld "file:///w/a.json" sizesNode).step .empty).1 = .ok (.int 1) := by
  have hv : externals sizesNode = ["b.json#/x"] := by decide +kernel
  have hfollow : sizesWorld.follow "file:///w/a.json" "b.json#/x" =
      .ok (⟨"file:///w/b.json", "/x"⟩, .int 1) := by decide +kernel
  have hunfolds : Unfolds sizesWorld.follow "file:///w/a.json" sizesNode (.int 1) :=
    unfolds_of_single hv hfollow (unfolds_of_externals_eq_nil rfl)
  exact (((inlineExternal_unfolds sizesWorld _ sizesNode .empty (Loader.from_empty _)).2
    (tellsApart_of_single hv hfollow rfl) (Loader.holds_empty _ _)).1 (.int 1)).2 hunfolds

/-- A document with a text that looks like a reference. -/
def namesWorld : World :=
  .ofTexts [("/w/names.json", "\x7b\"n\": \"other.json\"\x7d"),
    ("/w/other.json", "\x7b\"x\": 1\x7d")]

/-- A reference in the place of the text of a reference. -/
def namesNode : Value := .object [("$ref", .object [("$ref", .text "names.json#/n")])]

/-- A document with two places to which the same key belongs, as seen from different locations. -/
def marksWorld : World :=
  .ofTexts [("/w/a.json",
    "\x7b\"x\": \x7b\"$ref\": \"a.json#/b#/x\"\x7d, \"b#\": \x7b\"x\": 1\x7d\x7d")]

/-- A reference into the document at the base. -/
def marksNode : Value := .object [("$ref", .text "?#/x")]

/-- A document at a rooted path. -/
def rootedWorld : World := .ofTexts [("/w/a.json", "\x7b\"x\": 1\x7d")]

/-- References to the rooted path, and to the document at the base. -/
def rootedNode : Value :=
  .list [.object [("$ref", .text "file:///w/a.json")], .object [("$ref", .text "?")]]

/-- Inlining can leave a reference, can take a finite unfolding for circular, and can succeed where
a document does not exist. -/
theorem inlineExternal_misled :
    (Unfolds namesWorld.follow "file:///w/a.json" namesNode (.object [("$ref", .text "other.json")]) ∧
      ((inlineExternal namesWorld "file:///w/a.json" namesNode).step .empty).1 =
        .ok (.object [("$ref", .text "other.json")]) ∧
      externals (.object [("$ref", .text "other.json")]) = ["other.json"]) ∧
    (Unfolds marksWorld.follow "file:///w/a.json#/b" marksNode (.int 1) ∧
      ((inlineExternal marksWorld "file:///w/a.json#/b" marksNode).step .empty).1 =
        .error (.of (.load "file:///w/a.json#/b#/x" .circular))) ∧
    (Fails rootedWorld.follow "file:w/a.json" rootedNode
        (.of (.load "file:///w/a.json" (.unavailable World.noFile))) ∧
      ((inlineExternal rootedWorld "file:w/a.json" rootedNode).step .empty).1 =
        .ok (.list [.object [("x", .int 1)], .object [("x", .int 1)]])) := by
  refine ⟨?_, ?_, ?_⟩
  · have hv : externals namesNode = ["names.json#/n"] := by decide +kernel
    have hfollow : namesWorld.follow "file:///w/a.json" "names.json#/n" =
        .ok (⟨"file:///w/names.json", "/n"⟩, .text "other.json") := by decide +kernel
    have hunfolds : Unfolds namesWorld.follow "file:///w/a.json" namesNode
        (.object [("$ref", .text "other.json")]) :=
      unfolds_of_single hv hfollow (unfolds_of_externals_eq_nil rfl)
    obtain ⟨r, l', hstep, -, -, hr⟩ := (inlineWithin_outcome (tellsApart_of_single hv hfollow rfl)
      (Loader.holds_empty _ _)).inlineExternal
    refine ⟨hunfolds, ?_, by decide +kernel⟩
    rw [hstep]
    exact Outcome.of_unfolds hr hunfolds
  · have hfollow : marksWorld.follow "file:///w/a.json#/b" "?#/x" =
        .ok (⟨"file:///w/a.json#/b", "/x"⟩, .object [("$ref", .text "a.json#/b#/x")]) := by
      decide +kernel
    have hfollow' : marksWorld.follow "file:///w/a.json#/b" "a.json#/b#/x" =
        .ok (⟨"file:///w/a.json", "/b#/x"⟩, .int 1) := by decide +kernel
    refine ⟨unfolds_of_single (by decide +kernel) hfollow (unfolds_of_single
      (by decide +kernel) hfollow' (unfolds_of_externals_eq_nil rfl)), ?_⟩
    exact inlineExternal_result 2 (by decide +kernel)
  · have hfollow : rootedWorld.follow "file:w/a.json" "file:///w/a.json" =
        .ok (⟨"file:///w/a.json", ""⟩, .object [("x", .int 1)]) := by decide +kernel
    have hmissing : rootedWorld.follow "file:w/a.json" "?" =
        .error (.of (.load "file:///w/a.json" (.unavailable World.noFile))) := by decide +kernel
    have hv : externals rootedNode = ["file:///w/a.json"] ++ "?" :: [] := by decide +kernel
    refine ⟨.here hv ?_ hmissing, ?_⟩
    · intro r hr
      obtain rfl : r = "file:///w/a.json" := List.mem_singleton.1 hr
      exact ⟨_, _, _, hfollow, unfolds_of_externals_eq_nil rfl⟩
    · exact inlineExternal_result 2 (by decide +kernel)

end ApiProto.Source
