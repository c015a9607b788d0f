import ApiProto.Proofs.InlinedUnfolding
import ApiProto.Source.Load

/-!
# Local references

Inlining replaces the references into other documents. A reference that starts with `#` stays as it
is, also in what comes from another document, and leads to a place in the whole that comes out.

* `Loader.follow` — following references among the documents that a loader knows.
* `Value.descend` — the value at a place: under keys and at indices, one after the other.
* `Reaches`, `Denotes` — the value at a place, where references into other documents are followed on
  the way, and its unfolding.
* `descend_iff_denotes` — the places of an unfolding.
* `load_keeps_local_references` — where local references lead once a document has been loaded.
* `load_redirects_local_references` — that this can be elsewhere than in their own document.
-/

namespace ApiProto

/-- The value at a place, which a list of keys and indices gives. -/
def Value.descend (v : Value) : List (List Char) → Except PointerFault Value
  | [] => .ok v
  | part :: rest => (v.child part).bind fun w => w.descend rest

end ApiProto

namespace ApiProto.Source

open Uri Text Document InlineM

/-! ## Documents that are known -/

/-- What a reference leads to, among the documents that a loader knows. -/
def Loader.follow [Libraries] (l : Loader) : Follow := fun base ref => do
  let target ← Target.ofReference base ref
  match l.documents.lookup target.uri with
  | none => fail (.load target.key (.unavailable "not read"))
  | some doc => return (target, ← target.find doc)

theorem Unfolds.mono {F F' : Follow} {base : String} {v v' : Value} (h : Unfolds F base v v')
    (hF : ∀ base ref x, F base ref = .ok x → F' base ref = .ok x) : Unfolds F' base v v' := by
  induction h with
  | intro target found σ hopen _ ih =>
    exact .intro target found σ (fun ref hr => hF _ _ _ (hopen ref hr)) ih

section Known

variable [Libraries] {w : World} {l l' : Loader} {base ref : String} {v : Value}

theorem Loader.follow_ok_iff {t : Target} {found : Value} : l.follow base ref = .ok (t, found) ↔
    Target.ofReference base ref = .ok t ∧
      ∃ doc, l.documents.lookup t.uri = some doc ∧ t.find doc = .ok found := by
  constructor
  · intro h
    unfold follow at h
    rcases ht : Target.ofReference base ref with e | t' <;> rw [ht] at h
    · cases h
    · dsimp only [bind, Except.bind] at h
      rcases hdoc : l.documents.lookup t'.uri with _ | doc <;> rw [hdoc] at h
      · cases h
      · dsimp only at h
        rcases hfound : t'.find doc with e | found' <;> rw [hfound] at h <;> cases h
        exact ⟨rfl, doc, hdoc, hfound⟩
  · rintro ⟨ht, doc, hdoc, hfound⟩
    unfold follow
    simp [ht, hdoc, hfound, bind, Except.bind, pure, Except.pure]

theorem Loader.Extends.follow {x : Target × Value} (h : l.Extends l')
    (hfollow : l.follow base ref = .ok x) : l'.follow base ref = .ok x := by
  obtain ⟨ht, doc, hdoc, hfound⟩ := Loader.follow_ok_iff.1 hfollow
  exact Loader.follow_ok_iff.2 ⟨ht, doc, h _ _ hdoc, hfound⟩

/-- Inlining that succeeds gives the unfolding among the documents that it has come to know. -/
theorem inlineWithin_known (w : World) (base : String) (v : Value) (hl : l.From w) :
    Returns (Loader.From w) l (inlineWithin w [] base v)
      fun l' r => ∀ v', r = .ok v' → Unfolds l'.follow base v v' := by
  refine met_induction (w := w) (P := fun path base v => ∀ l : Loader, l.From w →
    Returns (Loader.From w) l (inlineWithin w path base v)
      fun l' r => ∀ v', r = .ok v' → Unfolds l'.follow base v v') ?_ l hl
  intro path base v _ hbelow l hl
  let Q : Loader → String → Except Error Value → Prop := fun l ref r => ∀ u, r = .ok u →
    ∃ t found, l.follow base ref = .ok (t, found) ∧ Unfolds l.follow t.uri found u
  have hkept : Kept Q := by
    intro l l' ref u hextends hQ u' heq
    obtain ⟨t, found, hfollow, hunfolds⟩ := hQ u' heq
    exact ⟨t, found, hextends.follow hfollow, hunfolds.mono fun _ _ _ => hextends.follow⟩
  refine (inlineWithin_returns (Q := Q) hkept hl ?_).imp ?_
  · intro before ref after l' hsplit _ hl' _
    have hr : ref ∈ externals v := hsplit ▸ by simp
    refine inlineTarget_returns (D := fun l' uri r => ∀ doc, r = .ok doc →
      w.Offers uri doc ∧ l'.documents.lookup uri = some doc) hl' ?_ ?_ fun _ _ _ _ => nofun
    · intro t _ r l₁ hstep
      obtain ⟨hl₁, hoffers⟩ := hl'.document hstep
      exact ⟨hl₁, fun doc heq => ⟨hoffers doc heq, (document_extends hstep).2 doc heq⟩⟩
    · intro t doc found l₁ hl₁ ht hfresh hdoc hfound
      obtain ⟨hoffers, hknown⟩ := hdoc doc rfl
      refine (hbelow ref hr t doc found ht hfresh hoffers hfound l₁ hl₁).imp ?_
      intro l₂ r hextends hunfolds u heq
      exact ⟨t, found, Loader.follow_ok_iff.2 ⟨ht, doc, hextends _ _ hknown, hfound⟩,
        hunfolds u heq⟩
  · rintro l' r - hr v' rfl
    exact hr.unfolds fun ref u hu => hu u rfl

end Known

/-! ## Places -/

section Places

variable {F : Follow} {σ : String → Value} {base uri : String} {v v' x y : Value}
  {parts : List (List Char)} {part : List Char}

/-- A value does not stand for a reference into another document. -/
def IsOwn (v : Value) : Prop := ∀ entries, v = .object entries → externalRef? entries = none

theorem IsOwn.object {entries : List (String × Value)} (h : externalRef? entries = none) :
    IsOwn (.object entries) := by
  rintro _ ⟨⟩
  exact h

/-- The value at a place, which is read at some location. References into other documents are
followed on the way. -/
inductive Reaches (F : Follow) : String → Value → List (List Char) → String → Value → Prop
  | here (base : String) (v : Value) : Reaches F base v [] base v
  | step {base uri : String} {v v' x : Value} {part : List Char} {rest : List (List Char)} :
      IsOwn v → v.child part = .ok v' → Reaches F base v' rest uri x →
      Reaches F base v (part :: rest) uri x
  | cross {base ref uri : String} {entries : List (String × Value)} {t : Target} {found x : Value}
      {parts : List (List Char)} : externalRef? entries = some ref → F base ref = .ok (t, found) →
      Reaches F t.uri found parts uri x → Reaches F base (.object entries) parts uri x

/-- The unfolding of the value at a place. -/
def Denotes (F : Follow) (base : String) (v : Value) (parts : List (List Char)) (y : Value) :
    Prop :=
  ∃ uri x, Reaches F base v parts uri x ∧ Unfolds F uri x y

theorem substituteItems_eq_map (items : List Value) :
    substituteItems σ items = items.map (substitute σ) := by
  induction items with
  | nil => rfl
  | cons v rest ih => rw [substituteItems, ih, List.map_cons]

theorem itemAt_map (f : Value → Value) (items : List Value) (part : List Char) :
    itemAt (items.map f) part = (itemAt items part).map f := by
  unfold itemAt
  rcases indexOf part with e | n
  · rfl
  · simp only [bind, Except.bind, List.getElem?_map]
    rcases items[n]? with _ | item <;> rfl

/-- A step into an unfolding is a step into the value, if that does not lead elsewhere. -/
theorem child_substitute (h : IsOwn v) (part : List Char) :
    (substitute σ v).child part = (v.child part).map (substitute σ) := by
  cases v with
  | object entries =>
    simp only [substitute, h entries rfl, Value.child, lookup_substituteEntries]
    rcases entries.lookup (String.ofList part) with _ | v <;> rfl
  | list items => simp only [substitute, Value.child, substituteItems_eq_map, itemAt_map]
  | text s =>
    simp only [substitute, Value.child, Value.items?, Option.getD_some, ← itemAt_map, List.map_map]
    rfl
  | bytes data =>
    simp only [substitute, Value.child, Value.items?, Option.getD_some, ← itemAt_map, List.map_map]
    rfl
  | _ => rfl

theorem externals_subset_of_mem {items : List Value} (h : v ∈ items) :
    externals v ⊆ externalsOfItems items := by
  induction items with
  | nil => cases h
  | cons item rest ih =>
    rcases List.mem_cons.1 h with rfl | h
    · exact List.subset_append_left ..
    · exact List.Subset.trans (ih h) (List.subset_append_right ..)

theorem externals_subset_of_lookup {entries : List (String × Value)} {key : String}
    (h : entries.lookup key = some v) : externals v ⊆ externalsOfEntries entries := by
  induction entries with
  | nil => cases h
  | cons entry rest ih =>
    obtain ⟨k, value⟩ := entry
    rw [List.lookup_cons] at h
    split at h
    · cases h
      exact List.subset_append_left ..
    · exact List.Subset.trans (ih h) (List.subset_append_right ..)

theorem externals_subset_of_child (h : IsOwn v) (hchild : v.child part = .ok x) :
    externals x ⊆ externals v := by
  cases Value.below_of_child hchild with
  | @entry entries _ _ hlookup =>
    simpa only [externals, h entries rfl] using externals_subset_of_lookup hlookup
  | item hmem => simpa only [externals] using externals_subset_of_mem hmem
  | character | byte => exact List.nil_subset _

/-- Unfolding a value that stands for a reference is unfolding what the reference leads to. -/
theorem Unfolds.of_cross {ref : String} {entries : List (String × Value)} {t : Target}
    {found : Value} (hr : externalRef? entries = some ref) (hfollow : F base ref = .ok (t, found))
    (h : Unfolds F base (.object entries) v') : Unfolds F t.uri found v' := by
  obtain ⟨target, found', σ, hopen, hbelow⟩ := h
  have hmem : ref ∈ externals (.object entries) := by simp [externals, hr]
  obtain ⟨htarget, hfound⟩ :=
    Prod.mk.inj (Except.ok.inj ((hopen ref hmem).symm.trans hfollow))
  simpa [substitute, hr, htarget, hfound] using hbelow ref hmem

theorem Unfolds.child (hown : IsOwn v) (h : Unfolds F base v v') (hchild : v.child part = .ok x) :
    ∃ x', v'.child part = .ok x' ∧ Unfolds F base x x' := by
  obtain ⟨target, found, σ, hopen, hbelow⟩ := h
  have hsub := externals_subset_of_child hown hchild
  refine ⟨substitute σ x, ?_, .intro target found σ (fun ref hr => hopen ref (hsub hr))
    fun ref hr => hbelow ref (hsub hr)⟩
  rw [child_substitute hown, hchild]
  rfl

theorem Unfolds.of_child {x' : Value} (hown : IsOwn v) (h : Unfolds F base v v')
    (hchild : v'.child part = .ok x') : ∃ x, v.child part = .ok x ∧ Unfolds F base x x' := by
  have h' := h
  obtain ⟨target, found, σ, hopen, hbelow⟩ := h
  rw [child_substitute hown] at hchild
  rcases hx : v.child part with e | x <;> rw [hx] at hchild
  · cases hchild
  · obtain ⟨y, hy, hunfolds⟩ := Unfolds.child hown h' hx
    rw [child_substitute hown, hx] at hy
    cases hchild
    cases hy
    exact ⟨x, rfl, hunfolds⟩

theorem Unfolds.of_reaches {place : List (List Char)} (h : Unfolds F base v v')
    (hreaches : Reaches F base v place uri x) : ∃ x', Unfolds F uri x x' := by
  induction hreaches generalizing v' with
  | here => exact ⟨v', h⟩
  | step hown hstep _ ih =>
    obtain ⟨x', -, h'⟩ := Unfolds.child hown h hstep
    exact ih h'
  | cross hr hfollow _ ih => exact ih (h.of_cross hr hfollow)

/-- The places of an unfolding are those of the value, where references into other documents are
followed on the way. -/
theorem descend_iff_denotes (h : Unfolds F base v v') :
    v'.descend parts = .ok y ↔ Denotes F base v parts y := by
  constructor
  · induction parts generalizing base v v' with
    | nil =>
      intro hdescend
      exact ⟨base, v, .here base v, Except.ok.inj hdescend ▸ h⟩
    | cons part rest ih =>
      intro hdescend
      induction h with
      | @intro base v target found σ hopen hbelow ihbelow =>
        by_cases hown : IsOwn v
        · have h : Unfolds F base v (substitute σ v) := .intro target found σ hopen hbelow
          rw [Value.descend] at hdescend
          rcases hchild : (substitute σ v).child part with e | x' <;> rw [hchild] at hdescend
          · cases hdescend
          · obtain ⟨x, hx, hunfolds⟩ := h.of_child hown hchild
            obtain ⟨uri, z, hreaches, hz⟩ := ih hunfolds hdescend
            exact ⟨uri, z, .step hown hx hreaches, hz⟩
        · obtain ⟨entries, rfl, hne⟩ : ∃ entries, v = .object entries ∧
              externalRef? entries ≠ none := by
            simpa only [IsOwn, not_forall, exists_prop] using hown
          obtain ⟨ref, hr⟩ := Option.ne_none_iff_exists'.1 hne
          have hmem : ref ∈ externals (.object entries) := by simp [externals, hr]
          obtain ⟨uri, z, hreaches, hz⟩ := ihbelow ref hmem (by simpa [substitute, hr] using hdescend)
          exact ⟨uri, z, .cross hr (hopen ref hmem) hreaches, hz⟩
  · rintro ⟨uri, x, hreaches, hunfolds⟩
    induction hreaches generalizing v' with
    | here => exact congrArg Except.ok (h.unique hunfolds)
    | step hown hstep _ ih =>
      obtain ⟨x', hstep', h'⟩ := Unfolds.child hown h hstep
      rw [Value.descend, hstep']
      exact ih h' hunfolds
    | cross hr hfollow _ ih => exact ih (h.of_cross hr hfollow) hunfolds

/-- A reference that starts with `#` does not lead to another document. -/
theorem externalRef_of_local {entries : List (String × Value)} {ref : String}
    (href : entries.lookup "$ref" = some (.text ref)) (hlocal : beginsWith "#" ref) :
    externalRef? entries = none := by
  simp [externalRef?, href, isExternal, hlocal]

/-- A local reference stands in an unfolding where it stood. -/
theorem Unfolds.local_reference {entries : List (String × Value)} {ref : String}
    (h : Unfolds F base (.object entries) v') (href : entries.lookup "$ref" = some (.text ref))
    (hlocal : beginsWith "#" ref) :
    ∃ entries', v' = .object entries' ∧ entries'.lookup "$ref" = some (.text ref) := by
  obtain ⟨target, found, σ, -, -⟩ := h
  refine ⟨substituteEntries σ entries, ?_, ?_⟩
  · simp only [substitute, externalRef_of_local href hlocal]
  · rw [lookup_substituteEntries, href]
    rfl

/-- The value that a local reference leads to in a document, as it stands there. -/
def LeadsTo (doc : Value) (ref : String) (y : Value) : Prop :=
  ∃ fragment parts, ref.toList = '#' :: fragment ∧
    pointerParts? (percentDecode fragment) = some parts ∧ doc.descend parts = .ok y

/-- The unfolding of what a local reference leads to in a document, where references into other
documents are followed on the way. -/
def Means (F : Follow) (uri : String) (doc : Value) (ref : String) (y : Value) : Prop :=
  ∃ fragment parts, ref.toList = '#' :: fragment ∧
    pointerParts? (percentDecode fragment) = some parts ∧ Denotes F uri doc parts y

theorem leadsTo_iff_means {ref : String} (h : Unfolds F base v v') :
    LeadsTo v' ref y ↔ Means F base v ref y := by
  simp only [LeadsTo, Means, descend_iff_denotes h]

end Places

/-! ## Loading -/

theorem load_ok [Libraries] {w : World} {location : String} {spec : Spec} {l l' : Loader}
    (hl : l.From w) (h : (load w location).step l = (.ok spec, l')) :
    l'.From w ∧ ∃ uri root whole, locate w.current location = .ok uri ∧
      l'.documents.lookup uri = some root ∧ Unfolds l'.follow uri root whole ∧
      Spec.read whole = .ok spec := by
  unfold load at h
  rw [LoadM.step_bind, LoadM.step_ofExcept] at h
  rcases huri : locate w.current location with e | uri <;> rw [huri] at h
  · cases h
  · dsimp only at h
    rw [LoadM.step_bind] at h
    rcases hdoc : (document w uri).step l with ⟨e | root, l₁⟩ <;> rw [hdoc] at h
    · cases h
    · obtain ⟨hl₁, -⟩ := hl.document hdoc
      have hroot := (document_extends hdoc).2 root rfl
      obtain ⟨r, l₂, hstep, hl₂, hextends, hunfolds⟩ :=
        (inlineWithin_known w uri root hl₁).inlineExternal
      unfold describe at h
      dsimp only at h
      rw [LoadM.step_bind, hstep] at h
      cases r with
      | error e => cases h
      | ok whole =>
        dsimp only at h
        split at h
        · cases h
        · obtain ⟨hspec, rfl⟩ := Prod.mk.inj h
          exact ⟨hl₂, uri, root, whole, rfl, hextends _ _ hroot, hunfolds whole rfl, hspec⟩

/-- The document of a place is one that has been read. -/
theorem Reaches.known [Libraries] {l : Loader} {uri base : String} {root v : Value}
    {place : List (List Char)} (h : Reaches l.follow uri root place base v)
    (hroot : ∃ doc, l.documents.lookup uri = some doc) :
    ∃ doc, l.documents.lookup base = some doc := by
  induction h with
  | here => exact hroot
  | step _ _ _ ih => exact ih hroot
  | cross _ hfollow _ ih =>
    obtain ⟨-, doc, hdoc, -⟩ := Loader.follow_ok_iff.1 hfollow
    exact ih ⟨doc, hdoc⟩

/-- A local reference stays as it is where inlining puts it, and leads to what it leads to in the
document that is loaded, whatever document it comes from. So it keeps the meaning that it has in its
own document exactly if it has the same meaning in the document that is loaded. -/
theorem load_keeps_local_references [Libraries] {w : World} {location : String} {spec : Spec}
    {l l' : Loader} (hl : l.From w) (h : (load w location).step l = (.ok spec, l')) :
    l'.From w ∧ ∃ uri root whole, locate w.current location = .ok uri ∧
      l'.documents.lookup uri = some root ∧ Spec.read whole = .ok spec ∧
      ∀ place base entries ref, Reaches l'.follow uri root place base (.object entries) →
        entries.lookup "$ref" = some (.text ref) → beginsWith "#" ref →
        (∃ entries', whole.descend place = .ok (.object entries') ∧
          entries'.lookup "$ref" = some (.text ref)) ∧
        (∀ y, LeadsTo whole ref y ↔ Means l'.follow uri root ref y) ∧
        ∃ own, l'.documents.lookup base = some own ∧
          ((∀ y, LeadsTo whole ref y ↔ Means l'.follow base own ref y) ↔
            ∀ y, Means l'.follow uri root ref y ↔ Means l'.follow base own ref y) := by
  obtain ⟨hl', uri, root, whole, huri, hroot, hunfolds, hspec⟩ := load_ok hl h
  refine ⟨hl', uri, root, whole, huri, hroot, hspec, ?_⟩
  intro place base entries ref hreaches href hlocal
  have hleads : ∀ y, LeadsTo whole ref y ↔ Means l'.follow uri root ref y :=
    fun y => leadsTo_iff_means hunfolds
  obtain ⟨own, hown⟩ := hreaches.known ⟨root, hroot⟩
  refine ⟨?_, hleads, own, hown, forall_congr' fun y => by rw [hleads y]⟩
  obtain ⟨v', hv'⟩ := hunfolds.of_reaches hreaches
  obtain ⟨entries', rfl, href'⟩ := hv'.local_reference href hlocal
  exact ⟨entries', (descend_iff_denotes hunfolds).2 ⟨base, _, hreaches, hv'⟩, href'⟩

/-- A document with an owner of its own, and a pet from another document. -/
def petsRoot : Value := .object [("swagger", .text "2.0"), ("definitions", .object [
  ("Pet", .object [("$ref", .text "b.json#/definitions/Pet")]),
  ("Owner", .object [("type", .text "string")])])]

/-- The owner of the other document. -/
def petsOwner : Value := .object [("type", .text "object"),
  ("properties", .object [("name", .object [("type", .text "string")])])]

/-- The pet of the other document. It refers to the owner. -/
def petsPet : Value := .object [("type", .text "object"),
  ("properties", .object [("owner", .object [("$ref", .text "#/definitions/Owner")])])]

/-- The other document. -/
def petsOther : Value := .object [("definitions", .object [("Pet", petsPet), ("Owner", petsOwner)])]

/-- What comes out when the first document is loaded. -/
def petsWhole : Value := .object [("swagger", .text "2.0"), ("definitions", .object [
  ("Pet", petsPet), ("Owner", .object [("type", .text "string")])])]

/-- The world of both documents. -/
def petsWorld : World := .ofTexts [
  ("/w/a.json", "\x7b\"swagger\": \"2.0\", \"definitions\": \x7b" ++
    "\"Pet\": \x7b\"$ref\": \"b.json#/definitions/Pet\"\x7d, " ++
    "\"Owner\": \x7b\"type\": \"string\"\x7d\x7d\x7d"),
  ("/w/b.json", "\x7b\"definitions\": \x7b\"Pet\": \x7b\"type\": \"object\", " ++
    "\"properties\": \x7b\"owner\": \x7b\"$ref\": \"#/definitions/Owner\"\x7d\x7d\x7d, " ++
    "\"Owner\": \x7b\"type\": \"object\", " ++
    "\"properties\": \x7b\"name\": \x7b\"type\": \"string\"\x7d\x7d\x7d\x7d\x7d")]

theorem document_petsWorld : petsWorld.document "file:///w/b.json" = .ok petsOther := by
  decide +kernel

theorem follow_petsWorld : petsWorld.follow "file:///w/a.json" "b.json#/definitions/Pet" =
    .ok (⟨"file:///w/b.json", "/definitions/Pet"⟩, petsPet) :=
  World.follow_ok_iff.2 ⟨by decide +kernel, _, document_petsWorld, by decide +kernel⟩

theorem locate_petsWorld : locate petsWorld.current "/w/a.json" = .ok "file:///w/a.json" := by
  decide +kernel

/-- The first document can be loaded. What the loader then knows are the two documents. -/
theorem load_petsWorld : ∃ spec l', (load petsWorld "/w/a.json").step .empty = (.ok spec, l') ∧
    Spec.read petsWhole = .ok spec ∧
    l'.documents.lookup "file:///w/a.json" = some petsRoot ∧
    ∀ doc, l'.documents.lookup "file:///w/b.json" = some doc → doc = petsOther := by
  have hv : externals petsRoot = ["b.json#/definitions/Pet"] := by decide +kernel
  have hfound : externals petsPet = [] := by decide +kernel
  have hunfolds : Unfolds petsWorld.follow "file:///w/a.json" petsRoot petsWhole :=
    unfolds_of_single hv follow_petsWorld (unfolds_of_externals_eq_nil hfound)
  have hread : ((document petsWorld "file:///w/a.json").step .empty).1 = .ok petsRoot := by
    decide +kernel
  have hspec : (Spec.read petsWhole).isOk = true := by decide +kernel
  have hapart : PlacesApart fun uri => uri = "file:///w/a.json" ∨ uri = "file:///w/b.json" := by
    have ha : Url.parse "file:///w/a.json".toList =
        .ok ⟨"file".toList, [], "/w/a.json".toList, [], [], []⟩ := by decide +kernel
    have hb : Url.parse "file:///w/b.json".toList =
        .ok ⟨"file".toList, [], "/w/b.json".toList, [], [], []⟩ := by decide +kernel
    rintro uri uri' (rfl | rfl) (rfl | rfl) u u' hu hu' hkey
    · rw [Except.ok.inj (hu.symm.trans hu')]
    · cases ha.symm.trans hu
      cases hb.symm.trans hu'
      exact absurd hkey (by decide +kernel)
    · cases hb.symm.trans hu
      cases ha.symm.trans hu'
      exact absurd hkey (by decide +kernel)
    · rw [Except.ok.inj (hu.symm.trans hu')]
  rcases hdoc : (document petsWorld "file:///w/a.json").step .empty with ⟨r, l₁⟩
  rw [hdoc] at hread
  obtain rfl : r = _ := hread
  have hholds := ((Loader.holds_empty petsWorld _).document hapart (.inl rfl) hdoc).1
  have hasks : ∀ uri, Asks petsWorld "file:///w/a.json" petsRoot uri →
      uri = "file:///w/a.json" ∨ uri = "file:///w/b.json" := by
    rintro uri ⟨t, hopens, rfl⟩
    exact .inr (congrArg Target.uri (opens_of_single hv follow_petsWorld hfound hopens))
  obtain ⟨r, l₂, hstep, hl₂, hextends, hout⟩ := (inlineWithin_outcome
    (tellsApart_of_single hv follow_petsWorld hfound) (hholds.mono hasks)).inlineExternal
  obtain rfl : r = .ok petsWhole := hout.of_unfolds hunfolds
  rcases hresult : Spec.read petsWhole with e | spec
  · rw [hresult] at hspec
    cases hspec
  · refine ⟨spec, l₂, ?_, rfl, hextends _ _ ((document_extends hdoc).2 _ rfl), fun doc hknown => ?_⟩
    · unfold load describe
      rw [LoadM.step_bind, LoadM.step_ofExcept, locate_petsWorld]
      dsimp only
      rw [LoadM.step_bind, hdoc]
      dsimp only
      rw [LoadM.step_bind, hstep]
      dsimp only
      rw [if_neg (by decide +kernel), hresult]
      rfl
    · have hopens : Opens petsWorld "file:///w/a.json" petsRoot
          ⟨"file:///w/b.json", "/definitions/Pet"⟩ :=
        ⟨(_, petsRoot), [], _, [], .refl, hv, by simp, (World.follow_ok_iff.1 follow_petsWorld).1⟩
      have hoffered := hl₂.documents _ ⟨_, hopens, rfl⟩ doc hknown
      exact Except.ok.inj (hoffered.symm.trans document_petsWorld)

/-- The place of the pet's owner. -/
def petsPlace : List (List Char) :=
  ["definitions".toList, "Pet".toList, "properties".toList, "owner".toList]

theorem reaches_petsPlace {F : Follow} (hF : F "file:///w/a.json" "b.json#/definitions/Pet" =
    .ok (⟨"file:///w/b.json", "/definitions/Pet"⟩, petsPet)) :
    Reaches F "file:///w/a.json" petsRoot petsPlace "file:///w/b.json"
      (.object [("$ref", .text "#/definitions/Owner")]) :=
  .step (.object (by decide +kernel)) rfl (.step (.object (by decide +kernel)) rfl
    (.cross (by decide +kernel) hF (.step (.object (by decide +kernel)) rfl
      (.step (.object (by decide +kernel)) rfl (.here _ _)))))

/-- A loader that has loaded the first document has followed its reference into the other one. -/
theorem follow_petsRoot {spec : Spec} {l : Loader}
    (h : (load petsWorld "/w/a.json").step .empty = (.ok spec, l))
    (ha : l.documents.lookup "file:///w/a.json" = some petsRoot)
    (hb : ∀ doc, l.documents.lookup "file:///w/b.json" = some doc → doc = petsOther) :
    l.follow "file:///w/a.json" "b.json#/definitions/Pet" =
      .ok (⟨"file:///w/b.json", "/definitions/Pet"⟩, petsPet) := by
  obtain ⟨-, uri, root, whole, huri, hroot, hunfolds, -⟩ :=
    load_ok (Loader.from_empty petsWorld) h
  obtain rfl := Except.ok.inj (locate_petsWorld.symm.trans huri)
  obtain rfl := Option.some.inj (ha.symm.trans hroot)
  obtain ⟨target, found, σ, hopen, -⟩ := hunfolds
  have hfollow := hopen "b.json#/definitions/Pet" (by decide +kernel)
  have ht : Target.ofReference "file:///w/a.json" "b.json#/definitions/Pet" =
      .ok ⟨"file:///w/b.json", "/definitions/Pet"⟩ := by decide +kernel
  rcases hdoc : l.documents.lookup "file:///w/b.json" with _ | doc
  · simp [Loader.follow, ht, hdoc, bind, Except.bind, fail] at hfollow
  · obtain rfl := hb doc hdoc
    exact Loader.follow_ok_iff.2 ⟨ht, petsOther, hdoc, by decide +kernel⟩

theorem load_keeps_local_references_pets : ∃ spec l' whole,
    (load petsWorld "/w/a.json").step .empty = (.ok spec, l') ∧ l'.From petsWorld ∧
      Spec.read whole = .ok spec ∧
      Reaches l'.follow "file:///w/a.json" petsRoot petsPlace "file:///w/b.json"
        (.object [("$ref", .text "#/definitions/Owner")]) ∧
      (∃ entries', whole.descend petsPlace = .ok (.object entries') ∧
        entries'.lookup "$ref" = some (.text "#/definitions/Owner")) ∧
      (∀ y, LeadsTo whole "#/definitions/Owner" y ↔
        Means l'.follow "file:///w/a.json" petsRoot "#/definitions/Owner" y) ∧
      l'.documents.lookup "file:///w/b.json" = some petsOther ∧
      ((∀ y, LeadsTo whole "#/definitions/Owner" y ↔
          Means l'.follow "file:///w/b.json" petsOther "#/definitions/Owner" y) ↔
        ∀ y, Means l'.follow "file:///w/a.json" petsRoot "#/definitions/Owner" y ↔
          Means l'.follow "file:///w/b.json" petsOther "#/definitions/Owner" y) := by
  obtain ⟨spec, l', h, -, ha, hb⟩ := load_petsWorld
  obtain ⟨hl', uri, root, whole, huri, hroot, hspec, hkeeps⟩ :=
    load_keeps_local_references (Loader.from_empty petsWorld) h
  obtain rfl := Except.ok.inj (locate_petsWorld.symm.trans huri)
  obtain rfl := Option.some.inj (ha.symm.trans hroot)
  have hreaches := reaches_petsPlace (follow_petsRoot h ha hb)
  obtain ⟨hstays, hleads, own, hown, hkept⟩ := hkeeps _ _ _ _ hreaches rfl (by decide +kernel)
  obtain rfl := hb own hown
  exact ⟨spec, l', whole, h, hl', hspec, hreaches, hstays, hleads, hown, hkept⟩

/-- A local reference of another document does not lead to the same once it has been inlined: the
pet refers to an owner of its own document, and comes to refer to the owner of the document that is
loaded. -/
theorem load_redirects_local_references :
    (∃ spec l', (load petsWorld "/w/a.json").step .empty = (.ok spec, l') ∧
      Spec.read petsWhole = .ok spec) ∧
    Reaches petsWorld.follow "file:///w/a.json" petsRoot
      ["definitions".toList, "Pet".toList, "properties".toList, "owner".toList]
      "file:///w/b.json" (.object [("$ref", .text "#/definitions/Owner")]) ∧
    petsWorld.document "file:///w/b.json" = .ok petsOther ∧
    Means petsWorld.follow "file:///w/b.json" petsOther "#/definitions/Owner" petsOwner ∧
    LeadsTo petsWhole "#/definitions/Owner" (.object [("type", .text "string")]) ∧
    ¬ LeadsTo petsWhole "#/definitions/Owner" petsOwner := by
  have hparts : pointerParts? (percentDecode "/definitions/Owner".toList) =
      some ["definitions".toList, "Owner".toList] := by decide +kernel
  have hdescend : petsWhole.descend ["definitions".toList, "Owner".toList] =
      .ok (.object [("type", .text "string")]) := by decide +kernel
  obtain ⟨spec, l', h, hspec, -⟩ := load_petsWorld
  refine ⟨⟨spec, l', h, hspec⟩, reaches_petsPlace follow_petsWorld, document_petsWorld, ?_,
    ⟨_, _, rfl, hparts, hdescend⟩, ?_⟩
  · have hreaches : Reaches petsWorld.follow "file:///w/b.json" petsOther
        ["definitions".toList, "Owner".toList] "file:///w/b.json" petsOwner :=
      .step (.object (by decide +kernel)) rfl (.step (.object (by decide +kernel)) rfl (.here _ _))
    exact ⟨_, _, rfl, hparts, _, _, hreaches, unfolds_of_externals_eq_nil (by decide +kernel)⟩
  · rintro ⟨fragment, parts, hfragment, hparts', hdescend'⟩
    have heq : "/definitions/Owner".toList = fragment := (List.cons.inj hfragment).2
    rw [← heq, hparts] at hparts'
    rw [← Option.some.inj hparts', hdescend] at hdescend'
    exact absurd hdescend' (by decide +kernel)

end ApiProto.Source
