import ApiProto.Proofs.Unfolding

/-!
# What a loader knows

A loader remembers texts by the normal forms of their URLs and documents by their URIs. All that it
remembers has been read, and as long as normal forms tell places apart, a document that it remembers
is the one that would be read afresh.

* `LoadM.step_bind`, … — what a composed step of loading does.
* `document_cases` — what asking for a document does.
* `document_extends` — what is known stays known.
* `Loader.From` — all that a loader knows has been read; `Loader.From.document` keeps it so.
* `Loader.Holds` — a loader knows of given URIs only what is there; `Loader.Holds.document`.
-/

namespace ApiProto.Source

open Uri

/-! ## Steps of loading -/

namespace LoadM

variable {α β : Type} {l : Loader}

theorem step_bind (m : LoadM α) (f : α → LoadM β) (l : Loader) :
    step (m >>= f) l = match m.step l with
      | (.ok a, l') => (f a).step l'
      | (.error e, l') => (.error e, l') := by
  show ExceptT.bindCont f (m.step l).1 (m.step l).2 = _
  rcases m.step l with ⟨e | a, l'⟩ <;> rfl

@[simp] theorem step_pure (a : α) : step (pure a) l = (.ok a, l) := rfl

@[simp] theorem step_ofExcept (r : Except Error α) : step (ofExcept r) l = (r, l) := rfl

@[simp] theorem step_get_bind (f : Loader → LoadM α) : step (get >>= f) l = (f l).step l := rfl

@[simp] theorem step_modify_bind (k : Loader → Loader) (f : Unit → LoadM α) :
    step (modify k >>= f) l = (f ()).step (k l) := rfl

end LoadM

/-- The key under which a text is remembered: the normal form of its URL. -/
def textKey (u : Url) : String := String.ofList u.text

theorem readPlace_step (w : World) (place : Place) (l : Loader) :
    ∃ opened, (readPlace w place).step l = (.ok (w.look place), { l with opened := opened }) := by
  cases place <;> exact ⟨_, rfl⟩

/-- What asking for a text does. -/
theorem fetch_cases {w : World} {uri : String} {l l' : Loader} {r : Except Error String}
    (h : (fetch w uri).step l = (r, l')) : l'.documents = l.documents ∧
      ((∃ e, Url.parse uri.toList = .error e ∧ r = .error e ∧ l'.contents = l.contents) ∨
        ∃ u, Url.parse uri.toList = .ok u ∧
          ((∃ text, l.contents.lookup (textKey u) = some text ∧ r = .ok text ∧
              l'.contents = l.contents) ∨
            l.contents.lookup (textKey u) = none ∧ r = w.textOf u ∧
              ((∃ e, r = .error e ∧ l'.contents = l.contents) ∨
                ∃ text, w.look (placeOf u) = .ok text ∧ r = .ok text ∧
                  l'.contents = insertEntry (textKey u) text l.contents))) := by
  unfold fetch at h
  rw [LoadM.step_bind, LoadM.step_ofExcept] at h
  rcases hparse : Url.parse uri.toList with e | u <;> rw [hparse] at h
  · obtain ⟨rfl, rfl⟩ := Prod.mk.inj h
    exact ⟨rfl, .inl ⟨e, rfl, rfl, rfl⟩⟩
  · dsimp only at h
    rw [LoadM.step_get_bind] at h
    rcases hknown : l.contents.lookup (String.ofList u.text) with _ | text <;> rw [hknown] at h
    · dsimp only at h
      obtain ⟨opened, hread⟩ := readPlace_step w (placeOf u) l
      rw [LoadM.step_bind, hread] at h
      rcases hlook : w.look (placeOf u) with failure | text <;> rw [hlook] at h
      · obtain ⟨rfl, rfl⟩ := Prod.mk.inj h
        refine ⟨rfl, .inr ⟨u, rfl, .inr ⟨hknown, ?_, .inl ⟨_, rfl, rfl⟩⟩⟩⟩
        rw [World.textOf, hlook]
        rfl
      · obtain ⟨rfl, rfl⟩ := Prod.mk.inj h
        refine ⟨rfl, .inr ⟨u, rfl, .inr ⟨hknown, ?_, .inr ⟨text, hlook, rfl, rfl⟩⟩⟩⟩
        rw [World.textOf, hlook]
        rfl
    · obtain ⟨rfl, rfl⟩ := Prod.mk.inj h
      exact ⟨rfl, .inr ⟨u, rfl, .inl ⟨text, hknown, rfl, rfl⟩⟩⟩

/-- What asking for a document does: it is known, or its text is asked for and decoded. -/
theorem document_cases [Libraries] {w : World} {uri : String} {l l' : Loader}
    {r : Except Error Value} (h : (document w uri).step l = (r, l')) :
    (∃ doc, l.documents.lookup uri = some doc ∧ r = .ok doc ∧ l' = l) ∨
      ∃ fetched l₁, (fetch w uri).step l = (fetched, l₁) ∧ l'.contents = l₁.contents ∧
        ((∃ e, r = .error e ∧ l'.documents = l.documents ∧
            (fetched = .error e ∨ ∃ text, fetched = .ok text ∧ decode text uri = .error e)) ∨
          ∃ text doc, fetched = .ok text ∧ decode text uri = .ok doc ∧ r = .ok doc ∧
            l'.documents = insertEntry uri doc l.documents) := by
  unfold document at h
  rw [LoadM.step_get_bind] at h
  rcases hknown : l.documents.lookup uri with _ | doc <;> rw [hknown] at h
  · dsimp only at h
    rcases hfetch : (fetch w uri).step l with ⟨e | text, l₁⟩
    · rw [LoadM.step_bind, hfetch] at h
      obtain ⟨rfl, rfl⟩ := Prod.mk.inj h
      exact .inr ⟨_, _, rfl, rfl, .inl ⟨e, rfl, (fetch_cases hfetch).1, .inl rfl⟩⟩
    · rw [LoadM.step_bind, hfetch] at h
      dsimp only at h
      rw [LoadM.step_bind, LoadM.step_ofExcept] at h
      refine .inr ⟨_, _, rfl, ?_⟩
      rcases hdecode : decode text uri with e | doc <;> rw [hdecode] at h
      · obtain ⟨rfl, rfl⟩ := Prod.mk.inj h
        exact ⟨rfl, .inl ⟨e, rfl, (fetch_cases hfetch).1, .inr ⟨text, rfl, hdecode⟩⟩⟩
      · obtain ⟨rfl, rfl⟩ := Prod.mk.inj h
        refine ⟨rfl, .inr ⟨text, doc, rfl, hdecode, rfl, ?_⟩⟩
        show insertEntry uri doc l₁.documents = _
        rw [(fetch_cases hfetch).1]
  · obtain ⟨rfl, rfl⟩ := Prod.mk.inj h
    exact .inl ⟨doc, rfl, rfl, rfl⟩

/-! ## What is known stays known -/

/-- A loader knows all documents that another one knows. -/
def Loader.Extends (l l' : Loader) : Prop :=
  ∀ uri doc, l.documents.lookup uri = some doc → l'.documents.lookup uri = some doc

theorem Loader.Extends.refl (l : Loader) : l.Extends l := fun _ _ h => h

theorem Loader.Extends.trans {l₁ l₂ l₃ : Loader} (h : l₁.Extends l₂) (h' : l₂.Extends l₃) :
    l₁.Extends l₃ := fun uri doc hlookup => h' uri doc (h uri doc hlookup)

/-- Documents that are known are not forgotten, and a document that was asked for is known. -/
theorem document_extends [Libraries] {w : World} {uri : String} {l l' : Loader}
    {r : Except Error Value} (h : (document w uri).step l = (r, l')) :
    l.Extends l' ∧ ∀ doc, r = .ok doc → l'.documents.lookup uri = some doc := by
  by_cases hknown : ∃ doc, l.documents.lookup uri = some doc
  · obtain ⟨doc, hlookup⟩ := hknown
    have hsame : r = .ok doc ∧ l' = l := by
      unfold document at h
      rw [LoadM.step_get_bind, hlookup] at h
      obtain ⟨rfl, rfl⟩ := Prod.mk.inj h
      exact ⟨rfl, rfl⟩
    obtain ⟨rfl, rfl⟩ := hsame
    exact ⟨.refl _, fun doc' heq => Except.ok.inj heq ▸ hlookup⟩
  · rcases document_cases h with ⟨doc, hlookup, -, -⟩ | ⟨_, l₁, -, -, hcases⟩
    · exact absurd ⟨doc, hlookup⟩ hknown
    · rcases hcases with ⟨e, rfl, hdocuments, -⟩ | ⟨_, doc, -, -, rfl, hdocuments⟩
      · exact ⟨fun _ _ hlookup => hdocuments ▸ hlookup, nofun⟩
      · refine ⟨fun uri' doc' hlookup => ?_, fun doc' heq => ?_⟩
        · rw [hdocuments, lookup_insertEntry, if_neg]
          · exact hlookup
          · rintro rfl
            exact hknown ⟨doc', hlookup⟩
        · rw [hdocuments, lookup_insertEntry, if_pos rfl, Except.ok.inj heq]

/-! ## All that is known has been read -/

/-- A text has been read at a place whose URL has the normal form `key`. -/
def World.Gives (w : World) (key text : String) : Prop :=
  ∃ cs u, Url.parse cs = .ok u ∧ textKey u = key ∧ w.look (placeOf u) = .ok text

variable [Libraries]

/-- A document has been decoded at a URI, from a text that was remembered under its normal form. -/
def World.Offers (w : World) (uri : String) (doc : Value) : Prop :=
  ∃ u text, Url.parse uri.toList = .ok u ∧ w.Gives (textKey u) text ∧ decode text uri = .ok doc

/-- All that a loader knows has been read. -/
structure Loader.From (w : World) (l : Loader) : Prop where
  contents : ∀ key text, l.contents.lookup key = some text → w.Gives key text
  documents : ∀ uri doc, l.documents.lookup uri = some doc → w.Offers uri doc

theorem Loader.from_empty (w : World) : Loader.empty.From w := ⟨nofun, nofun⟩

theorem Loader.From.fetch {w : World} {uri : String} {l l' : Loader} {r : Except Error String}
    (hl : l.From w) (h : (fetch w uri).step l = (r, l')) : l'.From w ∧
      ∀ text, r = .ok text → ∃ u, Url.parse uri.toList = .ok u ∧ w.Gives (textKey u) text := by
  obtain ⟨hdocuments, hcases⟩ := fetch_cases h
  have hknown : l'.contents = l.contents → l'.From w := fun hcontents =>
    ⟨hcontents ▸ hl.contents, hdocuments ▸ hl.documents⟩
  rcases hcases with ⟨e, -, rfl, hcontents⟩ | ⟨u, hu, hread⟩
  · exact ⟨hknown hcontents, nofun⟩
  · rcases hread with ⟨text, hlookup, rfl, hcontents⟩ |
      ⟨-, -, ⟨e, rfl, hcontents⟩ | ⟨text, hlook, rfl, hcontents⟩⟩
    · refine ⟨hknown hcontents, fun text' heq => ⟨u, hu, ?_⟩⟩
      exact Except.ok.inj heq ▸ hl.contents _ _ hlookup
    · exact ⟨hknown hcontents, nofun⟩
    · have hgives : w.Gives (textKey u) text := ⟨_, u, hu, rfl, hlook⟩
      refine ⟨⟨fun key text' hlookup => ?_, hdocuments ▸ hl.documents⟩,
        fun text' heq => ⟨u, hu, Except.ok.inj heq ▸ hgives⟩⟩
      rw [hcontents, lookup_insertEntry] at hlookup
      split at hlookup
      · next heq => exact heq ▸ Option.some.inj hlookup ▸ hgives
      · exact hl.contents key text' hlookup

/-- Asking for a document gives one that has been read, and all that is known has been read. -/
theorem Loader.From.document {w : World} {uri : String} {l l' : Loader} {r : Except Error Value}
    (hl : l.From w) (h : (document w uri).step l = (r, l')) :
    l'.From w ∧ ∀ doc, r = .ok doc → w.Offers uri doc := by
  rcases document_cases h with ⟨doc, hlookup, rfl, rfl⟩ | ⟨fetched, l₁, hfetch, hcontents, hcases⟩
  · exact ⟨hl, fun doc' heq => Except.ok.inj heq ▸ hl.documents uri doc hlookup⟩
  · obtain ⟨hl₁, hgiven⟩ := hl.fetch hfetch
    rcases hcases with ⟨e, rfl, hdocuments, -⟩ | ⟨text, doc, rfl, hdecode, rfl, hdocuments⟩
    · exact ⟨⟨hcontents ▸ hl₁.contents, hdocuments ▸ hl.documents⟩, nofun⟩
    · obtain ⟨u, hu, hgives⟩ := hgiven text rfl
      have hoffers : w.Offers uri doc := ⟨u, text, hu, hgives, hdecode⟩
      refine ⟨⟨hcontents ▸ hl₁.contents, fun uri' doc' hlookup => ?_⟩,
        fun doc' heq => Except.ok.inj heq ▸ hoffers⟩
      rw [hdocuments, lookup_insertEntry] at hlookup
      split at hlookup
      · next heq => exact heq ▸ Option.some.inj hlookup ▸ hoffers
      · exact hl.documents uri' doc' hlookup

theorem World.document_of_textOf {w : World} {uri : String} {u : Url}
    (hu : Url.parse uri.toList = .ok u) :
    w.document uri = (w.textOf u).bind fun text => decode text uri := by
  unfold document
  rw [hu]
  rfl

/-- A document that can be read has been offered. -/
theorem World.offers_of_document {w : World} {uri : String} {doc : Value}
    (h : w.document uri = .ok doc) : w.Offers uri doc := by
  rcases hu : Url.parse uri.toList with e | u
  · unfold document at h
    rw [hu] at h
    cases h
  · rw [document_of_textOf hu, World.textOf] at h
    rcases ht : w.look (placeOf u) with e | text <;> rw [ht] at h
    · cases h
    · exact ⟨u, text, hu, ⟨_, u, hu, rfl, ht⟩, h⟩

/-! ## What is known is what is there -/

/-- No two of some URIs have the same normal form and different places. -/
def PlacesApart (uris : String → Prop) : Prop :=
  ∀ uri uri', uris uri → uris uri' → ∀ u u', Url.parse uri.toList = .ok u →
    Url.parse uri'.toList = .ok u' → textKey u = textKey u' → placeOf u = placeOf u'

/-- A loader knows of some URIs only what is there. -/
structure Loader.Holds (w : World) (uris : String → Prop) (l : Loader) : Prop where
  contents : ∀ uri, uris uri → ∀ u, Url.parse uri.toList = .ok u →
    ∀ text, l.contents.lookup (textKey u) = some text → w.look (placeOf u) = .ok text
  documents : ∀ uri, uris uri → ∀ doc, l.documents.lookup uri = some doc →
    w.document uri = .ok doc

theorem Loader.Holds.mono {w : World} {uris uris' : String → Prop} {l : Loader}
    (h : l.Holds w uris) (hle : ∀ uri, uris' uri → uris uri) : l.Holds w uris' :=
  ⟨fun uri huri => h.contents uri (hle uri huri), fun uri huri => h.documents uri (hle uri huri)⟩

theorem Loader.holds_empty (w : World) (uris : String → Prop) : Loader.empty.Holds w uris :=
  ⟨nofun, nofun⟩

/-- Asking for a text gives the one that is there. -/
theorem Loader.Holds.fetch {w : World} {uris : String → Prop} {uri : String} {l l' : Loader}
    {r : Except Error String} (hapart : PlacesApart uris) (hl : l.Holds w uris) (huri : uris uri)
    (h : (fetch w uri).step l = (r, l')) :
    l'.Holds w uris ∧ r = (Url.parse uri.toList).bind w.textOf := by
  obtain ⟨hdocuments, hcases⟩ := fetch_cases h
  have hknown : l'.contents = l.contents → l'.Holds w uris := fun hcontents =>
    ⟨hcontents ▸ hl.contents, hdocuments ▸ hl.documents⟩
  rcases hcases with ⟨e, hu, rfl, hcontents⟩ | ⟨u, hu, hread⟩
  · exact ⟨hknown hcontents, by rw [hu]; rfl⟩
  · rw [hu]
    rcases hread with ⟨text, hlookup, rfl, hcontents⟩ |
      ⟨-, hr, ⟨e, -, hcontents⟩ | ⟨text, hlook, -, hcontents⟩⟩
    · refine ⟨hknown hcontents, ?_⟩
      show _ = w.textOf u
      rw [World.textOf, hl.contents uri huri u hu text hlookup]
      rfl
    · exact ⟨hknown hcontents, hr⟩
    · refine ⟨⟨fun uri' huri' u' hu' text' hlookup => ?_, hdocuments ▸ hl.documents⟩, hr⟩
      rw [hcontents, lookup_insertEntry] at hlookup
      split at hlookup
      · next heq =>
        rw [hapart uri' uri huri' huri u' u hu' hu heq, hlook, Option.some.inj hlookup]
      · exact hl.contents uri' huri' u' hu' text' hlookup

/-- Asking for a document gives the one that is there. -/
theorem Loader.Holds.document {w : World} {uris : String → Prop} {uri : String} {l l' : Loader}
    {r : Except Error Value} (hapart : PlacesApart uris) (hl : l.Holds w uris) (huri : uris uri)
    (h : (document w uri).step l = (r, l')) : l'.Holds w uris ∧ r = w.document uri := by
  rcases document_cases h with ⟨doc, hlookup, rfl, rfl⟩ | ⟨fetched, l₁, hfetch, hcontents, hcases⟩
  · exact ⟨hl, (hl.documents uri huri doc hlookup).symm⟩
  · obtain ⟨hl₁, hfetched⟩ := hl.fetch hapart huri hfetch
    have hdocument : w.document uri = fetched.bind fun text => decode text uri := by
      rw [hfetched]
      rcases hu : Url.parse uri.toList with e | u
      · unfold World.document
        rw [hu]
        rfl
      · exact World.document_of_textOf hu
    rcases hcases with ⟨e, rfl, hdocuments, hfault⟩ | ⟨text, doc, rfl, hdecode, rfl, hdocuments⟩
    · refine ⟨⟨hcontents ▸ hl₁.contents, hdocuments ▸ hl.documents⟩, ?_⟩
      rcases hfault with rfl | ⟨text, rfl, hdecode⟩
      · exact hdocument.symm
      · exact hdecode.symm.trans hdocument.symm
    · have hthere : w.document uri = .ok doc := hdocument.trans hdecode
      refine ⟨⟨hcontents ▸ hl₁.contents, fun uri' huri' doc' hlookup => ?_⟩, hthere.symm⟩
      rw [hdocuments, lookup_insertEntry] at hlookup
      split at hlookup
      · next heq => rw [heq, hthere, Option.some.inj hlookup]
      · exact hl.documents uri' huri' doc' hlookup

end ApiProto.Source
