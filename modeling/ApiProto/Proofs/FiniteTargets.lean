import ApiProto.Proofs.Reading
import ApiProto.Proofs.UrlText
import Mathlib.Data.FinEnum
import Mathlib.Data.Finite.Prod
import Mathlib.Data.Set.Card
import Mathlib.Data.Set.Finite.List

/-!
# Finitely many targets

References are read from documents, and their targets are seen from the locations of documents. A
world has finitely many texts, but one text can be read from infinitely many locations, since the
query of a file's URL counts for nothing. Still only finitely many targets can be met from one
document, because a location seen from a file forgets the query.

* `Value.longestText` — bounds the references in a value and in all its parts.
* `Locations.closed` — a finite set of locations that holds all those of documents that are met.
* `finite_targets` — the targets that can be met are finitely many.
* `met_induction` — induction on the targets that have not been met yet.
-/

namespace ApiProto

namespace Value

mutual

/-- The length of the longest text in a value. -/
def longestText : Value → Nat
  | .text s => s.length
  | .list items => longestTextOfItems items
  | .object entries => longestTextOfEntries entries
  | _ => 0

/-- The same for the items of a list. -/
def longestTextOfItems : List Value → Nat
  | [] => 0
  | v :: rest => max v.longestText (longestTextOfItems rest)

/-- The same for the entries of an object. -/
def longestTextOfEntries : List (String × Value) → Nat
  | [] => 0
  | (_, v) :: rest => max v.longestText (longestTextOfEntries rest)

end

theorem longestText_le_of_mem {items : List Value} {v : Value} (h : v ∈ items) :
    v.longestText ≤ longestTextOfItems items := by
  induction items with
  | nil => cases h
  | cons item rest ih =>
    rw [longestTextOfItems]
    rcases List.mem_cons.1 h with rfl | h
    · exact Nat.le_max_left ..
    · exact Nat.le_trans (ih h) (Nat.le_max_right ..)

theorem longestText_le_of_lookup {entries : List (String × Value)} {key : String} {v : Value}
    (h : entries.lookup key = some v) : v.longestText ≤ longestTextOfEntries entries := by
  induction entries with
  | nil => cases h
  | cons entry rest ih =>
    obtain ⟨k, value⟩ := entry
    rw [longestTextOfEntries]
    rw [List.lookup_cons] at h
    split at h
    · cases h
      exact Nat.le_max_left ..
    · exact Nat.le_trans (ih h) (Nat.le_max_right ..)

theorem longestText_le_of_below {v w : Value} (h : v.Below w) :
    w.longestText ≤ v.longestText := by
  cases h with
  | entry hlookup => exact longestText_le_of_lookup hlookup
  | item hmem => exact longestText_le_of_mem hmem
  | @character s c hc =>
    have hpos := List.length_pos_of_mem hc
    have hlen : s.toList.length = s.length := String.length_toList
    simp only [longestText, String.length_singleton]
    omega
  | byte => exact Nat.zero_le _

/-- The texts in a part of a value are no longer than those in the value. -/
theorem longestText_le_of_contains {v w : Value} (h : v.Contains w) :
    w.longestText ≤ v.longestText := by
  induction h with
  | self v => exact Nat.le_refl _
  | inner hbelow _ ih => exact Nat.le_trans ih (longestText_le_of_below hbelow)
  | pastEnd v => exact Nat.zero_le _

end Value

namespace Source

open Uri Text

theorem Target.longestText_find [Libraries] {t : Target} {doc found : Value}
    (h : t.find doc = .ok found) : found.longestText ≤ doc.longestText := by
  unfold find at h
  split at h
  · exact Except.ok.inj h ▸ Nat.le_refl _
  · split at h
    · next hfound =>
      cases h
      exact Value.longestText_le_of_contains (Libraries.contains_of_lookUp hfound)
    all_goals cases h

theorem length_le_of_externalRef {entries : List (String × Value)} {ref : String}
    (h : externalRef? entries = some ref) :
    ref.length ≤ Value.longestTextOfEntries entries := by
  unfold externalRef? at h
  split at h
  · next text hlookup =>
    split at h
    · cases h
      exact Value.longestText_le_of_lookup hlookup
    · cases h
  · cases h

mutual

theorem length_le_of_mem_externals : ∀ {v : Value} {ref : String}, ref ∈ externals v →
    ref.length ≤ v.longestText
  | .list items, ref, h => by
    have hitems : ref ∈ externalsOfItems items := by simpa [externals] using h
    exact length_le_of_mem_externalsOfItems hitems
  | .object entries, ref, h => by
    rcases hr : externalRef? entries with _ | ref'
    · simp only [externals, hr] at h
      exact length_le_of_mem_externalsOfEntries h
    · simp only [externals, hr, List.mem_singleton] at h
      exact h ▸ length_le_of_externalRef hr
  | .null, _, h | .bool _, _, h | .int _, _, h | .float _, _, h | .text _, _, h | .date _, _, h
  | .timestamp _, _, h | .bytes _, _, h | .pastEnd _, _, h => by simp [externals] at h

theorem length_le_of_mem_externalsOfItems : ∀ {items : List Value} {ref : String},
    ref ∈ externalsOfItems items → ref.length ≤ Value.longestTextOfItems items
  | v :: rest, ref, h => by
    rw [Value.longestTextOfItems]
    rcases List.mem_append.1 h with h | h
    · exact Nat.le_trans (length_le_of_mem_externals h) (Nat.le_max_left ..)
    · exact Nat.le_trans (length_le_of_mem_externalsOfItems h) (Nat.le_max_right ..)

theorem length_le_of_mem_externalsOfEntries : ∀ {entries : List (String × Value)} {ref : String},
    ref ∈ externalsOfEntries entries → ref.length ≤ Value.longestTextOfEntries entries
  | (_, v) :: rest, ref, h => by
    rw [Value.longestTextOfEntries]
    rcases List.mem_append.1 h with h | h
    · exact Nat.le_trans (length_le_of_mem_externals h) (Nat.le_max_left ..)
    · exact Nat.le_trans (length_le_of_mem_externalsOfEntries h) (Nat.le_max_right ..)

end

/-! ## The size of a world -/

theorem World.exists_lookup {w : World} {place : Place} {text : String}
    (h : w.look place = .ok text) : ∃ name, w.texts.lookup name = some text := by
  have hread : ∀ {name usual}, (w.read name usual).mapError LoadFailure.unavailable = .ok text →
      w.texts.lookup name = some text := by
    intro name usual h
    unfold read at h
    split at h
    · next hlookup => exact Except.ok.inj h ▸ hlookup
    · cases h
  cases place with
  | page url => exact ⟨url, hread h⟩
  | file path => exact ⟨path, hread h⟩
  | unsupported scheme => cases h

section Size

variable [Libraries]

/-- A bound for the places of a world's texts, and for the texts inside the values that they
decode to. -/
structure World.Within (w : World) (n : Nat) : Prop where
  place : ∀ place text, w.texts.lookup place = some text → place.length ≤ n
  value : ∀ place text, w.texts.lookup place = some text → ∀ uri doc, decode text uri = .ok doc →
    doc.longestText ≤ n

theorem World.Within.mono {w : World} {n m : Nat} (h : w.Within n) (hle : n ≤ m) : w.Within m :=
  ⟨fun place text hlookup => (h.place place text hlookup).trans hle,
    fun place text hlookup uri doc hdecode =>
      (h.value place text hlookup uri doc hdecode).trans hle⟩

/-- A text decodes to at most two values. -/
theorem decode_ok {text uri : String} {doc : Value} (h : decode text uri = .ok doc) :
    Json.read? text = some doc ∨ (Libraries.readYaml text).map textKeyed = .ok doc := by
  have hyaml : decodeYaml text uri = .ok doc →
      (Libraries.readYaml text).map textKeyed = .ok doc := by
    intro h
    unfold decodeYaml at h
    split at h
    · next hread => rw [hread, ← Except.ok.inj h, Except.map]
    all_goals cases h
  unfold decode at h
  rcases hformat : Format.ofLocation uri with e | format <;> rw [hformat] at h
  · cases h
  · dsimp only [bind, Except.bind] at h
    split at h
    · exact .inr (hyaml h)
    · cases h
    · exact .inr (hyaml h)
    · next hread => exact .inl (Except.ok.inj h ▸ hread)

/-- The length of the longest text in the values of a text. -/
def longestDecoded (text : String) : Nat :=
  max (((Json.read? text).map Value.longestText).getD 0)
    (match (Libraries.readYaml text).map textKeyed with
    | .ok v => v.longestText
    | .error _ => 0)

theorem World.exists_within (w : World) : ∃ n, w.Within n := by
  obtain ⟨n, hn⟩ := ((List.finite_toSet w.texts).image fun entry =>
    max entry.1.length (longestDecoded entry.2)).bddAbove
  have hbound : ∀ place text, w.texts.lookup place = some text →
      max place.length (longestDecoded text) ≤ n := by
    intro place text h
    obtain ⟨before, after, heq, -⟩ := List.lookup_eq_some_iff.1 h
    exact hn ⟨(place, text), by simp [heq], rfl⟩
  refine ⟨n, fun place text h => Nat.le_trans (Nat.le_max_left ..) (hbound place text h),
    fun place text h uri doc hdecode => Nat.le_trans ?_ (hbound place text h)⟩
  refine Nat.le_trans ?_ (Nat.le_max_right ..)
  unfold longestDecoded
  rcases decode_ok hdecode with hread | hread
  · rw [hread]
    exact Nat.le_max_left ..
  · rw [hread]
    exact Nat.le_max_right ..

end Size

/-! ## Locations of documents -/

/-- What is known of the URL of a document: it is as short as the places of texts, or it is the URL
of a file, with a short path. -/
theorem World.Within.url_short [Libraries] {w : World} {n : Nat} (hw : w.Within n) {uri : String}
    {doc : Value} (h : w.Offers uri doc) : ∃ u, Url.parse uri.toList = .ok u ∧
      u.path.length ≤ 13 * n + 9 ∧ (u.text.length ≤ n ∨ u.scheme = "file".toList) := by
  obtain ⟨u, text, hu, ⟨cs, u₀, hu₀, hkey, hlook⟩, -⟩ := h
  have htext : u₀.text = u.text := String.ofList_injective hkey
  have hshort : ∀ {place reason},
      (w.read place reason).mapError LoadFailure.unavailable = .ok text → place.length ≤ n := by
    intro place reason hread
    unfold read at hread
    split at hread
    · next hlookup => exact hw.place _ _ hlookup
    · cases hread
  have hpath : u.path.length ≤ u.stem.length := by
    have := u.length_parts_le_stem
    omega
  have hstem : u.stem.length = u₀.stem.length := by
    rw [← Url.takeWhile_text (Url.read_of_parse hu), ← Url.takeWhile_text (Url.read_of_parse hu₀),
      htext]
  have hwhole : u₀.text.length ≤ n → u.path.length ≤ 13 * n + 9 ∧ u.text.length ≤ n := by
    intro hlen
    have := (u.partsWithin_text).path
    rw [htext] at hlen
    exact ⟨by omega, hlen⟩
  refine ⟨u, hu, ?_⟩
  unfold placeOf at hlook
  dsimp only at hlook
  split at hlook
  · obtain ⟨h₁, h₂⟩ := hwhole (by simpa using hshort hlook)
    exact ⟨h₁, .inl h₂⟩
  · split at hlook
    · next hfile =>
      have hscheme : u₀.scheme = "file".toList := by rw [← hfile, String.toList_ofList]
      have hplace : (u₀.authority ++ percentDecode u₀.path).length ≤ n := by
        simpa using hshort hlook
      have hdecode := length_le_percentDecode u₀.path
      have hstem₀ := u₀.length_stem_le
      obtain ⟨rest, hrest⟩ := Url.text_of_file hscheme
      rw [Url.parameters_of_file hu₀ hscheme, hscheme] at hstem₀
      simp only [List.length_append] at hplace
      have hfour : "file".toList.length = 4 := rfl
      simp only [List.length_nil] at hstem₀
      exact ⟨by omega, .inr (Url.scheme_eq_file_of_text hu (htext ▸ hrest))⟩
    · split at hlook
      · obtain ⟨h₁, h₂⟩ := hwhole (by simpa using hshort hlook)
        exact ⟨h₁, .inl h₂⟩
      · cases hlook

instance finite_char : Finite Char :=
  Finite.of_injective Char.val fun _ _ => Char.ext

/-- Texts of a bounded length are finitely many. -/
theorem finite_short (n : Nat) : {s : String | s.length ≤ n}.Finite := by
  refine ((List.finite_length_le Char n).image String.ofList).subset fun s hs => ?_
  exact ⟨s.toList, (String.length_toList (s := s)).le.trans hs, String.ofList_toList⟩

/-- URLs with parts of a bounded length are finitely many. -/
theorem finite_partsWithin (n : Nat) : {u : Url | u.PartsWithin n}.Finite := by
  have hshort := List.finite_length_le Char n
  refine ((hshort.prod (hshort.prod (hshort.prod (hshort.prod (hshort.prod hshort))))).image
    fun (scheme, authority, path, parameters, query, fragment) =>
      (⟨scheme, authority, path, parameters, query, fragment⟩ : Url)).subset fun u hu => ?_
  exact ⟨(u.scheme, u.authority, u.path, u.parameters, u.query, u.fragment),
    ⟨hu.scheme, hu.authority, hu.path, hu.parameters, hu.query, hu.fragment⟩, rfl⟩

namespace Locations

/-- The locations that those of up to `n` characters compose to, seen from given ones. -/
def composed (n : Nat) (bases : Set String) : Set String :=
  {uri | ∃ base ∈ bases, ∃ url : String, url.length ≤ n ∧ composeUri base url = .ok uri}

theorem finite_composed (n : Nat) {bases : Set String} (h : bases.Finite) :
    (composed n bases).Finite := by
  refine ((h.prod (finite_short n)).image fun pair =>
    (composeUri pair.1 pair.2).toOption.getD "").subset ?_
  rintro uri ⟨base, hbase, url, hurl, hcompose⟩
  exact ⟨(base, url), ⟨hbase, hurl⟩, by simp [hcompose, Except.toOption]⟩

/-- The texts of the URLs with up to `n` characters. -/
def own (n : Nat) : Set String :=
  {uri | ∃ url : String, url.length ≤ n ∧ ∃ u, Url.parse url.toList = .ok u ∧
    uri = String.ofList u.text}

theorem finite_own (n : Nat) : (own n).Finite := by
  refine ((finite_short n).image fun url => match Url.parse url.toList with
    | .ok u => String.ofList u.text
    | .error _ => "").subset ?_
  rintro uri ⟨url, hurl, u, hu, rfl⟩
  exact ⟨url, hurl, by simp [hu]⟩

/-- The files that locations of up to `n` characters lead to, seen from paths of up to `m`
characters. -/
def files (m n : Nat) : Set String :=
  {uri | ∃ path : List Char, path.length ≤ m ∧ ∃ url : String, url.length ≤ n ∧
    ∃ u, Url.parse url.toList = .ok u ∧ uri = siblingFile path u.path}

theorem finite_files (m n : Nat) : (files m n).Finite := by
  refine (((List.finite_length_le Char m).prod (finite_short n)).image fun pair =>
    match Url.parse pair.2.toList with
    | .ok u => siblingFile pair.1 u.path
    | .error _ => "").subset ?_
  rintro uri ⟨path, hpath, url, hurl, u, hu, rfl⟩
  exact ⟨(path, url), ⟨hpath, hurl⟩, by simp [hu]⟩

/-- The URLs that locations of up to `n` characters lead to, seen from URLs with parts of up to `n`
characters. -/
def joined (n : Nat) : Set String :=
  {uri | ∃ base b, Url.parse base = .ok b ∧ b.PartsWithin n ∧ base ≠ [] ∧ ∃ url : String,
    url.length ≤ n ∧ ∃ u, Url.parse url.toList = .ok u ∧ u.text ≠ [] ∧
      joinUrl base u.text = .ok uri.toList}

theorem finite_joined (n : Nat) : (joined n).Finite := by
  have hone : ∀ b url, {uri : String | ∃ base, Url.parse base = .ok b ∧ base ≠ [] ∧
      ∃ u, Url.parse (String.toList url) = .ok u ∧ u.text ≠ [] ∧
        joinUrl base u.text = .ok uri.toList}.Subsingleton := by
    rintro b url uri ⟨base, hb, hne, u, hu, htext, hjoin⟩ uri'
      ⟨base', hb', hne', u', hu', -, hjoin'⟩
    cases hu.symm.trans hu'
    rw [joinUrl_congr hne' hne htext (hb'.trans hb.symm), hjoin] at hjoin'
    exact String.toList_injective (Except.ok.inj hjoin')
  refine ((finite_partsWithin n).biUnion fun b _ => (finite_short n).biUnion fun url _ =>
    (hone b url).finite).subset ?_
  rintro uri ⟨base, b, hb, hwithin, hne, url, hurl, u, hu, htext, hjoin⟩
  simp only [Set.mem_iUnion]
  exact ⟨b, hwithin, url, hurl, base, hb, hne, u, hu, htext, hjoin⟩

/-- Locations that a document may have, if it is not seen from a location that has the scheme of
files and is not written like it. -/
def first (n : Nat) (start : String) : Set String :=
  {start} ∪ own n ∪ files (13 * n + 9) n ∪ joined n ∪ composed n {start}

/-- All locations that a document may have. -/
def all (n : Nat) (start : String) : Set String :=
  first n start ∪ {uri | uri ∈ composed n (first n start) ∧ beginsWith "file" uri}

theorem finite_first (n : Nat) (start : String) : (first n start).Finite :=
  ((((Set.finite_singleton start).union (finite_own n)).union (finite_files _ n)).union
    (finite_joined n)).union (finite_composed n (Set.finite_singleton start))

theorem finite_all (n : Nat) (start : String) : (all n start).Finite :=
  (finite_first n start).union
    ((finite_composed n (finite_first n start)).subset fun _ h => h.1)

/-- A location seen from the start, or from a document that has been read, is one of them. -/
theorem closed [Libraries] {w : World} {n : Nat} (hw : w.Within n) {start base url uri : String}
    (hbase : base ∈ all n start) (hread : base = start ∨ ∃ doc, w.Offers base doc)
    (hurl : url.length ≤ n) (h : composeUri base url = .ok uri) : uri ∈ all n start := by
  rcases hread with rfl | ⟨doc, hoffers⟩
  · exact .inl (.inr ⟨base, rfl, url, hurl, h⟩)
  · obtain ⟨b, hb, hpath, hshort⟩ := hw.url_short hoffers
    obtain ⟨u, hu, rfl | rfl | ⟨-, b', hb', rfl⟩ | ⟨hother, hjoin⟩⟩ := composeUri_cases h
    · exact .inl (.inl (.inl (.inl (.inr ⟨url, hurl, u, hu, rfl⟩))))
    · exact hbase
    · cases hb.symm.trans hb'
      exact .inl (.inl (.inl (.inr ⟨b.path, hpath, url, hurl, u, hu, rfl⟩)))
    · have hfirst : base ∈ first n start := hbase.resolve_right fun h => hother h.2
      have hown : String.ofList u.text ∈ first n start :=
        .inl (.inl (.inl (.inr ⟨url, hurl, u, hu, rfl⟩)))
      by_cases htext : u.text = []
      · rw [htext, joinUrl_nil_right] at hjoin
        exact String.toList_injective (Except.ok.inj hjoin) ▸ hbase
      by_cases hempty : base.toList = []
      · rw [hempty, joinUrl_nil_left] at hjoin
        have huri : uri = String.ofList u.text := by rw [Except.ok.inj hjoin, String.ofList_toList]
        exact .inl (huri ▸ hown)
      rcases hshort with hlen | hfile
      · have hwithin := b.partsWithin_text.mono hlen
        exact .inl (.inl (.inr
          ⟨base.toList, b, hb, hwithin, hempty, url, hurl, u, hu, htext, hjoin⟩))
      · rcases joinUrl_cases hjoin with heq | heq | ⟨b', u', hb', hscheme, heq⟩
        · have huri : uri = String.ofList u.text := by rw [← heq, String.ofList_toList]
          exact .inl (huri ▸ hown)
        · exact String.toList_injective heq ▸ hbase
        · cases hb.symm.trans hb'
          refine .inr ⟨⟨base, hfirst, url, hurl, h⟩, ?_⟩
          obtain ⟨rest, hrest⟩ := Url.text_of_file (hscheme.trans hfile)
          rw [beginsWith, heq, hrest]
          rfl

end Locations

/-! ## Targets -/

theorem length_le_of_cutFirst {c : Char} {cs a b : List Char} (h : cutFirst c cs = some (a, b)) :
    a.length ≤ cs.length ∧ b.length ≤ cs.length := by
  have heq := congrArg List.length (eq_append_of_cutFirst h)
  simp only [List.length_append, List.length_cons] at heq
  omega

/-- The location and the fragment of a target are no longer than the reference. -/
theorem Target.ofReference_ok {base ref : String} {t : Target}
    (h : Target.ofReference base ref = .ok t) : t.fragment.length ≤ ref.length ∧
      ∃ location : String, location.length ≤ ref.length ∧
        composeUri base location = .ok t.uri := by
  have hlength : ∀ cs : List Char, (String.ofList cs).length = cs.length := by simp
  unfold ofReference at h
  rcases hcut : cutFirst '#' ref.toList with _ | ⟨location, fragment⟩ <;>
    rw [hcut] at h <;> dsimp only [Option.getD, bind, Except.bind] at h <;> split at h
  · cases h
  · next uri hcompose =>
    obtain rfl := Except.ok.inj h
    exact ⟨Nat.zero_le _, _, by rw [hlength, String.length_toList], hcompose⟩
  · cases h
  · next uri hcompose =>
    obtain rfl := Except.ok.inj h
    obtain ⟨hlocation, hfragment⟩ := length_le_of_cutFirst hcut
    rw [String.length_toList] at hlocation hfragment
    exact ⟨by rwa [hlength], _, by rwa [hlength], hcompose⟩

section Met

variable [Libraries] {w : World} {start : String} {root : Value}

/-- A value at a location that inlining can come to from a value at the location `start`. -/
inductive Met (w : World) (start : String) (root : Value) : String → Value → Prop
  | start : Met w start root start root
  | step {base ref : String} {v doc found : Value} {t : Target} : Met w start root base v →
      ref ∈ externals v → Target.ofReference base ref = .ok t → w.Offers t.uri doc →
      t.find doc = .ok found → Met w start root t.uri found

/-- A target that inlining can come to. -/
def IsTarget (w : World) (start : String) (root : Value) (t : Target) : Prop :=
  ∃ base v ref doc, Met w start root base v ∧ ref ∈ externals v ∧
    Target.ofReference base ref = .ok t ∧ w.Offers t.uri doc

theorem Met.short {n : Nat} (hw : w.Within n) (hroot : root.longestText ≤ n) {base : String}
    {v : Value} (h : Met w start root base v) : v.longestText ≤ n ∧ base ∈ Locations.all n start ∧
      (base = start ∨ ∃ doc, w.Offers base doc) := by
  induction h with
  | start => exact ⟨hroot, .inl (.inl (.inl (.inl (.inl rfl)))), .inl rfl⟩
  | @step base ref v doc found t _ hr ht hoffers hfound ih =>
    obtain ⟨hv, hbase, hread⟩ := ih
    have href : ref.length ≤ n := (length_le_of_mem_externals hr).trans hv
    obtain ⟨-, location, hlocation, hcompose⟩ := Target.ofReference_ok ht
    refine ⟨(Target.longestText_find hfound).trans ?_,
      Locations.closed hw hbase hread (hlocation.trans href) hcompose, .inr ⟨doc, hoffers⟩⟩
    obtain ⟨-, text, -, ⟨-, u, -, -, hlook⟩, hdecode⟩ := hoffers
    obtain ⟨place, hplace⟩ := World.exists_lookup hlook
    exact hw.value place text hplace _ _ hdecode

/-- Inlining can come to finitely many targets. -/
theorem finite_targets (w : World) (start : String) (root : Value) :
    {t | IsTarget w start root t}.Finite := by
  obtain ⟨n, hn⟩ := w.exists_within
  have hw := hn.mono (Nat.le_max_left n root.longestText)
  have hroot := Nat.le_max_right n root.longestText
  refine (((Locations.finite_all (max n root.longestText) start).prod
    (finite_short (max n root.longestText))).image fun pair =>
      Target.mk pair.1 pair.2).subset ?_
  rintro t ⟨base, v, ref, doc, hmet, hr, ht, -⟩
  obtain ⟨hv, hbase, hread⟩ := hmet.short hw hroot
  have href := (length_le_of_mem_externals hr).trans hv
  obtain ⟨hfragment, location, hlocation, hcompose⟩ := Target.ofReference_ok ht
  exact ⟨(t.uri, t.fragment), ⟨Locations.closed hw hbase hread (hlocation.trans href) hcompose,
    hfragment.trans href⟩, rfl⟩

/-- What holds of a value if it holds below all its references whose keys are not on the way that
led to it, holds of the value that inlining starts with: on every way the keys are different, and
there are finitely many. -/
theorem met_induction {P : List String → String → Value → Prop}
    (hstep : ∀ path base v, Met w start root base v →
      (∀ ref ∈ externals v, ∀ t doc found, Target.ofReference base ref = .ok t → t.key ∉ path →
        w.Offers t.uri doc → t.find doc = .ok found → P (t.key :: path) t.uri found) →
      P path base v) : P [] start root := by
  let keys : Set String := Target.key '' {t | IsTarget w start root t}
  have hfinite : keys.Finite := (finite_targets w start root).image _
  suffices hall : ∀ n path base v, (keys \ {key | key ∈ path}).ncard = n →
      Met w start root base v → P path base v from hall _ [] start root rfl .start
  intro n
  induction n using Nat.strong_induction_on with
  | _ n ih =>
    rintro path base v rfl hmet
    refine hstep path base v hmet fun ref hr t doc found ht hfresh hoffers hfound => ?_
    refine ih _ (Set.ncard_lt_ncard ?_ (hfinite.subset Set.sdiff_subset)) _ _ _ rfl
      (.step hmet hr ht hoffers hfound)
    have hkey : t.key ∈ keys := ⟨t, ⟨base, v, ref, doc, hmet, hr, ht, hoffers⟩, rfl⟩
    refine ⟨fun key hk => ⟨hk.1, fun hmem => hk.2 (List.mem_cons_of_mem _ hmem)⟩, fun hsubset => ?_⟩
    exact (hsubset ⟨hkey, hfresh⟩).2 List.mem_cons_self

end Met

end Source

end ApiProto
