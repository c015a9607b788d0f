import ApiProto.Uri.Reference
import Mathlib.Data.List.TakeWhile
import Mathlib.Tactic.Tauto

/-!
# What the text of a URL tells

The text of a URL determines its parts only in part: a path that starts with two slashes may be read
as an authority. These are the facts that hold all the same.

* `length_le_percentDecode` — decoding a text makes it at most twelve times shorter.
* `Url.length_authority_path_le`, `Url.length_stem_text_le` — how long a URL is before its query and
  fragment.
* `scheme_eq_file_of_text` — a text that starts like a `file` URL is that of a `file` URL.
* `composeUri_cases`, `joinUrl_cases` — what a composed URI can be.
-/

namespace ApiProto.Text

/-! ## Lengths of decoded texts -/

/-- The number of bytes that a decoder has taken for the character it is in. -/
def DecodeState.taken : DecodeState → Nat
  | .between => 0
  | .inside _ _ _ more => 3 - more

/-- At most two bytes are missing after the next one. -/
def DecodeState.IsSound : DecodeState → Prop
  | .between => True
  | .inside _ _ _ more => more ≤ 2

theorem continuation?_le {b low high more : Nat} (h : continuation? b = some (low, high, more)) :
    more ≤ 2 := by
  unfold continuation? at h
  repeat' split at h
  all_goals simp_all
  all_goals omega

/-- Every byte is taken for a character that is complete or under way. -/
theorem startCharacter_taken (b : Nat) : (startCharacter b).2.IsSound ∧
    1 ≤ 4 * (startCharacter b).1.length + (startCharacter b).2.taken := by
  unfold startCharacter
  split
  · exact ⟨trivial, by simp [DecodeState.taken]⟩
  · split
    · next hc =>
      have hmore := continuation?_le hc
      refine ⟨hmore, ?_⟩
      simp only [DecodeState.taken, List.length_nil]
      omega
    · exact ⟨trivial, by simp [DecodeState.taken]⟩

theorem decodeStep_taken {state : DecodeState} (h : state.IsSound) (b : Nat) :
    (decodeStep state b).2.IsSound ∧
      state.taken + 1 ≤ 4 * (decodeStep state b).1.length + (decodeStep state b).2.taken := by
  obtain ⟨hsound, htaken⟩ := startCharacter_taken b
  cases state with
  | between => exact ⟨hsound, by simpa [decodeStep, DecodeState.taken] using htaken⟩
  | inside bits low high more =>
    have hmore : more ≤ 2 := h
    simp only [decodeStep]
    split
    · cases more with
      | zero => exact ⟨trivial, by simp [DecodeState.taken]⟩
      | succ more =>
        refine ⟨Nat.le_of_succ_le hmore, ?_⟩
        simp only [DecodeState.taken, List.length_nil]
        omega
    · refine ⟨hsound, ?_⟩
      simp only [DecodeState.taken, List.length_cons]
      omega

theorem length_le_decodeUtf8From {state : DecodeState} (h : state.IsSound) (bytes : List Nat) :
    state.taken + bytes.length ≤ 4 * (decodeUtf8From state bytes).length := by
  induction bytes generalizing state with
  | nil => cases state <;> simp [decodeUtf8From, DecodeState.taken]; omega
  | cons b rest ih =>
    obtain ⟨hsound, htaken⟩ := decodeStep_taken h b
    have hrest := ih hsound
    have heq : decodeUtf8From state (b :: rest) =
        (decodeStep state b).1 ++ decodeUtf8From (decodeStep state b).2 rest := by
      cases state <;> rfl
    rw [heq, List.length_append, List.length_cons]
    omega

end ApiProto.Text

namespace ApiProto.Uri

open Text

theorem length_le_percentBytes (cs : List Char) : cs.length ≤ 3 * (percentBytes cs).length := by
  fun_induction percentBytes cs with
  | case1 => simp
  | case2 a b rest n _ ih => simp only [List.length_cons]; omega
  | case3 a b rest _ ih => simp only [List.length_cons] at ih ⊢; omega
  | case4 c rest _ ih => simp only [List.length_cons]; omega

/-- A run of ASCII characters is at most twelve times as long as what it decodes to. -/
theorem length_le_decodeUtf8_percentBytes (cs : List Char) :
    cs.length ≤ 12 * (decodeUtf8 (percentBytes cs)).length := by
  have hbytes := length_le_percentBytes cs
  have hchars := @length_le_decodeUtf8From .between trivial (percentBytes cs)
  simp only [DecodeState.taken] at hchars
  unfold decodeUtf8
  omega

theorem length_le_percentDecodeFrom (run cs : List Char) :
    run.length + cs.length ≤ 12 * (percentDecodeFrom run cs).length := by
  induction cs generalizing run with
  | nil => simpa [percentDecodeFrom] using length_le_decodeUtf8_percentBytes run.reverse
  | cons c rest ih =>
    rw [percentDecodeFrom]
    split
    · have := ih (c :: run)
      simp only [List.length_cons] at this ⊢
      omega
    · have hrun := length_le_decodeUtf8_percentBytes run.reverse
      have hrest := ih []
      simp only [List.length_reverse, List.length_cons, List.length_append,
        List.length_nil] at hrun hrest ⊢
      omega

/-- Decoding a text makes it at most twelve times shorter. -/
theorem length_le_percentDecode (cs : List Char) : cs.length ≤ 12 * (percentDecode cs).length := by
  simpa [percentDecode] using length_le_percentDecodeFrom [] cs

/-! ## Cuts -/

theorem cutFirst_append {c : Char} {a : List Char} (h : c ∉ a) (b : List Char) :
    cutFirst c (a ++ c :: b) = some (a, b) := by
  induction a with
  | nil => simp [cutFirst]
  | cons d a ih =>
    obtain ⟨hd, ha⟩ := not_or.1 (mt List.mem_cons.2 h)
    simp [cutFirst, Ne.symm hd, ih ha]

theorem not_mem_of_cutFirst {c : Char} {cs a b : List Char} (h : cutFirst c cs = some (a, b)) :
    c ∉ a := by
  induction cs generalizing a with
  | nil => simp [cutFirst] at h
  | cons d rest ih =>
    simp only [cutFirst] at h
    split at h
    · simp_all
    · next hd =>
      obtain ⟨⟨a', b'⟩, hr, heq⟩ := Option.map_eq_some_iff.1 h
      obtain ⟨rfl, rfl⟩ := Prod.mk.inj heq
      exact fun hmem => (List.mem_cons.1 hmem).elim (Ne.symm hd) (ih hr)

theorem cutFirst_eq_none {c : Char} {cs : List Char} (h : cutFirst c cs = none) : c ∉ cs := by
  induction cs with
  | nil => simp
  | cons d rest ih =>
    simp only [cutFirst] at h
    split at h
    · cases h
    · next hd =>
      exact fun hmem => (List.mem_cons.1 hmem).elim (Ne.symm hd) (ih (Option.map_eq_none_iff.1 h))

/-- The first part of a cut starts the text, and does not hold the character. -/
theorem cutOr_spec {c : Char} {cs a b : List Char} (h : cutOr c cs = (a, b)) :
    c ∉ a ∧ ∃ rest, cs = a ++ rest := by
  unfold cutOr at h
  rcases hcut : cutFirst c cs with _ | ⟨a', b'⟩ <;> rw [hcut] at h
  · obtain ⟨rfl, rfl⟩ := Prod.mk.inj h
    exact ⟨cutFirst_eq_none hcut, [], (List.append_nil _).symm⟩
  · obtain ⟨rfl, rfl⟩ := Prod.mk.inj h
    exact ⟨not_mem_of_cutFirst hcut, _, eq_append_of_cutFirst hcut⟩

theorem cutOr_semicolon {cs a b : List Char} (h : cutOr ';' cs = (a, b)) :
    ∃ rest, cs = (if b.isEmpty then a else a ++ ';' :: b) ++ rest := by
  unfold cutOr at h
  rcases hcut : cutFirst ';' cs with _ | ⟨a', b'⟩ <;> rw [hcut] at h
  · obtain ⟨rfl, rfl⟩ := Prod.mk.inj h
    exact ⟨[], by simp⟩
  · obtain ⟨rfl, rfl⟩ := Prod.mk.inj h
    cases b' with
    | nil => exact ⟨[';'], eq_append_of_cutFirst hcut⟩
    | cons d b' => exact ⟨[], by simpa using eq_append_of_cutFirst hcut⟩

theorem eq_append_of_cutLast {c : Char} {cs a b : List Char} (h : cutLast c cs = some (a, b)) :
    cs = a ++ c :: b := by
  induction cs generalizing a with
  | nil => simp [cutLast] at h
  | cons d rest ih =>
    simp only [cutLast] at h
    split at h
    · next a' b' hr =>
      obtain ⟨rfl, rfl⟩ := Prod.mk.inj (Option.some.inj h)
      rw [ih hr, List.cons_append]
    · split at h
      · simp_all
      · cases h

/-- A path starts with what remains of it when its parameters are cut off and put back. -/
theorem cutParameters_spec {path a b : List Char} (h : cutParameters path = (a, b)) :
    ∃ rest, path = (if b.isEmpty then a else a ++ ';' :: b) ++ rest := by
  unfold cutParameters at h
  rcases hcut : cutLast '/' path with _ | ⟨before, last⟩ <;> rw [hcut] at h
  · exact cutOr_semicolon h
  · rcases hlast : cutOr ';' last with ⟨a', b'⟩
    simp only [hlast] at h
    obtain ⟨rfl, rfl⟩ := Prod.mk.inj h
    obtain ⟨rest, hrest⟩ := cutOr_semicolon hlast
    refine ⟨rest, ?_⟩
    rw [eq_append_of_cutLast hcut, hrest]
    split <;> simp

/-! ## Parts and text -/

/-- Where a URL begins to speak of its query or its fragment. -/
def isMark (c : Char) : Bool := c == '?' || c == '#'

namespace Url

/-- The path of a URL with its parameters. -/
def pathText (u : Url) : List Char :=
  if u.parameters.isEmpty then u.path else u.path ++ ';' :: u.parameters

/-- The authority and the path of a URL. -/
def locationText (u : Url) : List Char :=
  let rooted := !u.authority.isEmpty ||
    (!u.scheme.isEmpty && schemeIn authoritySchemes u.scheme && u.pathText.take 2 != ['/', '/'])
  if rooted then
    '/' :: '/' :: u.authority ++
      (if u.pathText.isEmpty || u.pathText.head? == some '/' then u.pathText else '/' :: u.pathText)
  else u.pathText

/-- The text of a URL without its query and fragment. -/
def stem (u : Url) : List Char :=
  if u.scheme.isEmpty then u.locationText else u.scheme ++ ':' :: u.locationText

theorem text_eq (u : Url) : u.text = u.stem ++ (if u.query.isEmpty then [] else '?' :: u.query) ++
    (if u.fragment.isEmpty then [] else '#' :: u.fragment) := rfl

/-- What has been read as the parts of a text. -/
theorem parse_ok {cs : List Char} {u : Url} (h : Url.parse cs = .ok u) :
    ∃ rest rest' path, cutScheme [] (sanitize cs) = (u.scheme, rest) ∧
      cutAuthority rest = (u.authority, rest') ∧
      cutOr '?' (cutOr '#' rest').1 = (path, u.query) ∧
      (if schemeIn parameterSchemes u.scheme then cutParameters path else (path, [])) =
        (u.path, u.parameters) := by
  unfold Url.parse parseWith at h
  rcases hscheme : cutScheme [] (sanitize cs) with ⟨scheme, rest⟩
  rcases hauthority : cutAuthority rest with ⟨authority, rest'⟩
  simp only [hscheme, hauthority] at h
  split at h
  · cases h
  · split at h
    · cases h
    · cases h
      exact ⟨rest, rest', _, rfl, hauthority, rfl, rfl⟩

/-- What is known of the parts of a URL that has been read. -/
structure Read (u : Url) : Prop where
  scheme : ∀ c ∈ u.scheme, c ≠ ':' ∧ ¬ isMark c
  authority : ∀ c ∈ u.authority, ¬ isMark c
  path : ∀ c ∈ u.path, ¬ isMark c
  parameters : ∀ c ∈ u.parameters, ¬ isMark c

/-- The characters of a scheme are no delimiters, in lower case either. -/
theorem toLower_mark {c : Char} (h : c.isAlphanum ∨ c = '+' ∨ c = '-' ∨ c = '.') :
    c.toLower ≠ ':' ∧ ¬ isMark c.toLower := by
  unfold Char.toLower
  split
  · next hupper =>
    have hoffset : ('a'.val - 'A'.val).toNat = 32 := by decide
    have hlow : 65 ≤ c.val.toNat := hupper.1
    have hhigh : c.val.toNat ≤ 90 := hupper.2
    have hval : (c.val + ('a'.val - 'A'.val)).toNat = c.val.toNat + 32 := by
      rw [UInt32.toNat_add, hoffset]
      omega
    have hne : ∀ d : Char, d.val.toNat < 97 → ∀ hvalid,
        (⟨c.val + ('a'.val - 'A'.val), hvalid⟩ : Char) ≠ d := by
      rintro d hd hvalid rfl
      simp only [hval] at hd
      omega
    refine ⟨hne ':' (by decide) _, ?_⟩
    simp only [isMark, Bool.or_eq_true, beq_iff_eq]
    rintro (heq | heq)
    · exact hne '?' (by decide) _ heq
    · exact hne '#' (by decide) _ heq
  · rcases h with h | rfl | rfl | rfl
    · refine ⟨?_, ?_⟩
      · rintro rfl
        exact absurd h (by decide)
      · simp only [isMark, Bool.or_eq_true, beq_iff_eq]
        rintro (rfl | rfl) <;> exact absurd h (by decide)
    all_goals decide

theorem cutScheme_spec {cs scheme rest : List Char} (h : cutScheme [] cs = (scheme, rest)) :
    scheme = [] ∧ rest = cs ∨ scheme ≠ [] ∧ ∀ c ∈ scheme, c ≠ ':' ∧ ¬ isMark c := by
  unfold cutScheme at h
  split at h
  · next c tail rest' hcut =>
    split at h
    · next hvalid =>
      obtain ⟨rfl, rfl⟩ := Prod.mk.inj h
      refine .inr ⟨by simp, fun d hd => ?_⟩
      obtain ⟨x, hx, rfl⟩ := List.mem_map.1 hd
      refine toLower_mark ?_
      simp only [Bool.and_eq_true, List.all_eq_true, Bool.or_eq_true, beq_iff_eq] at hvalid
      rcases List.mem_cons.1 hx with rfl | hx
      · exact .inl (by simp [Char.isAlphanum, hvalid.1])
      · simpa [or_assoc] using hvalid.2 x hx
    · obtain ⟨rfl, rfl⟩ := Prod.mk.inj h
      exact .inl ⟨rfl, rfl⟩
  · obtain ⟨rfl, rfl⟩ := Prod.mk.inj h
    exact .inl ⟨rfl, rfl⟩

theorem read_of_parse {cs : List Char} {u : Url} (h : Url.parse cs = .ok u) : u.Read := by
  obtain ⟨rest, rest', path, hscheme, hauthority, hpath, hparameters⟩ := parse_ok h
  have hclear : ∀ c ∈ path, ¬ isMark c := by
    intro c hc
    obtain ⟨b, fragment, hb⟩ : ∃ b fragment, cutOr '#' rest' = (b, fragment) := ⟨_, _, rfl⟩
    rw [hb] at hpath
    obtain ⟨hquery, tail, rfl⟩ := cutOr_spec hpath
    obtain ⟨hfragment, -⟩ := cutOr_spec hb
    have hc' : c ∈ path ++ tail := List.mem_append_left _ hc
    simp only [isMark, Bool.or_eq_true, beq_iff_eq, not_or]
    exact ⟨fun heq => hquery (heq ▸ hc), fun heq => hfragment (heq ▸ hc')⟩
  have hparts : ∀ c, c ∈ u.path ∨ c ∈ u.parameters → ¬ isMark c := by
    intro c hc
    refine hclear c ?_
    split at hparameters
    · obtain ⟨tail, htail⟩ := cutParameters_spec hparameters
      rw [htail]
      rcases hc with hc | hc <;> split <;> simp_all
    · obtain ⟨hu, hu'⟩ := Prod.mk.inj hparameters
      rw [← hu, ← hu'] at hc
      simpa using hc
  refine ⟨?_, ?_, fun c hc => hparts c (.inl hc), fun c hc => hparts c (.inr hc)⟩
  · rcases cutScheme_spec hscheme with ⟨hempty, -⟩ | ⟨-, hvalid⟩
    · simp [hempty]
    · exact hvalid
  · unfold cutAuthority at hauthority
    split at hauthority
    · obtain ⟨hu, -⟩ := Prod.mk.inj hauthority
      intro c hc
      have := List.mem_takeWhile_imp (hu ▸ hc)
      simp_all [isMark]
    · simp [← (Prod.mk.inj hauthority).1]

theorem mem_locationText {u : Url} {c : Char} (h : c ∈ u.locationText) :
    c = '/' ∨ c ∈ u.authority ∨ c ∈ u.pathText := by
  unfold locationText at h
  dsimp only at h
  split at h
  · split at h <;> simp only [List.mem_append, List.mem_cons] at h <;> tauto
  · exact .inr (.inr h)

/-- The stem of a URL is its text up to the query or the fragment. -/
theorem takeWhile_text {u : Url} (h : u.Read) :
    u.text.takeWhile (fun c => !isMark c) = u.stem := by
  have hpath : ∀ c ∈ u.pathText, ¬ isMark c := by
    intro c hc
    unfold pathText at hc
    split at hc
    · exact h.path c hc
    · rcases List.mem_append.1 hc with hc | hc
      · exact h.path c hc
      · rcases List.mem_cons.1 hc with rfl | hc
        · decide
        · exact h.parameters c hc
  have hlocation : ∀ c ∈ u.locationText, ¬ isMark c := by
    intro c hc
    rcases mem_locationText hc with rfl | hc | hc
    · decide
    · exact h.authority c hc
    · exact hpath c hc
  have hstem : ∀ c ∈ u.stem, (!isMark c) = true := by
    intro c hc
    rw [Bool.not_eq_true']
    unfold stem at hc
    split at hc
    · simpa using hlocation c hc
    · rcases List.mem_append.1 hc with hc | hc
      · simpa using (h.scheme c hc).2
      · rcases List.mem_cons.1 hc with rfl | hc
        · decide
        · simpa using hlocation c hc
  rw [text_eq, List.append_assoc, List.takeWhile_append_of_pos hstem]
  split <;> split <;> simp [isMark]

/-- A text that starts like that of a `file` URL is that of a `file` URL. -/
theorem scheme_eq_file_of_text {cs rest : List Char} {u : Url} (h : Url.parse cs = .ok u)
    (htext : u.text = "file:".toList ++ rest) : u.scheme = "file".toList := by
  have hread := read_of_parse h
  have hstem : u.stem = "file:".toList ++ rest.takeWhile (fun c => !isMark c) := by
    rw [← takeWhile_text hread, htext]
    rfl
  by_cases hscheme : u.scheme = []
  · exfalso
    obtain ⟨after, rest', path, hcut, hauthority, hpath, hparameters⟩ := parse_ok h
    have hplain : u.authority = [] := by
      rcases ha : u.authority with _ | ⟨a, authority⟩
      · rfl
      · exfalso
        simp [stem, locationText, hscheme, ha] at hstem
    have hpre : ∃ more, rest' = u.stem ++ more := by
      obtain ⟨b, fragment, hb⟩ : ∃ b fragment, cutOr '#' rest' = (b, fragment) := ⟨_, _, rfl⟩
      rw [hb] at hpath
      obtain ⟨-, afterPath, rfl⟩ := cutOr_spec hpath
      obtain ⟨-, afterQuery, hquery⟩ := cutOr_spec hb
      suffices hpre : ∃ more, path = u.stem ++ more by
        obtain ⟨more, hmore⟩ := hpre
        exact ⟨more ++ (afterPath ++ afterQuery), by rw [hquery, hmore]; simp⟩
      have heq : u.stem = u.pathText := by simp [stem, locationText, hscheme, hplain]
      rw [heq, pathText]
      split at hparameters
      · exact cutParameters_spec hparameters
      · obtain ⟨hu, hu'⟩ := Prod.mk.inj hparameters
        exact ⟨[], by simp [← hu, ← hu']⟩
    obtain ⟨more, hmore⟩ := hpre
    rw [hstem] at hmore
    unfold cutAuthority at hauthority
    split at hauthority
    · next tail =>
      obtain ⟨hempty, hrest⟩ := Prod.mk.inj hauthority
      rw [hplain] at hempty
      have hsame := List.takeWhile_append_dropWhile
        (p := fun c => decide (c ≠ '/' ∧ c ≠ '?' ∧ c ≠ '#')) (l := tail)
      rw [hempty, hrest, hmore] at hsame
      rw [← hsame] at hempty
      simp at hempty
    · obtain ⟨-, rfl⟩ := Prod.mk.inj hauthority
      rcases cutScheme_spec hcut with ⟨-, rfl⟩ | ⟨hne, -⟩
      · rw [hmore, hscheme] at hcut
        have hfile := congrArg Prod.fst hcut
        revert hfile
        show (cutScheme [] ('f' :: 'i' :: 'l' :: 'e' :: ':' :: _)).1 ≠ []
        simp [cutScheme, cutFirst]
      · exact hne hscheme
  · have hcut := cutFirst_append (c := ':') (fun hmem => (hread.scheme _ hmem).1 rfl)
      u.locationText
    rw [stem, if_neg (by simpa using hscheme)] at hstem
    rw [hstem] at hcut
    simp [cutFirst] at hcut
    simp [← hcut.1]

/-- The stem of a URL holds all parts before the query. -/
theorem length_parts_le_stem (u : Url) :
    u.scheme.length + u.authority.length + u.path.length + u.parameters.length ≤
      u.stem.length := by
  have hpath : u.path.length + u.parameters.length ≤ u.pathText.length := by
    unfold pathText
    split
    · next hempty => simp [List.isEmpty_iff.1 hempty]
    · simp only [List.length_append, List.length_cons]
      omega
  have hlocation : u.authority.length + u.pathText.length ≤ u.locationText.length := by
    unfold locationText
    dsimp only
    split
    · split <;> simp only [List.length_append, List.length_cons] <;> omega
    · next hrooted =>
      have hplain : u.authority = [] := by
        simp only [Bool.or_eq_true, Bool.not_eq_true', not_or, Bool.not_eq_false] at hrooted
        exact List.isEmpty_iff.1 hrooted.1
      simp [hplain]
  unfold stem
  split
  · next hempty =>
    simp only [List.isEmpty_iff.1 hempty, List.length_nil]
    omega
  · simp only [List.length_append, List.length_cons]
    omega

theorem length_stem_le (u : Url) : u.stem.length ≤
    u.scheme.length + u.authority.length + u.path.length + u.parameters.length + 5 := by
  have hpath : u.pathText.length ≤ u.path.length + u.parameters.length + 1 := by
    unfold pathText
    split
    · omega
    · simp only [List.length_append, List.length_cons]
      omega
  have hlocation : u.locationText.length ≤ u.authority.length + u.pathText.length + 3 := by
    unfold locationText
    dsimp only
    split
    · split <;> simp only [List.length_append, List.length_cons] <;> omega
    · omega
  unfold stem
  split
  · omega
  · simp only [List.length_append, List.length_cons]
    omega

theorem text_of_file {u : Url} (h : u.scheme = "file".toList) :
    ∃ rest, u.text = "file:".toList ++ rest := by
  refine ⟨u.locationText ++ ((if u.query.isEmpty then [] else '?' :: u.query) ++
    (if u.fragment.isEmpty then [] else '#' :: u.fragment)), ?_⟩
  have hstem : u.stem = "file:".toList ++ u.locationText := by
    rw [stem, h]
    rfl
  rw [text_eq, hstem]
  simp only [List.append_assoc]

/-- The path of a file has no parameters. -/
theorem parameters_of_file {cs : List Char} {u : Url} (h : Url.parse cs = .ok u)
    (hscheme : u.scheme = "file".toList) : u.parameters = [] := by
  obtain ⟨-, -, path, -, -, -, hparameters⟩ := parse_ok h
  have hnone : schemeIn parameterSchemes u.scheme = false := by
    rw [hscheme]
    decide
  rw [hnone] at hparameters
  exact (Prod.mk.inj hparameters).2.symm

/-- No part of a URL is longer than a given number. -/
structure PartsWithin (n : Nat) (u : Url) : Prop where
  scheme : u.scheme.length ≤ n
  authority : u.authority.length ≤ n
  path : u.path.length ≤ n
  parameters : u.parameters.length ≤ n
  query : u.query.length ≤ n
  fragment : u.fragment.length ≤ n

theorem PartsWithin.mono {n m : Nat} {u : Url} (h : u.PartsWithin n) (hle : n ≤ m) :
    u.PartsWithin m :=
  ⟨h.scheme.trans hle, h.authority.trans hle, h.path.trans hle, h.parameters.trans hle,
    h.query.trans hle, h.fragment.trans hle⟩

/-- No part of a URL is longer than its text. -/
theorem partsWithin_text (u : Url) : u.PartsWithin u.text.length := by
  have hparts := length_parts_le_stem u
  have hquery : u.query.length ≤ (if u.query.isEmpty then [] else '?' :: u.query).length := by
    cases u.query <;> simp
  have hfragment : u.fragment.length ≤
      (if u.fragment.isEmpty then [] else '#' :: u.fragment).length := by
    cases u.fragment <;> simp
  rw [text_eq]
  constructor <;> simp only [List.length_append] <;> omega

end Url

/-! ## Composed locations -/

theorem joinUrl_nil_left (reference : List Char) : joinUrl [] reference = .ok reference := rfl

theorem joinUrl_nil_right (base : List Char) : joinUrl base [] = .ok base := by
  cases base <;> rfl

/-- What a reference seen from a base can be: itself, the base, or a URL under the scheme of the
base. -/
theorem joinUrl_cases {base reference uri : List Char} (h : joinUrl base reference = .ok uri) :
    uri = reference ∨ uri = base ∨
      ∃ b u : Url, Url.parse base = .ok b ∧ u.scheme = b.scheme ∧ uri = u.text := by
  unfold joinUrl at h
  split at h
  · exact .inl (Except.ok.inj h).symm
  · split at h
    · exact .inr (.inl (Except.ok.inj h).symm)
    · rcases hb : Url.parse base with e | b <;> rw [hb] at h
      · cases h
      · dsimp only [bind, Except.bind] at h
        rcases hu : Url.parseWith b.scheme reference with e | u <;> rw [hu] at h
        · cases h
        · dsimp only [Except.mapError] at h
          split at h
          · exact .inl (Except.ok.inj h).symm
          · next hsame =>
            have hscheme : u.scheme = b.scheme := not_not.1 (not_or.1 hsame).1
            refine .inr (.inr ⟨b, ?_⟩)
            split at h
            · exact ⟨u, rfl, hscheme, (Except.ok.inj h).symm⟩
            · generalize hu' : (if schemeIn authoritySchemes u.scheme then
                { u with authority := b.authority } else u) = u' at h
              have hscheme' : u'.scheme = b.scheme := by
                rw [← hu']
                split <;> exact hscheme
              split at h
              all_goals
                exact ⟨_, rfl, by exact hscheme', (Except.ok.inj h).symm⟩

/-- A base that is not empty matters by its parts only. -/
theorem joinUrl_congr {base base' reference : List Char} (hne : base ≠ []) (hne' : base' ≠ [])
    (href : reference ≠ []) (h : Url.parse base = Url.parse base') :
    joinUrl base reference = joinUrl base' reference := by
  unfold joinUrl
  simp [hne, hne', href, h]

/-- The file that a path leads to, seen from the file at another path. -/
def siblingFile (base path : List Char) : String :=
  String.ofList (fileUrl (percentEncode
    (normalize (join (directory (percentDecode base)) (percentDecode path)))))

/-- What a location seen from a base can be. -/
theorem composeUri_cases {base url uri : String} (h : composeUri base url = .ok uri) :
    ∃ u, Url.parse url.toList = .ok u ∧
      (uri = String.ofList u.text ∨ uri = base ∨
        (beginsWith "file" base ∧ ∃ b, Url.parse base.toList = .ok b ∧
          uri = siblingFile b.path u.path) ∨
        (¬ beginsWith "file" base ∧ joinUrl base.toList u.text = .ok uri.toList)) := by
  unfold composeUri at h
  rcases hu : Url.parse url.toList with e | u <;> rw [hu] at h
  · cases h
  · refine ⟨u, rfl, ?_⟩
    simp only [bind, Except.bind] at h
    split at h
    · exact .inl (Except.ok.inj h).symm
    · split at h
      · exact .inr (.inl (Except.ok.inj h).symm)
      · split at h
        · next hfile =>
          rcases hb : Url.parse base.toList with e | b <;> rw [hb] at h
          · cases h
          · exact .inr (.inr (.inl ⟨hfile, b, rfl, (Except.ok.inj h).symm⟩))
        · next hfile =>
          rcases hjoin : joinUrl base.toList u.text with e | joined <;> rw [hjoin] at h
          · cases h
          · refine .inr (.inr (.inr ⟨hfile, ?_⟩))
            simp [← Except.ok.inj h]

end ApiProto.Uri
