import ApiProto.Uri.Percent

/-!
# Percent-encoded text

What a percent-encoded text decodes to. A text can be encoded in many ways: any of its characters
may be written as the bytes of its UTF-8 encoding, with digits of either case, and a percent sign
must be.

* `decodeUtf8_utf8Bytes_append` — the bytes of a character decode to that character.
* `Encodes` — the encoded forms of a text.
* `percentDecode_append` — an encoded form decodes to its text, whatever follows.
-/

namespace ApiProto.Text

/-! ## Bytes of one character -/

section Decoding

variable {b low high more bits n : Nat} {rest : List Nat}

theorem decodeUtf8From_lead (hc : continuation? b = some (low, high, more)) (hb : 0x80 ≤ b) :
    decodeUtf8From .between (b :: rest) = decodeUtf8From (.inside
      (if more = 0 then b % 0x20 else if more = 1 then b % 0x10 else b % 8) low high more) rest := by
  rw [decodeUtf8From, decodeStep, startCharacter, if_neg (Nat.not_lt.2 hb), hc]
  rfl

theorem decodeUtf8From_last (hlow : low ≤ b) (hhigh : b ≤ high) :
    decodeUtf8From (.inside bits low high 0) (b :: rest) =
      Char.ofNat (bits * 0x40 + b % 0x40) :: decodeUtf8From .between rest := by
  rw [decodeUtf8From, decodeStep, if_pos ⟨hlow, hhigh⟩]
  rfl

theorem decodeUtf8From_next (hlow : low ≤ b) (hhigh : b ≤ high) :
    decodeUtf8From (.inside bits low high (more + 1)) (b :: rest) =
      decodeUtf8From (.inside (bits * 0x40 + b % 0x40) 0x80 0xBF more) rest := by
  rw [decodeUtf8From, decodeStep, if_pos ⟨hlow, hhigh⟩]
  rfl

/-- The first two of three bytes go together. Surrogates, for which they would not, are no
characters. -/
theorem continuation?_three (hlow : 0x800 ≤ n) (hhigh : n < 0x10000)
    (hvalid : n < 0xD800 ∨ 0xDFFF < n) : ∃ low high,
    continuation? (0xE0 + n / 0x1000) = some (low, high, 1) ∧ low ≤ 0x80 + n / 0x40 % 0x40 ∧
      0x80 + n / 0x40 % 0x40 ≤ high := by
  unfold continuation?
  rw [if_neg (by omega), if_neg (by omega)]
  split
  · exact ⟨_, _, rfl, by omega, by omega⟩
  · split
    · exact ⟨_, _, rfl, by omega, by omega⟩
    · rw [if_pos (by omega)]
      exact ⟨_, _, rfl, by omega, by omega⟩

/-- The first two of four bytes go together. -/
theorem continuation?_four (hlow : 0x10000 ≤ n) (hhigh : n < 0x110000) : ∃ low high,
    continuation? (0xF0 + n / 0x40000) = some (low, high, 2) ∧ low ≤ 0x80 + n / 0x1000 % 0x40 ∧
      0x80 + n / 0x1000 % 0x40 ≤ high := by
  unfold continuation?
  rw [if_neg (by omega), if_neg (by omega), if_neg (by omega), if_neg (by omega),
    if_neg (by omega)]
  split
  · exact ⟨_, _, rfl, by omega, by omega⟩
  · split
    · exact ⟨_, _, rfl, by omega, by omega⟩
    · rw [if_pos (by omega)]
      exact ⟨_, _, rfl, by omega, by omega⟩

end Decoding

/-- The bytes of a character decode to that character. -/
theorem decodeUtf8_utf8Bytes_append (c : Char) (rest : List Nat) :
    decodeUtf8 (utf8Bytes c ++ rest) = c :: decodeUtf8 rest := by
  have hvalid : c.toNat < 0xD800 ∨ 0xDFFF < c.toNat ∧ c.toNat < 0x110000 := c.valid
  have hself : ∀ m, m = c.toNat → Char.ofNat m = c := fun m hm => hm ▸ Char.ofNat_toNat c
  unfold utf8Bytes decodeUtf8
  dsimp only
  split
  · next h₁ =>
    rw [List.singleton_append, decodeUtf8From, decodeStep, startCharacter, if_pos h₁,
      Char.ofNat_toNat]
    rfl
  · next h₁ =>
    split
    · next h₂ =>
      have hc : continuation? (0xC0 + c.toNat / 0x40) = some (0x80, 0xBF, 0) := by
        unfold continuation?
        rw [if_neg (by omega), if_pos (by omega)]
      rw [List.cons_append, List.singleton_append, decodeUtf8From_lead hc (by omega), if_pos rfl,
        decodeUtf8From_last (by omega) (by omega), hself _ (by omega)]
    · next h₂ =>
      split
      · next h₃ =>
        obtain ⟨low, high, hc, hlow, hhigh⟩ :=
          continuation?_three (n := c.toNat) (by omega) h₃ (by omega)
        simp only [List.cons_append, List.nil_append]
        rw [decodeUtf8From_lead hc (by omega), decodeUtf8From_next hlow hhigh,
          decodeUtf8From_last (by omega) (by omega), hself]
        rw [if_neg (by decide), if_pos rfl]
        omega
      · next h₃ =>
        obtain ⟨low, high, hc, hlow, hhigh⟩ :=
          continuation?_four (n := c.toNat) (by omega) (by omega)
        simp only [List.cons_append, List.nil_append]
        rw [decodeUtf8From_lead hc (by omega), decodeUtf8From_next hlow hhigh,
          decodeUtf8From_next (by omega) (by omega), decodeUtf8From_last (by omega) (by omega), hself]
        rw [if_neg (by decide), if_neg (by decide)]
        omega

end ApiProto.Text

namespace ApiProto.Uri

open Text

/-! ## Encoded forms -/

/-- Bytes, each written as a percent sign and two hexadecimal digits. -/
inductive EncodesBytes : List Nat → List Char → Prop
  | nil : EncodesBytes [] []
  | cons {b : Nat} {bs : List Nat} {high low : Char} {cs : List Char} :
      hexByte? high low = some b → EncodesBytes bs cs → EncodesBytes (b :: bs) ('%' :: high :: low :: cs)

/-- The encoded forms of a text: any of its characters may be encoded, and a percent sign must
be. -/
inductive Encodes : List Char → List Char → Prop
  | nil : Encodes [] []
  | kept {c : Char} {cs ds : List Char} : c ≠ '%' → Encodes cs ds → Encodes (c :: cs) (c :: ds)
  | encoded {c : Char} {cs es ds : List Char} : EncodesBytes (utf8Bytes c) es → Encodes cs ds →
      Encodes (c :: cs) (es ++ ds)

variable {c : Char} {cs ds es run : List Char} {bs : List Nat}

/-- A text without percent signs is an encoded form of itself. -/
theorem Encodes.refl (h : '%' ∉ cs) : Encodes cs cs := by
  induction cs with
  | nil => exact .nil
  | cons c cs ih =>
    obtain ⟨hc, hcs⟩ := not_or.1 (mt List.mem_cons.2 h)
    exact .kept (Ne.symm hc) (ih hcs)

theorem Encodes.append {cs' ds' : List Char} (h : Encodes cs ds) (h' : Encodes cs' ds') :
    Encodes (cs ++ cs') (ds ++ ds') := by
  induction h with
  | nil => exact h'
  | kept hc _ ih => exact .kept hc ih
  | encoded hes _ ih =>
    rw [List.append_assoc]
    exact .encoded hes ih

theorem EncodesBytes.length_eq (h : EncodesBytes bs es) : es.length = 3 * bs.length := by
  induction h with
  | nil => rfl
  | cons _ _ ih =>
    simp only [List.length_cons, ih]
    omega

theorem utf8Bytes_ne_nil (c : Char) : utf8Bytes c ≠ [] := by
  unfold utf8Bytes
  dsimp only
  repeat' split
  all_goals exact List.cons_ne_nil _ _

/-- An encoded form is not shorter than its text, and a longer one if it is another text. -/
theorem Encodes.length_le (h : Encodes cs ds) :
    cs.length ≤ ds.length ∧ (cs.length = ds.length → ds = cs) := by
  induction h with
  | nil => exact ⟨Nat.le_refl _, fun _ => rfl⟩
  | kept _ _ ih =>
    simp only [List.length_cons]
    exact ⟨Nat.succ_le_succ ih.1, fun heq => congrArg _ (ih.2 (Nat.succ.inj heq))⟩
  | @encoded c _ es ds hbytes _ ih =>
    have hlength := hbytes.length_eq
    have hpos := List.length_pos_iff.2 (utf8Bytes_ne_nil c)
    simp only [List.length_cons, List.length_append]
    exact ⟨by omega, fun heq => by omega⟩

/-! ## Decoding -/

theorem lt_of_hexValue? {n : Nat} (h : hexValue? c = some n) : c.toNat < 0x80 := by
  have hle : ∀ {d : Char}, d.toNat < 0x80 → c ≤ d → c.toNat < 0x80 := fun hd hcd =>
    Nat.lt_of_le_of_lt hcd hd
  unfold hexValue? at h
  split at h
  · next hc => exact hle (by decide) hc.2
  · split at h
    · next hc => exact hle (by decide) hc.2
    · split at h
      · next hc => exact hle (by decide) hc.2
      · cases h

theorem lt_of_hexByte? {high low : Char} {b : Nat} (h : hexByte? high low = some b) :
    high.toNat < 0x80 ∧ low.toNat < 0x80 := by
  unfold hexByte? hexNumber? at h
  simp only [List.foldlM_cons, List.foldlM_nil, Option.bind_eq_bind, Option.bind_eq_some_iff,
    Option.map_eq_some_iff] at h
  obtain ⟨_, ⟨_, hhigh, -⟩, _, ⟨_, hlow, -⟩, -⟩ := h
  exact ⟨lt_of_hexValue? hhigh, lt_of_hexValue? hlow⟩

/-- Encoded bytes are written in ASCII. -/
theorem EncodesBytes.ascii (h : EncodesBytes bs es) : ∀ e ∈ es, e.toNat < 0x80 := by
  induction h with
  | nil => nofun
  | cons hhex _ ih =>
    obtain ⟨hhigh, hlow⟩ := lt_of_hexByte? hhex
    intro e he
    rcases List.mem_cons.1 he with rfl | he
    · decide
    · rcases List.mem_cons.1 he with rfl | he
      · exact hhigh
      · rcases List.mem_cons.1 he with rfl | he
        · exact hlow
        · exact ih e he

theorem percentBytes_append (h : EncodesBytes bs es) (rest : List Char) :
    percentBytes (es ++ rest) = bs ++ percentBytes rest := by
  induction h with
  | nil => rfl
  | cons hhex _ ih =>
    simp only [List.cons_append, percentBytes, hhex, ih]

theorem percentBytes_cons (hc : c ≠ '%') (rest : List Char) :
    percentBytes (c :: rest) = c.toNat :: percentBytes rest := by
  rw [percentBytes]
  rintro a b rest' rfl
  exact absurd rfl hc

/-- A run of ASCII characters that decodes to whole characters, whatever follows. -/
def Complete (run cs : List Char) : Prop :=
  ∀ rest, decodeUtf8 (percentBytes (run.reverse ++ rest)) = cs ++ decodeUtf8 (percentBytes rest)

theorem complete_kept (hc : c ≠ '%') (hascii : c.toNat < 0x80) : Complete [c] [c] := by
  intro rest
  have hbytes : utf8Bytes c = [c.toNat] := by simp [utf8Bytes, hascii]
  rw [List.reverse_singleton, List.singleton_append, percentBytes_cons hc,
    ← List.singleton_append, ← hbytes, decodeUtf8_utf8Bytes_append]
  rfl

theorem complete_encoded (h : EncodesBytes (utf8Bytes c) es) : Complete es.reverse [c] := by
  intro rest
  rw [List.reverse_reverse, percentBytes_append h, decodeUtf8_utf8Bytes_append]
  rfl

/-- What a complete run decodes to does not depend on what follows. -/
theorem Complete.percentDecodeFrom (h : Complete run cs) (more rest : List Char) :
    percentDecodeFrom (more ++ run) rest = cs ++ percentDecodeFrom more rest := by
  have hrun : ∀ more : List Char, decodeUtf8 (percentBytes (more ++ run).reverse) =
      cs ++ decodeUtf8 (percentBytes more.reverse) := fun more => by
    rw [List.reverse_append]
    exact h more.reverse
  induction rest generalizing more with
  | nil => exact hrun more
  | cons c rest ih =>
    rw [Uri.percentDecodeFrom, Uri.percentDecodeFrom]
    split
    · exact ih (c :: more)
    · rw [hrun, List.append_assoc]

theorem percentDecodeFrom_ascii (hes : ∀ e ∈ es, e.toNat < 0x80) (run rest : List Char) :
    percentDecodeFrom run (es ++ rest) = percentDecodeFrom (es.reverse ++ run) rest := by
  induction es generalizing run with
  | nil => rfl
  | cons e es ih =>
    obtain ⟨he, hes⟩ := List.forall_mem_cons.1 hes
    rw [List.cons_append, percentDecodeFrom, if_pos he, ih hes, List.reverse_cons,
      List.append_assoc, List.singleton_append]

/-- An encoded form decodes to its text, whatever follows. -/
theorem percentDecode_append (h : Encodes cs ds) (rest : List Char) :
    percentDecode (ds ++ rest) = cs ++ percentDecode rest := by
  unfold percentDecode
  induction h with
  | nil => rfl
  | @kept c cs ds hc _ ih =>
    rw [List.cons_append, percentDecodeFrom]
    split
    · next hascii =>
      refine ((complete_kept hc hascii).percentDecodeFrom [] (ds ++ rest)).trans ?_
      rw [ih]
      rfl
    · rw [ih]
      rfl
  | @encoded c cs es ds hbytes _ ih =>
    rw [List.append_assoc, percentDecodeFrom_ascii hbytes.ascii, List.append_nil]
    refine ((complete_encoded hbytes).percentDecodeFrom [] (ds ++ rest)).trans ?_
    rw [ih]
    rfl

/-- An encoded form decodes to its text. -/
theorem percentDecode_of_encodes (h : Encodes cs ds) : percentDecode ds = cs := by
  simpa [percentDecode, percentDecodeFrom, percentBytes, decodeUtf8, decodeUtf8From] using
    percentDecode_append h []

end ApiProto.Uri
