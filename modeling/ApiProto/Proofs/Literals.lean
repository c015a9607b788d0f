import ApiProto.Proto.Printer
import Mathlib.Tactic.SplitIfs

/-!
# Literals

Numbers and quoted texts are written on one line, and what has been written tells what it was.

* `unescape` — reads what is written for a character inside quotes.
* `quote_injective`, `integer_injective` — quoted texts and numbers can be read back.
* `not_newline_literal` — the value of an option has no line end.
-/

namespace ApiProto

open Text

/-! ## Numbers -/

theorem natural_injective : Function.Injective (toString : Nat → String) := by
  intro m n h
  rw [Nat.toString_eq_ofList_toDigits, Nat.toString_eq_ofList_toDigits] at h
  have hdigits := congrArg (Nat.ofDigitChars 10 · 0) (String.ofList_inj.1 h)
  simpa using hdigits

theorem not_mem_natural {c : Char} (hc : c.isDigit = false) (n : Nat) : c ∉ (toString n).toList := by
  intro hmem
  rw [Nat.toString_eq_ofList_toDigits, String.toList_ofList] at hmem
  have hdigit := Nat.isDigit_of_mem_toDigits (by decide) (by decide) hmem
  rw [hc] at hdigit
  cases hdigit

/-- An integer is written as its digits, after a sign if it is negative. -/
theorem toString_integer (n : Int) :
    toString n = if n < 0 then "-" ++ toString n.natAbs else toString n.natAbs := by
  cases n with
  | ofNat n => rfl
  | negSucc n =>
    rw [if_pos (Int.negSucc_lt_zero n)]
    rfl

theorem integer_injective : Function.Injective (toString : Int → String) := by
  intro m n h
  rw [toString_integer, toString_integer] at h
  have hsign : ∀ i j : Nat, "-" ++ toString i ≠ toString j := by
    intro i j heq
    refine not_mem_natural (c := '-') (by decide) j ?_
    rw [← heq, String.toList_append]
    exact List.mem_append_left _ (by decide)
  split at h <;> split at h
  · have habs := natural_injective ((String.append_right_inj "-").1 h)
    omega
  · exact absurd h (hsign _ _)
  · exact absurd h.symm (hsign _ _)
  · have habs := natural_injective h
    omega

theorem not_newline_integer (n : Int) : '\n' ∉ (toString n).toList := by
  rw [toString_integer]
  split
  · rw [String.toList_append, List.mem_append, not_or]
    exact ⟨by decide, not_mem_natural (by decide) _⟩
  · exact not_mem_natural (by decide) _

/-! ## Quoted text -/

/-- The character that stands at the start of a text inside quotes, and the rest. -/
def unescape : List Char → Option (Char × List Char)
  | '\\' :: 'n' :: rest => some ('\n', rest)
  | '\\' :: 'r' :: rest => some ('\r', rest)
  | '\\' :: 't' :: rest => some ('\t', rest)
  | '\\' :: 'b' :: rest => some (Char.ofNat 8, rest)
  | '\\' :: 'f' :: rest => some (Char.ofNat 12, rest)
  | '\\' :: 'u' :: '0' :: '0' :: high :: low :: rest =>
    (hexNumber? [high, low]).map fun n => (Char.ofNat n, rest)
  | '\\' :: c :: rest => some (c, rest)
  | c :: rest => some (c, rest)
  | [] => none

theorem hexNumber?_hexDigit {n : Nat} (h : n < 0x20) :
    hexNumber? [hexDigit (n / 16), hexDigit n] = some n := by
  revert n
  decide

theorem eq_ofNat {c : Char} {n : Nat} (h : c.toNat = n) : c = Char.ofNat n := by
  rw [← h, Char.ofNat_toNat]

/-- What has been written for a character is read as that character. -/
theorem unescape_escape (c : Char) (rest : List Char) :
    unescape (escape c ++ rest) = some (c, rest) := by
  by_cases hquote : c = '"'
  · subst hquote
    rfl
  by_cases hslash : c = '\\'
  · subst hslash
    rfl
  by_cases hline : c = '\n'
  · subst hline
    rfl
  by_cases hreturn : c = '\r'
  · subst hreturn
    rfl
  by_cases htab : c = '\t'
  · subst htab
    rfl
  by_cases hback : c.toNat = 8
  · rw [eq_ofNat hback]
    rfl
  by_cases hfeed : c.toNat = 12
  · rw [eq_ofNat hfeed]
    rfl
  by_cases hcontrol : c.toNat < 0x20
  · simp only [escape, hquote, hslash, hline, hreturn, htab, hback, hfeed, hcontrol, if_true,
      if_false, List.cons_append, List.nil_append, unescape, hexNumber?_hexDigit hcontrol,
      Option.map_some, Char.ofNat_toNat]
  · simp [escape, hquote, hslash, hline, hreturn, htab, hback, hfeed, hcontrol, unescape]

theorem flatMap_escape_injective : Function.Injective (List.flatMap escape) := by
  intro cs
  induction cs with
  | nil =>
    intro ds h
    cases ds with
    | nil => rfl
    | cons d ds =>
      have hread := unescape_escape d (ds.flatMap escape)
      rw [← List.flatMap_cons, ← h] at hread
      cases hread
  | cons c cs ih =>
    intro ds h
    have hread := unescape_escape c (cs.flatMap escape)
    rw [← List.flatMap_cons, h] at hread
    cases ds with
    | nil => cases hread
    | cons d ds =>
      rw [List.flatMap_cons, unescape_escape, Option.some.injEq, Prod.mk.injEq] at hread
      rw [hread.1, ih hread.2.symm]

theorem quote_injective : Function.Injective quote := by
  intro s t h
  have hlist := List.append_cancel_right (String.ofList_inj.1 h)
  exact String.toList_inj.1 (flatMap_escape_injective (List.cons.inj hlist).2)

theorem not_newline_escape (c : Char) : '\n' ∉ escape c := by
  have hdigit : ∀ n, '\n' ≠ hexDigit n := by
    have hsmall : ∀ n < 16, '\n' ≠ Nat.digitChar n := by decide
    exact fun n => hsmall _ (Nat.mod_lt n (by decide))
  unfold escape
  split_ifs with hquote hslash hline
  case neg => simpa using fun heq => hline heq.symm
  all_goals simp [hdigit]

theorem not_newline_quote (s : String) : '\n' ∉ (quote s).toList := by
  rw [quote, String.toList_ofList]
  simp [not_newline_escape]

/-! ## Values of options -/

theorem not_newline_positional {digits : List Char} (h : '\n' ∉ digits) (place : Int) :
    '\n' ∉ Decimal.positional "" digits place := by
  unfold Decimal.positional
  split_ifs
  · simp [h]
  · simp [h]
  · simp only [List.mem_append, List.mem_cons, not_or]
    exact ⟨fun hmem => h (List.mem_of_mem_take hmem), by decide,
      fun hmem => h (List.mem_of_mem_drop hmem)⟩

theorem not_newline_write (x : Binary64) : '\n' ∉ (x.write Proto.optionLayout).toList := by
  cases x with
  | finite s m e =>
    have hdigits : '\n' ∉ Nat.toDigits 10 (Binary64.shortest m e).digits := by
      have hnatural := not_mem_natural (c := '\n') (by decide) (Binary64.shortest m e).digits
      rwa [Nat.toString_eq_ofList_toDigits, String.toList_ofList] at hnatural
    have hnumeral := not_newline_positional hdigits
      ((Nat.toDigits 10 (Binary64.shortest m e).digits).length +
        (Binary64.shortest m e).exponent)
    rw [Binary64.write, String.toList_append, String.toList_ofList, List.mem_append, not_or]
    exact ⟨by cases s <;> decide, hnumeral⟩
  | infinite s => cases s <;> decide
  | nan => decide

theorem not_newline_literal (v : Value) : '\n' ∉ (Proto.optionLiteral v).toList := by
  have hinvalid : '\n' ∉ "(invalid)".toList := by decide
  cases v with
  | bool b => cases b <;> decide
  | text s => exact not_newline_quote s
  | int n => exact not_newline_integer n
  | float x =>
    unfold Proto.optionLiteral
    dsimp only
    split
    · exact not_newline_integer _
    · exact not_newline_write x
  | _ => exact hinvalid

end ApiProto
