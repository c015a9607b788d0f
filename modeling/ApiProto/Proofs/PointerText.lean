import ApiProto.Value.Pointer

/-!
# Pointers that lead through keys

Every key has one pointer: its tildes and slashes are escaped, and all else stands for itself.

* `pointerOf` — the pointer that leads through keys, one inside the other.
* `pointerParts?_pointerOf` — its parts are the keys.
* `Value.at_pointerOf` — it leads to what stands under the keys.
-/

namespace ApiProto

open Text

/-! ## Keys and parts -/

/-- The escaped form of a character of a key. -/
def escapeChar (c : Char) : List Char :=
  if c = '~' then ['~', '0'] else if c = '/' then ['~', '1'] else [c]

/-- The part of a pointer for a key. -/
def escapePart (key : List Char) : List Char := key.flatMap escapeChar

/-- The pointer that leads through keys. -/
def pointerOf (keys : List String) : List Char := keys.flatMap fun key => '/' :: escapePart key.toList

theorem escapePart_cons (c : Char) (key : List Char) :
    escapePart (c :: key) = escapeChar c ++ escapePart key := rfl

theorem pointerOf_cons (key : String) (keys : List String) :
    pointerOf (key :: keys) = '/' :: (escapePart key.toList ++ pointerOf keys) := rfl

theorem escapeChar_cases (c : Char) :
    (c = '~' ∧ escapeChar c = ['~', '0']) ∨ (c = '/' ∧ escapeChar c = ['~', '1']) ∨
      (c ≠ '~' ∧ c ≠ '/' ∧ escapeChar c = [c]) := by
  unfold escapeChar
  by_cases htilde : c = '~'
  · exact .inl ⟨htilde, if_pos htilde⟩
  · rw [if_neg htilde]
    by_cases hslash : c = '/'
    · exact .inr (.inl ⟨hslash, if_pos hslash⟩)
    · exact .inr (.inr ⟨htilde, hslash, if_neg hslash⟩)

theorem unescapePart?_cons {c : Char} (hc : c ≠ '~') (rest : List Char) :
    unescapePart? (c :: rest) = (unescapePart? rest).map (c :: ·) := by
  rw [unescapePart?.eq_def]
  split
  · next heq => cases heq
  · next heq => exact absurd (List.cons.inj heq).1 hc
  · next heq => exact absurd (List.cons.inj heq).1 hc
  · next heq =>
    obtain ⟨rfl, rfl⟩ := List.cons.inj heq
    exact if_neg hc

/-- The part for a key stands for that key. -/
theorem unescapePart?_escapePart (key : List Char) : unescapePart? (escapePart key) = some key := by
  induction key with
  | nil => rfl
  | cons c key ih =>
    rw [escapePart_cons]
    rcases escapeChar_cases c with ⟨rfl, heq⟩ | ⟨rfl, heq⟩ | ⟨htilde, -, heq⟩ <;> rw [heq]
    · show (unescapePart? (escapePart key)).map ('~' :: ·) = _
      rw [ih, Option.map_some]
    · show (unescapePart? (escapePart key)).map ('/' :: ·) = _
      rw [ih, Option.map_some]
    · rw [List.singleton_append, unescapePart?_cons htilde, ih, Option.map_some]

theorem slash_not_mem_escapePart (key : List Char) : '/' ∉ escapePart key := by
  intro hmem
  obtain ⟨c, -, hc⟩ := List.mem_flatMap.1 hmem
  rcases escapeChar_cases c with ⟨-, heq⟩ | ⟨-, heq⟩ | ⟨-, hslash, heq⟩ <;> rw [heq] at hc
  · simp at hc
  · simp at hc
  · exact hslash (List.mem_singleton.1 hc).symm

/-- A key without tildes and slashes is its own part. -/
theorem escapePart_of_plain {key : List Char} (htilde : '~' ∉ key) (hslash : '/' ∉ key) :
    escapePart key = key := by
  induction key with
  | nil => rfl
  | cons c key ih =>
    obtain ⟨hc, htilde⟩ := not_or.1 (mt List.mem_cons.2 htilde)
    obtain ⟨hc', hslash⟩ := not_or.1 (mt List.mem_cons.2 hslash)
    rw [escapePart_cons, ih htilde hslash, escapeChar, if_neg (Ne.symm hc), if_neg (Ne.symm hc')]
    rfl

/-! ## Parts of a pointer -/

theorem splitAround_of_not_mem {c : Char} {part : List Char} (h : c ∉ part) :
    splitAround c part = [part] := by
  induction part with
  | nil => rfl
  | cons d part ih =>
    obtain ⟨hd, hpart⟩ := not_or.1 (mt List.mem_cons.2 h)
    rw [splitAround, if_neg (Ne.symm hd), ih hpart]

theorem splitAround_append {c : Char} {part : List Char} (h : c ∉ part) (rest : List Char) :
    splitAround c (part ++ c :: rest) = part :: splitAround c rest := by
  induction part with
  | nil => exact if_pos rfl
  | cons d part ih =>
    obtain ⟨hd, hpart⟩ := not_or.1 (mt List.mem_cons.2 h)
    rw [List.cons_append, splitAround, if_neg (Ne.symm hd), ih hpart]

theorem splitAround_pointer (key : String) (keys : List String) :
    splitAround '/' (escapePart key.toList ++ pointerOf keys) =
      (key :: keys).map fun key => escapePart key.toList := by
  induction keys generalizing key with
  | nil =>
    rw [pointerOf, List.flatMap_nil, List.append_nil,
      splitAround_of_not_mem (slash_not_mem_escapePart _)]
    rfl
  | cons next keys ih =>
    rw [pointerOf_cons, splitAround_append (slash_not_mem_escapePart _), ih]
    rfl

/-- The parts of the pointer that leads through keys are the keys. -/
theorem pointerParts?_pointerOf (keys : List String) :
    pointerParts? (pointerOf keys) = some (keys.map String.toList) := by
  cases keys with
  | nil => rfl
  | cons key keys =>
    show (splitAround '/' (escapePart key.toList ++ pointerOf keys)).mapM unescapePart? = _
    rw [splitAround_pointer]
    induction key :: keys with
    | nil => rfl
    | cons key keys ih =>
      rw [List.map_cons, List.mapM_cons, unescapePart?_escapePart, ih]
      rfl

/-! ## Values under keys -/

/-- The value that stands under keys, one inside the other. -/
def Value.memberAt? : Value → List String → Option Value
  | v, [] => some v
  | v, key :: keys => (v.member? key).bind (·.memberAt? keys)

theorem Value.step_of_member? {v w : Value} {key : String} (h : v.member? key = some w) :
    v.step key.toList = .ok w := by
  cases v with
  | object entries =>
    have hlookup : entries.lookup key = some w := h
    rw [step, if_neg (by simp [isSequence]), child, String.ofList_toList, hlookup]
  | _ => cases h

theorem Value.walk_of_memberAt? {v w : Value} {keys : List String} (h : v.memberAt? keys = some w) :
    v.walk (keys.map String.toList) = .ok w := by
  induction keys generalizing v with
  | nil => exact congrArg Except.ok (Option.some.inj h)
  | cons key keys ih =>
    obtain ⟨u, hu, hw⟩ := Option.bind_eq_some_iff.1 h
    rw [List.map_cons, walk, step_of_member? hu]
    exact ih hw

/-- The pointer that leads through keys leads to what stands under them. -/
theorem Value.at_pointerOf {v w : Value} {keys : List String} (h : v.memberAt? keys = some w) :
    v.at (pointerOf keys) = .ok w := by
  unfold Value.at
  rw [pointerParts?_pointerOf]
  exact walk_of_memberAt? h

end ApiProto
