import ApiProto.Number.IntegerText
import ApiProto.Text.Cut
import ApiProto.Value.Literal

/-!
# Pointers into documents

A pointer is a list of keys and indices, each after a slash; `~1` stands for a slash in a key and
`~0` for a tilde.

* `pointerParts?` — the parts of a pointer.
* `Value.child`, `Value.step` — the value that one part leads to, without and with the hyphen that
  stands for the end of a sequence.
* `Value.walk`, `Value.at` — the values that parts and whole pointers lead to.
* `Value.Contains` — what pointers into a value can lead to.
-/

namespace ApiProto

open Text

/-- Why a pointer leads nowhere. -/
inductive PointerFault where
  | missing
  /-- A part of it has the form of an index and denotes none. -/
  | meaningless (reason : String)
deriving DecidableEq, Inhabited, Repr

/-- Replaces the escapes of a part. A tilde must be followed by a zero or a one. -/
def unescapePart? : List Char → Option (List Char)
  | [] => some []
  | '~' :: '0' :: rest => (unescapePart? rest).map ('~' :: ·)
  | '~' :: '1' :: rest => (unescapePart? rest).map ('/' :: ·)
  | c :: rest => if c = '~' then none else (unescapePart? rest).map (c :: ·)

/-- The parts of a pointer, which is empty or starts with a slash. -/
def pointerParts? (pointer : List Char) : Option (List (List Char)) :=
  match pointer with
  | [] => some []
  | '/' :: rest => (splitAround '/' rest).mapM unescapePart?
  | _ => none

/-- The index that a part denotes. Any part that starts with a zero is taken for a number; others
are numbers without leading zeros. -/
def indexOf (part : List Char) : Except PointerFault Nat :=
  match part with
  | '0' :: _ =>
    match integerOf? part with
    | some n => .ok n.toNat
    | none => .error (.meaningless
        ("invalid literal for int() with base 10: " ++ literalText (String.ofList part)))
  | c :: rest =>
    let ds := match rest.reverse with
      | '\n' :: before => before.reverse
      | _ => rest
    if c.isDigit && ds.all Char.isDigit then
      .ok ((c :: ds).foldl (fun n d => n * 10 + (d.toNat - '0'.toNat)) 0)
    else .error .missing
  | [] => .error .missing

/-- The item at the index that a part denotes. -/
def itemAt (items : List Value) (part : List Char) : Except PointerFault Value := do
  let n ← indexOf part
  match items[n]? with
  | some v => .ok v
  | none => .error .missing

/-- The value under a key or at an index. Texts and binary data can be indexed like lists. -/
def Value.child (v : Value) (part : List Char) : Except PointerFault Value :=
  match v with
  | .object entries =>
    match entries.lookup (String.ofList part) with
    | some v => .ok v
    | none => .error .missing
  | .list items => itemAt items part
  | .text _ | .bytes _ => itemAt (v.items?.getD []) part
  | _ => .error .missing

/-- Whether a value can be indexed. -/
def Value.isSequence : Value → Bool
  | .list _ | .text _ | .bytes _ => true
  | _ => false

/-- The value that a part leads to from another. A hyphen leads to the place after the last item of
a sequence. -/
def Value.step (v : Value) (part : List Char) : Except PointerFault Value :=
  if part = ['-'] ∧ v.isSequence then .ok (.pastEnd v) else v.child part

/-- The value that a list of parts leads to. -/
def Value.walk (v : Value) : List (List Char) → Except PointerFault Value
  | [] => .ok v
  | part :: rest => (v.step part).bind fun w => w.walk rest

/-- The value that a pointer leads to. -/
def Value.at (v : Value) (pointer : List Char) : Except PointerFault Value :=
  match pointerParts? pointer with
  | some parts => v.walk parts
  | none => .error .missing

/-! ## What pointers lead to -/

namespace Value

/-- A value that is found under a key or at an index of another. -/
inductive Below : Value → Value → Prop
  | entry {entries : List (String × Value)} {key : String} {w : Value} :
      entries.lookup key = some w → Below (.object entries) w
  | item {items : List Value} {w : Value} : w ∈ items → Below (.list items) w
  | character {s : String} {c : Char} : c ∈ s.toList →
      Below (.text s) (.text (String.singleton c))
  | byte {data : List Nat} {n : Nat} : n ∈ data → Below (.bytes data) (.int (Int.ofNat n))

/-- A value is another one, or a part of it, or the place after the last item of one of these. -/
inductive Contains : Value → Value → Prop
  | self (v : Value) : Contains v v
  | inner {v u w : Value} : Below v u → Contains u w → Contains v w
  | pastEnd (v : Value) : Contains v (.pastEnd v)

theorem mem_of_itemAt {items : List Value} {part : List Char} {v : Value}
    (h : itemAt items part = .ok v) : v ∈ items := by
  unfold itemAt at h
  rcases hn : indexOf part with e | n <;> rw [hn] at h
  · cases h
  · dsimp only [bind, Except.bind] at h
    split at h
    · next hitem => exact Except.ok.inj h ▸ List.mem_of_getElem? hitem
    · cases h

theorem below_of_child {v w : Value} {part : List Char} (h : v.child part = .ok w) :
    v.Below w := by
  cases v with
  | object entries =>
    simp only [child] at h
    split at h
    · next hlookup => exact Except.ok.inj h ▸ .entry hlookup
    · cases h
  | list items => exact .item (mem_of_itemAt h)
  | text s =>
    have hmem : w ∈ s.toList.map fun c => text (String.singleton c) := mem_of_itemAt h
    obtain ⟨c, hc, rfl⟩ := List.mem_map.1 hmem
    exact .character hc
  | bytes data =>
    have hmem : w ∈ data.map fun n => int (Int.ofNat n) := mem_of_itemAt h
    obtain ⟨n, hn, rfl⟩ := List.mem_map.1 hmem
    exact .byte hn
  | _ => cases h

theorem contains_of_walk {v w : Value} {parts : List (List Char)} (h : v.walk parts = .ok w) :
    v.Contains w := by
  induction parts generalizing v with
  | nil => exact Except.ok.inj h ▸ .self v
  | cons part rest ih =>
    rw [walk, step] at h
    split at h
    · cases rest with
      | nil => exact Except.ok.inj h ▸ .pastEnd v
      | cons next rest =>
        have hnone : (pastEnd v).step next = .error .missing := by
          rw [step, if_neg (by simp [isSequence])]
          rfl
        rw [Except.bind, walk, hnone] at h
        cases h
    · rcases hchild : v.child part with e | u <;> rw [hchild] at h
      · cases h
      · exact .inner (below_of_child hchild) (ih h)

/-- What a pointer leads to is in the document. -/
theorem contains_of_at {v w : Value} {pointer : List Char} (h : v.at pointer = .ok w) :
    v.Contains w := by
  unfold Value.at at h
  split at h
  · exact contains_of_walk h
  · cases h

end Value

end ApiProto
