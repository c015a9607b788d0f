import ApiProto.Value.Basic

/-!
# Equality of decoded documents

* `Value.same` — whether two values are equal, entry by entry and in the same order.
-/

namespace ApiProto.Value

mutual

/-- Whether two values are equal. -/
def same : Value → Value → Bool
  | .null, .null => true
  | .bool a, .bool b => a == b
  | .int a, .int b => a == b
  | .float a, .float b => a == b
  | .text a, .text b => a == b
  | .date a, .date b => a == b
  | .timestamp a, .timestamp b => a == b
  | .bytes a, .bytes b => a == b
  | .list a, .list b => sameItems a b
  | .object a, .object b => sameEntries a b
  | .pastEnd a, .pastEnd b => same a b
  | _, _ => false

/-- Whether two lists of values are equal. -/
def sameItems : List Value → List Value → Bool
  | [], [] => true
  | a :: as, b :: bs => same a b && sameItems as bs
  | _, _ => false

/-- Whether two lists of entries are equal. -/
def sameEntries : List (String × Value) → List (String × Value) → Bool
  | [], [] => true
  | (key, a) :: as, (key', b) :: bs => key == key' && same a b && sameEntries as bs
  | _, _ => false

end

mutual

theorem same_iff : ∀ {a b : Value}, a.same b = true ↔ a = b
  | .list items, b => by cases b <;> simp [same, sameItems_iff]
  | .object entries, b => by cases b <;> simp [same, sameEntries_iff]
  | .pastEnd sequence, b => by cases b <;> simp [same, same_iff]
  | .null, b | .bool _, b | .int _, b | .float _, b | .text _, b | .date _, b | .timestamp _, b
  | .bytes _, b => by cases b <;> simp [same]

theorem sameItems_iff : ∀ {as bs : List Value}, sameItems as bs = true ↔ as = bs
  | [], bs => by cases bs <;> simp [sameItems]
  | a :: as, bs => by cases bs <;> simp [sameItems, same_iff, sameItems_iff]

theorem sameEntries_iff : ∀ {as bs : List (String × Value)}, sameEntries as bs = true ↔ as = bs
  | [], bs => by cases bs <;> simp [sameEntries]
  | (key, a) :: as, bs => by
    rcases bs with _ | ⟨⟨key', b⟩, bs⟩ <;> simp [sameEntries, same_iff, sameEntries_iff]

end

instance : DecidableEq Value := fun _ _ => decidable_of_iff _ same_iff

end ApiProto.Value
