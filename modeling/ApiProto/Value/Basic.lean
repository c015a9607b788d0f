import ApiProto.Number.Binary64
import ApiProto.Value.Calendar

/-!
# Decoded documents

* `Value` — what a JSON or YAML text decodes to. Objects keep the order of their entries.
* `Value.member?`, `Value.entries?` — access to objects.
* `Value.isEmpty` — values that count as absent where a default applies.
* `Value.objectCount` — the number of objects in a value.
* `insertEntry` — puts an entry into an object: a key that occurs again keeps its place and takes
  the new value.
-/

namespace ApiProto

/-- A decoded value. -/
inductive Value where
  | null
  | bool (value : Bool)
  | int (value : Int)
  | float (value : Binary64)
  | text (value : String)
  | date (value : Date)
  | timestamp (value : Timestamp)
  | bytes (data : List Nat)
  | list (items : List Value)
  | object (entries : List (String × Value))
  /-- The place after the last item of a sequence, to which a pointer may lead. -/
  | pastEnd (sequence : Value)
deriving Inhabited, Repr

/-- Sets an entry: at the place of an entry of the same key, at the end otherwise. -/
def insertEntry {α : Type} (key : String) (value : α) : List (String × α) → List (String × α)
  | [] => [(key, value)]
  | (k, v) :: rest =>
    if k = key then (key, value) :: rest else (k, v) :: insertEntry key value rest

/-- An object from entries in writing order. -/
def collectEntries {α : Type} (entries : List (String × α)) : List (String × α) :=
  entries.foldl (fun done (key, value) => insertEntry key value done) []

namespace Value

/-- The entries of an object. -/
def entries? : Value → Option (List (String × Value))
  | .object entries => some entries
  | _ => none

/-- The text of a string value. -/
def text? : Value → Option String
  | .text s => some s
  | _ => none

/-- The value under a key of an object. -/
def member? (key : String) : Value → Option Value
  | .object entries => entries.lookup key
  | _ => none

/-- A value that counts as absent where a default applies: null, false, zero, and empty texts,
lists and objects. -/
def isEmpty : Value → Bool
  | .null => true
  | .bool b => !b
  | .int n => n == 0
  | .float x => x.isZero
  | .text s => s.isEmpty
  | .bytes data => data.isEmpty
  | .list items => items.isEmpty
  | .object entries => entries.isEmpty
  | .date _ | .timestamp _ | .pastEnd _ => false

/-- The name of a value's kind, as error messages give it. -/
def kindName : Value → String
  | .null => "NoneType"
  | .bool _ => "bool"
  | .int _ => "int"
  | .float _ => "float"
  | .text _ => "str"
  | .date _ => "date"
  | .timestamp _ => "datetime"
  | .bytes _ => "bytes"
  | .list _ => "list"
  | .object _ => "dict"
  | .pastEnd _ => "EndOfList"

/-- The items that a value gives when it is listed: those of a list, the characters of a text, the
keys of an object, the bytes of binary data. Other values cannot be listed. -/
def items? : Value → Option (List Value)
  | .list items => some items
  | .text s => some (s.toList.map fun c => .text (String.singleton c))
  | .object entries => some (entries.map fun (key, _) => .text key)
  | .bytes data => some (data.map fun n => .int (Int.ofNat n))
  | _ => none

mutual

/-- The number of objects in a value. -/
def objectCount : Value → Nat
  | .list items => objectCountList items
  | .object entries => objectCountEntries entries + 1
  | _ => 0

/-- The number of objects in the items of a list. -/
def objectCountList : List Value → Nat
  | [] => 0
  | v :: rest => v.objectCount + objectCountList rest

/-- The number of objects in the values of an object. -/
def objectCountEntries : List (String × Value) → Nat
  | [] => 0
  | (_, v) :: rest => v.objectCount + objectCountEntries rest

end

end Value

theorem lookup_insertEntry {α : Type} (key k : String) (value : α) (entries : List (String × α)) :
    (insertEntry key value entries).lookup k =
      if k = key then some value else entries.lookup k := by
  induction entries with
  | nil =>
    by_cases h : k = key
    · simp [insertEntry, h]
    · simp [insertEntry, List.lookup_cons, h, beq_false_of_ne h]
  | cons entry rest ih =>
    obtain ⟨k', v⟩ := entry
    simp only [insertEntry]
    by_cases hk : k' = key
    · subst hk
      by_cases h : k = k'
      · simp [h]
      · simp [List.lookup_cons, h, beq_false_of_ne h]
    · by_cases h : k = k'
      · subst h
        simp [hk]
      · simp [List.lookup_cons, hk, beq_false_of_ne h, ih]

end ApiProto
