import ApiProto.Error
import ApiProto.Proto.Graph
import ApiProto.Sorting

/-!
# Field numbers

Explicit numbers are kept; all other fields take the smallest free numbers, in the order of their
names.

* `nextFree` — the smallest number from a given one on that is not taken.
* `assignNumbers` — the numbers of the fields of a message.
* `Message.addField` — appends a field with a number that is positive and not in use.
-/

namespace ApiProto.Proto

/-- The smallest number from `n` on that does not occur in `taken`. One of the next
`taken.length + 1` numbers does not. -/
def nextFree (taken : List Int) (n : Int) : Int :=
  let candidates := (List.range (taken.length + 1)).map fun (i : Nat) => n + (i : Int)
  (candidates.find? fun k => !taken.contains k).getD n

/-- The first `count` numbers from `n` on that do not occur in `taken`. -/
def freeNumbers (taken : List Int) : Nat → Int → List Int
  | 0, _ => []
  | count + 1, n =>
    let k := nextFree taken n
    k :: freeNumbers taken count (k + 1)

/-- A field name with its explicit number, zero if it has none, and its position. -/
abbrev Numbered := (String × Int) × Nat

/-- The order of explicit numbers: by number, name and position. -/
def explicitOrder (a b : Numbered) : Bool :=
  if a.1.2 ≠ b.1.2 then a.1.2 < b.1.2
  else if a.1.1 ≠ b.1.1 then a.1.1 < b.1.1
  else a.2 ≤ b.2

/-- The order of unnumbered fields: by name and position. -/
def nameOrder (a b : Numbered) : Bool :=
  if a.1.1 ≠ b.1.1 then a.1.1 < b.1.1 else a.2 ≤ b.2

/-- Checks explicit numbers in increasing order: none is negative, and no two are equal. `last` is
the number before. -/
def checkExplicit (message : String) (last : Option (String × Int)) :
    List Numbered → Except Error Unit
  | [] => .ok ()
  | ((name, number), _) :: rest =>
    if number < 0 then fail (.negativeNumber message name number)
    else match last with
      | some (other, k) =>
        if k = number then fail (.duplicateNumber message number [other, name])
        else checkExplicit message (some (name, number)) rest
      | none => checkExplicit message (some (name, number)) rest

/-- The numbers of the fields of a message, given their names and explicit numbers; zero stands for
no explicit number (`assign_field_numbers`). -/
def assignNumbers (message : String) (fields : List (String × Int)) : Except Error (List Int) :=
  let entries := fields.zipIdx
  let explicit := sortBy explicitOrder (entries.filter fun e => e.1.2 ≠ 0)
  let unnumbered := sortBy nameOrder (entries.filter fun e => e.1.2 = 0)
  match checkExplicit message none explicit with
  | .error e => .error e
  | .ok () =>
    let taken := explicit.map (·.1.2)
    let assigned := (unnumbered.map (·.2)).zip (freeNumbers taken unnumbered.length 1)
    .ok (entries.map fun e => if e.1.2 = 0 then (assigned.lookup e.2).getD 0 else e.1.2)

/-- Appends a field (`add_field`). Its number must be positive and not in use. -/
def Message.addField (m : Message) (f : Field TypeRef Value) : Except Error Message :=
  if f.number < 1 then fail (.invalidNumber m.name f.name f.number)
  else match m.fields.find? fun other => other.number == f.number with
    | some other => fail (.duplicateNumber m.name f.number [other.name, f.name])
    | none => .ok { m with fields := m.fields ++ [f] }

end ApiProto.Proto
