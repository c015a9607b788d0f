/-!
# Cutting text at a character

* `cutFirst` — cuts at the first occurrence of a character.
* `cutOr` — the same, with all the text in the first part if the character does not occur.
* `cutLast` — cuts at the last occurrence.
* `afterLast` — what follows the last occurrence, all the text if there is none.
* `splitAround` — cuts at all occurrences.
* `dropStart?`, `dropEnd` — removal of a fixed text at the start and at the end.
-/

namespace ApiProto.Text

/-- Cuts a text at the first occurrence of `c`, which belongs to neither part. -/
def cutFirst (c : Char) : List Char → Option (List Char × List Char)
  | [] => none
  | d :: rest =>
    if d = c then some ([], rest) else (cutFirst c rest).map fun (a, b) => (d :: a, b)

/-- A text before and after the first occurrence of a character; nothing comes after if it does not
occur. -/
def cutOr (c : Char) (cs : List Char) : List Char × List Char := (cutFirst c cs).getD (cs, [])

theorem eq_append_of_cutFirst {c : Char} {cs a b : List Char} (h : cutFirst c cs = some (a, b)) :
    cs = a ++ c :: b := by
  induction cs generalizing a with
  | nil => simp [cutFirst] at h
  | cons d rest ih =>
    simp only [cutFirst] at h
    split at h
    · simp_all
    · obtain ⟨⟨a', b'⟩, hr, heq⟩ := Option.map_eq_some_iff.1 h
      simp only [Prod.mk.injEq] at heq
      obtain ⟨rfl, rfl⟩ := heq
      simp [ih hr]

/-- Cuts a text at the last occurrence of `c`, which belongs to neither part. -/
def cutLast (c : Char) : List Char → Option (List Char × List Char)
  | [] => none
  | d :: rest =>
    match cutLast c rest with
    | some (a, b) => some (d :: a, b)
    | none => if d = c then some ([], rest) else none

/-- What follows the last occurrence of `c`; all the text if `c` does not occur. -/
def afterLast (c : Char) (cs : List Char) : List Char := ((cutLast c cs).map (·.2)).getD cs

/-- The parts of a text between the occurrences of `c`; there is always at least one. -/
def splitAround (c : Char) : List Char → List (List Char)
  | [] => [[]]
  | d :: rest =>
    if d = c then [] :: splitAround c rest
    else match splitAround c rest with
      | [] => [[d]]
      | part :: parts => (d :: part) :: parts

/-- What follows `start` in a text that begins with it. -/
def dropStart? : List Char → List Char → Option (List Char)
  | [], cs => some cs
  | _ :: _, [] => none
  | s :: start, c :: cs => if s = c then dropStart? start cs else none

/-- The text without `ending` at its end, if it ends so. -/
def dropEnd (ending cs : List Char) : List Char :=
  match dropStart? ending.reverse cs.reverse with
  | some rest => rest.reverse
  | none => cs

/-- What follows `start` in a string that begins with it. -/
def stringAfter? (start s : String) : Option String :=
  (dropStart? start.toList s.toList).map String.ofList

/-- Whether a string begins with `start`. -/
def beginsWith (start s : String) : Bool := (dropStart? start.toList s.toList).isSome

/-- The string without `ending` at its end, if it ends so. -/
def withoutEnd (ending s : String) : String := String.ofList (dropEnd ending.toList s.toList)

theorem dropStart?_append (start rest : List Char) :
    dropStart? start (start ++ rest) = some rest := by
  induction start with
  | nil => rfl
  | cons s start ih => simp [dropStart?, ih]

theorem eq_append_of_dropStart? {start cs rest : List Char} (h : dropStart? start cs = some rest) :
    cs = start ++ rest := by
  induction start generalizing cs with
  | nil => simpa [dropStart?] using h
  | cons s start ih =>
    cases cs with
    | nil => simp [dropStart?] at h
    | cons c cs =>
      simp only [dropStart?] at h
      split at h
      · next hc => rw [hc, ih h, List.cons_append]
      · simp at h

theorem stringAfter?_append (start name : String) : stringAfter? start (start ++ name) = some name := by
  simp [stringAfter?, dropStart?_append]

theorem eq_append_of_stringAfter? {start ref name : String} (h : stringAfter? start ref = some name) :
    ref = start ++ name := by
  obtain ⟨rest, hrest, rfl⟩ := Option.map_eq_some_iff.1 h
  have hlist := eq_append_of_dropStart? hrest
  rw [← String.ofList_toList (s := ref), hlist, String.ofList_append, String.ofList_toList]

end ApiProto.Text
