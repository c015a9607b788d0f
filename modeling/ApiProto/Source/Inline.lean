import ApiProto.Source.Loader
import ApiProto.Uri.Reference
import ApiProto.Value.Access

/-!
# Inlining other documents

An object with a reference into another document stands for what is found there. References in what
is found are read from the place of the other document.

* `Target` — where a reference leads, and `openTarget`, what is found there.
* `inlineWithin` — a value in which references into other documents are replaced, up to a depth.
* `inlineExternal` — a value in which all of them are replaced.
-/

namespace ApiProto.Source

open Uri Text

/-- Where a reference leads: a document and a pointer into it, percent-encoded. -/
structure Target where
  uri : String
  fragment : String
deriving DecidableEq, Inhabited, Repr

namespace Target

/-- The text that names a target. -/
def key (t : Target) : String := t.uri ++ "#" ++ t.fragment

/-- Where a reference leads, seen from `base`. -/
def ofReference (base ref : String) : Except Error Target := do
  let (location, fragment) := (cutFirst '#' ref.toList).getD (ref.toList, [])
  return ⟨← composeUri base (String.ofList location), String.ofList fragment⟩

/-- What is found at a target in its document. -/
def find [Libraries] (t : Target) (doc : Value) : Except Error Value :=
  if t.fragment.isEmpty then .ok doc
  else match Libraries.lookUp doc (percentDecode t.fragment.toList) with
    | .ok v => .ok v
    | .error .missing => fail (.load t.key .missingFragment)
    | .error (.meaningless reason) => fail (.meaningless reason)

end Target

/-- The reference into another document that an object stands for. -/
def externalRef? (entries : List (String × Value)) : Option String :=
  match entries.lookup "$ref" with
  | some (.text ref) => if isExternal ref then some ref else none
  | _ => none

/-- Opens the target of a reference seen from `base`: the target, and what is found there. A target
whose key is on the path that led here is circular. -/
def openTarget [Libraries] (world : World) (path : List String) (base ref : String) :
    LoadM (Target × Value) := do
  let target ← LoadM.ofExcept (Target.ofReference base ref)
  if path.contains target.key then throw (.of (.load target.key .circular))
  let doc ← document world target.uri
  let found ← LoadM.ofExcept (target.find doc)
  return (target, found)

/-- A step of inlining. It returns nothing where it is left off. -/
abbrev InlineM := ExceptT Error (StateT Loader Option)

namespace InlineM

/-- Loading as a step of inlining. -/
def ofLoad {α : Type} (m : LoadM α) : InlineM α := ExceptT.mk fun l => some (m.step l)

/-- A step that is left off. -/
def leftOff {α : Type} : InlineM α := ExceptT.mk fun _ => none

end InlineM

mutual

/-- A value in which every object that stands for a reference into another document is replaced by
what `follow` gives for the reference. -/
def replaceExternal (follow : String → InlineM Value) : Value → InlineM Value
  | .list items => return .list (← replaceItems follow items)
  | .object entries =>
    match externalRef? entries with
    | some ref => follow ref
    | none => return .object (← replaceEntries follow entries)
  | v => return v

/-- The same for the items of a list. -/
def replaceItems (follow : String → InlineM Value) : List Value → InlineM (List Value)
  | [] => return []
  | v :: rest => do
    let v ← replaceExternal follow v
    return v :: (← replaceItems follow rest)

/-- The same for the entries of an object. -/
def replaceEntries (follow : String → InlineM Value) :
    List (String × Value) → InlineM (List (String × Value))
  | [] => return []
  | (key, v) :: rest => do
    let v ← replaceExternal follow v
    return (key, v) :: (← replaceEntries follow rest)

end

/-- A value at `base` with all references into other documents replaced by what they lead to. `path`
are the keys of the targets that led here. It is left off where more than some number of values lie
inside each other. -/
def inlineWithin [Libraries] (world : World) (path : List String) (base : String) (v : Value) :
    Nat → InlineM Value
  | 0 => InlineM.leftOff
  | depth + 1 => replaceExternal (fun ref => do
      let opened ← InlineM.ofLoad (openTarget world path base ref)
      inlineWithin world (opened.1.key :: path) opened.1.uri opened.2 depth) v

/-- What the first of some computations gives that gives something, from the one with number `n`
on. -/
def firstOf {α : Type} [Nonempty α] (f : Nat → Option α) (n : Nat) : α :=
  WellFounded.partialExtrinsicFix (fun next n => next = n + 1 ∧ f n = none)
    (fun n more => match h : f n with
      | some a => a
      | none => more (n + 1) ⟨rfl, h⟩) n

/-- A value at `base` with all references into other documents replaced (`resolve_external`). No
depth is given: the targets that lie inside each other have different keys, so that some depth is
enough. -/
def inlineExternal [Libraries] (world : World) (base : String) (node : Value) : LoadM Value :=
  ExceptT.mk fun l => firstOf (inlineWithin world [] base node · l) 0

end ApiProto.Source
