import ApiProto.Libraries
import ApiProto.Value.Access

/-!
# References inside a document

* `localRef?` — the reference that stands in place of a value of the same document.
* `dereference` — follows such references until there is none.
-/

namespace ApiProto.Document

open Text

/-- The reference into the same document that an object stands for. -/
def localRef? (node : Value) : Option String :=
  match node.member? "$ref" with
  | some (.text ref) => if beginsWith "#" ref then some ref else none
  | _ => none

/-- The value that a reference of the form `#/…` leads to. -/
def target [Libraries] (doc : Value) (ref : String) : Except Error Value :=
  match Libraries.lookUp doc (ref.toList.drop 1) with
  | .ok v => .ok v
  | .error .missing => fail (.unresolved ref)
  | .error (.meaningless reason) => fail (.meaningless reason)

/-- The error for a chain that comes back to `ref`. -/
def circularReference (ref : String) : Error :=
  (Error.of (.unresolved ref)).wrap "circular reference"

/-- Follows references for at most `steps` steps, having followed those in `seen`. -/
def dereferenceWithin [Libraries] (doc : Value) : Nat → List String → Value → Except Error Value
  | steps, seen, node =>
    match localRef? node with
    | none => .ok node
    | some ref =>
      if seen.contains ref then .error (circularReference ref)
      else match steps with
        | 0 => .error (circularReference ref)
        | steps + 1 => do
          let next ← target doc ref
          dereferenceWithin doc steps (ref :: seen) next

/-- Follows references until there is none (`_deref`). All references but the first belong to
different objects of the document, so their number is bounded by the number of objects. -/
def dereference [Libraries] (doc node : Value) : Except Error Value :=
  dereferenceWithin doc (doc.objectCount + 1) [] node

end ApiProto.Document
