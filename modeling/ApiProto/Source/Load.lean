import ApiProto.Document.SpecReader
import ApiProto.Source.Inline

/-!
# Loading descriptions

* `load` — the description at a path or URL.
* `loadText` — the description in a text. References into other documents are seen from a location.
-/

namespace ApiProto.Source

open Uri Document

/-- The description in a decoded document at `uri`. -/
def describe [Libraries] (world : World) (location uri : String) (doc : Value) : LoadM Spec := do
  let doc ← inlineExternal world uri doc
  if doc.entries?.isNone then throw (.of (.load location .notObject))
  LoadM.ofExcept (Spec.read doc)

/-- The description at a path or URL (`load_openapi`). -/
def load [Libraries] (world : World) (location : String) : LoadM Spec := do
  let uri ← LoadM.ofExcept (locate world.current location)
  let doc ← document world uri
  describe world location uri doc

/-- The description in a text (`load_openapi_from_string`). -/
def loadText [Libraries] (world : World) (text location : String) : LoadM Spec := do
  let uri ← LoadM.ofExcept (locate world.current location)
  let doc ← LoadM.ofExcept (decode text uri)
  describe world location uri doc

end ApiProto.Source
