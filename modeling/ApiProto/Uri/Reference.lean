import ApiProto.Uri.Percent
import ApiProto.Uri.Url

/-!
# References between documents

* `isExternal` — whether a reference leads to another document.
* `composeUri` — the location of a referenced document, seen from the document with the reference.
* `locate` — the URL of a document that is given by a path or a URL.
-/

namespace ApiProto.Uri

open Text

/-- Whether a reference leads to another document (`is_external_ref`). References into the protobuf
library do not. -/
def isExternal (ref : String) : Bool := !beginsWith "google/protobuf/" ref && !beginsWith "#" ref

/-- The location `url` seen from the location `base` (`compose_uri`). Relative to a file only the
path counts, and the result is in normal form. A scheme of one letter is taken for the name of a
drive. -/
def composeUri (base url : String) : Except Error String := do
  let u ← Url.parse url.toList
  if 1 < u.scheme.length then return String.ofList u.text
  if u.path.isEmpty && u.authority.isEmpty then return base
  if beginsWith "file" base then
    let b ← Url.parse base.toList
    let directory := directory (percentDecode b.path)
    let path := normalize (join directory (percentDecode u.path))
    return String.ofList (fileUrl (percentEncode path))
  let joined ← joinUrl base.toList u.text
  return String.ofList joined

/-- The URL of a document that is given by a path, as seen from the directory `current`, or by a
URL. -/
def locate (current location : String) : Except Error String := do
  let u ← Url.parse location.toList
  if isLocator u.scheme then return location
  return String.ofList (fileUrl (percentEncode (absolute current.toList location.toList)))

end ApiProto.Uri
