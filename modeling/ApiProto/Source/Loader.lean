import ApiProto.Source.Decode
import ApiProto.Source.World
import ApiProto.Uri.Percent

/-!
# Reading documents

* `Loader` — what has been read so far. Nothing is read twice.
* `fetch` — the text at a URL.
* `document` — the decoded document at a URL.
-/

namespace ApiProto.Source

open Uri

/-- What has been read so far (`OpenApiLoader`). -/
structure Loader where
  /-- Texts by URL. -/
  contents : List (String × String)
  /-- Decoded documents by the location that was asked for. -/
  documents : List (String × Value)
  /-- The places that were read, in order, whether there was a text or not. -/
  opened : List String
deriving Inhabited, Repr

/-- Nothing has been read. -/
def Loader.empty : Loader := ⟨[], [], []⟩

/-- A step of loading. What has been read remains known when a step fails. -/
abbrev LoadM := ExceptT Error (StateM Loader)

/-- Runs a step. -/
def LoadM.step {α : Type} (m : LoadM α) (l : Loader) : Except Error α × Loader :=
  (ExceptT.run m).run l

/-- A step that reads nothing. -/
def LoadM.ofExcept {α : Type} (r : Except Error α) : LoadM α := ExceptT.mk (pure r)

/-- The kinds of places that texts come from. -/
inductive Place where
  | page (url : String)
  | file (path : String)
  | unsupported (scheme : String)
deriving DecidableEq, Inhabited, Repr

/-- The place of a URL. The path of a `file` URL is percent-encoded, and an authority is put before
it. Without scheme the URL is a path. -/
def placeOf (u : Url) : Place :=
  let text := String.ofList u.text
  let scheme := String.ofList u.scheme
  if scheme = "http" ∨ scheme = "https" then .page text
  else if scheme = "file" then .file (String.ofList (u.authority ++ percentDecode u.path))
  else if scheme.isEmpty then .file text
  else .unsupported scheme

/-- Reads the text at a place, which is noted. -/
def readPlace (world : World) (place : Place) : LoadM (Except LoadFailure String) := do
  match place with
  | .page url =>
    modify fun l => { l with opened := l.opened ++ [url] }
    return (world.page url).mapError .unavailable
  | .file path =>
    modify fun l => { l with opened := l.opened ++ [path] }
    return (world.file path).mapError .unavailable
  | .unsupported scheme => return .error (.unsupportedScheme scheme)

/-- The text at a URL (`fetch_content`). -/
def fetch (world : World) (url : String) : LoadM String := do
  let u ← LoadM.ofExcept (Url.parse url.toList)
  let key := String.ofList u.text
  match (← get).contents.lookup key with
  | some text => return text
  | none =>
    match ← readPlace world (placeOf u) with
    | .error failure => throw (.of (.load key failure))
    | .ok text =>
      modify fun l => { l with contents := insertEntry key text l.contents }
      return text

/-- The decoded document at a URL (`load_document`). -/
def document [Libraries] (world : World) (url : String) : LoadM Value := do
  match (← get).documents.lookup url with
  | some doc => return doc
  | none =>
    let doc ← LoadM.ofExcept (decode (← fetch world url) url)
    modify fun l => { l with documents := insertEntry url doc l.documents }
    return doc

end ApiProto.Source
