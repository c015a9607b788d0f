import ApiProto.Json.Reader
import ApiProto.Libraries
import ApiProto.Uri.Path
import ApiProto.Uri.Url

/-!
# Decoding documents

* `Format` — the formats of documents.
* `Format.ofLocation` — the format that the extension of a location asks for.
* `textKeyed` — data with texts for keys.
* `decode` — the value of a text. Without a known extension a text is JSON if it can be.
-/

namespace ApiProto.Source

open Uri

/-- The formats of documents. -/
inductive Format where
  | json
  | yaml
deriving DecidableEq, Inhabited, Repr

/-- The format that the extension of a location asks for. -/
def Format.ofLocation (location : String) : Except Error (Option Format) := do
  let url ← Url.parse location.toList
  let extension := String.ofList ((splitExtension url.path).2.map Char.toLower)
  return if extension = ".yaml" ∨ extension = ".yml" then some .yaml
    else if extension = ".json" then some .json
    else none

/-- The text of a key (`_key`). -/
def keyText : Value → String
  | .bool b => if b then "true" else "false"
  | v => v.display

mutual

/-- The value of data, with the texts of keys for keys (`stringify_keys`). Of entries whose keys
have the same text the first gives the place and the last the value. -/
def textKeyed : Yaml.Data → Value
  | .plain v => v
  | .list items => .list (textKeyedItems items)
  | .mapping entries => .object (collectEntries (textKeyedEntries entries))

/-- The values of the items of a list. -/
def textKeyedItems : List Yaml.Data → List Value
  | [] => []
  | data :: rest => textKeyed data :: textKeyedItems rest

/-- The entries of a mapping. -/
def textKeyedEntries : List (Value × Yaml.Data) → List (String × Value)
  | [] => []
  | (key, data) :: rest => (keyText key, textKeyed data) :: textKeyedEntries rest

end

/-- The value of a YAML text from a given location. -/
def decodeYaml [Libraries] (text location : String) : Except Error Value :=
  match Libraries.readYaml text with
  | .ok data => .ok (textKeyed data)
  | .error .malformed => fail (.load location .malformed)
  | .error (.meaningless reason) => fail (.meaningless reason)
  | .error (.unexpectedKind kind member) => fail (.unexpectedKind kind member)
  | .error (.unusableValue reason) => fail (.unusableValue reason)

/-- The value of a text from a given location. -/
def decode [Libraries] (text location : String) : Except Error Value := do
  match ← Format.ofLocation location, Json.read? text with
  | some .yaml, _ => decodeYaml text location
  | some .json, none => fail (.load location .malformed)
  | none, none => decodeYaml text location
  | _, some v => return v

end ApiProto.Source
