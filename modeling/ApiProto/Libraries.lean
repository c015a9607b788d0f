import ApiProto.Value.Pointer
import ApiProto.Yaml.Reader

/-!
# What is left to libraries

Reading YAML and looking up pointers are not part of the program. What is said of the program holds
for all libraries that it may use, as far as it does not depend on what they find.

* `Libraries` — what libraries give, and what the program relies on.
* The instance — the libraries that the program runs with.
-/

namespace ApiProto

/-- What libraries give to the program. -/
class Libraries where
  /-- The data of a YAML text (`safe_load`). -/
  readYaml : String → Except Yaml.Fault Yaml.Data
  /-- The value that a pointer leads to in a document (`resolve_pointer`). -/
  lookUp : Value → List Char → Except PointerFault Value
  /-- Looking up a pointer finds what is in the document: the document itself, a part of it, or the
  place after the last item of one of these. -/
  contains_of_lookUp : ∀ {doc v : Value} {pointer : List Char},
    lookUp doc pointer = .ok v → doc.Contains v

instance : Libraries where
  readYaml := Yaml.read?
  lookUp := Value.at
  contains_of_lookUp := Value.contains_of_at

end ApiProto
