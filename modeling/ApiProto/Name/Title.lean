import ApiProto.Name.Case
import ApiProto.Text.Character

/-!
# Names from titles

* `joinWords` — a title without its white space.
* `packageName` — the package of a titled document: `Pet Store` gives `petstore`.
* `serviceName` — its service: `Pet Store` gives `PetStoreService`.
-/

namespace ApiProto.Name

open Text

/-- Drops white space, and writes a capital at the start of each word if `title`. `spaced` says
whether white space comes before. -/
def joinWordsFrom (title : Bool) : Bool → List Char → List Char
  | _, [] => []
  | spaced, c :: rest =>
    if isBlank c then joinWordsFrom title true rest
    else (if spaced && title then upper c else [c]) ++ joinWordsFrom title false rest

/-- Drops white space and writes a capital at the start of the text, and of each word if `title`
(`concat_spaces`). A text that starts with white space has no start of its own. -/
def joinWords (title : Bool) : List Char → List Char
  | [] => []
  | c :: rest =>
    if isBlank c then joinWordsFrom title true rest
    else upper c ++ joinWordsFrom title false rest

/-- The lower-case form of a character as far as ASCII letters are concerned: the dotted capital I
becomes the letter and a combining dot, the Kelvin sign the letter K. Characters without ASCII
letters in their lower-case form are kept. -/
def lowerAscii (c : Char) : List Char :=
  if c.toNat = 0x130 then ['i', Char.ofNat 0x307]
  else if c.toNat = 0x212A then ['k']
  else [c.toLower]

/-- The package name of a title (`package_name`). -/
def packageName (title : String) : String :=
  String.ofList (clean ((joinWords false title.toList).flatMap lowerAscii))

/-- The service name of a title (`service_name`). -/
def serviceName (title : String) : String :=
  String.ofList (pascalChars (joinWords true title.toList ++ "Service".toList))

end ApiProto.Name
