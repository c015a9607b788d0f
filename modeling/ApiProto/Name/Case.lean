import ApiProto.Text.Character
import ApiProto.Uri.Percent

/-!
# Names and their cases

Names keep ASCII letters and digits; every other character separates or is dropped. In snake case
lower-case words are joined by underscores. A word starts at an upper-case letter that follows
something else than an upper-case letter, and at the last letter of a row of capitals when a
lower-case letter or a digit comes after it.

* `squeeze` — a run of one character becomes a single one.
* `keepWords` — letters, digits and underscores; hyphens and spaces become underscores.
* `clean`, `allCaps` — an underscore for each other character, the second in upper case.
* `underscored` — an underscore for each run of other characters.
* `pascal` — letters and digits only, with a capital at the start and after every run of other
  characters. All other letters keep their case.
* `wordsOf` — the text that is broken into words: letters, digits and single underscores inside.
* `startsWord` — whether a character starts a word, judged by its neighbours.
* `snake` — the name in snake case.
* `enumValueName` — a listed value as an identifier in capitals: `N.Y.%20%2F%20Region` gives
  `NY_REGION`, and `foo & bar` gives `FOO_AND_BAR`.
-/

namespace ApiProto.Name

open Text

/-! ## Characters of names -/

/-- Replaces each run of `target` by a single one (`dedupe`). -/
def squeeze (target : Char) : List Char → List Char
  | [] => []
  | c :: rest =>
    if c = target ∧ rest.head? = some target then squeeze target rest
    else c :: squeeze target rest

/-- Keeps letters and digits, and turns underscores, hyphens and spaces into underscores
(`remove_non_alnum`). -/
def keepWords (cs : List Char) : List Char :=
  cs.filterMap fun c =>
    if c.isAlphanum then some c
    else if c = '_' ∨ c = '-' ∨ c = ' ' then some '_'
    else none

/-- Replaces each character that is no letter or digit by an underscore (`clean_characters`). -/
def clean (cs : List Char) : List Char := cs.map fun c => if c.isAlphanum then c else '_'

/-- Upper-case letters and digits, and an underscore for each other character (`all_caps`). -/
def allCaps (cs : List Char) : List Char := (clean cs).map Char.toUpper

/-- Replaces each run of characters that are no letters or digits by an underscore. `after` says
whether such a character comes before. -/
def underscoredFrom : Bool → List Char → List Char
  | _, [] => []
  | after, c :: rest =>
    if c.isAlphanum then c :: underscoredFrom false rest
    else if after then underscoredFrom true rest
    else '_' :: underscoredFrom true rest

/-- Replaces each run of characters that are no letters or digits by an underscore
(`normalize_field_name`). -/
def underscored (cs : List Char) : List Char := underscoredFrom false cs

/-- Whether all characters are digits (`looks_like_integer`). -/
def allDigits (cs : List Char) : Bool := cs.all Char.isDigit

/-! ## Pascal case -/

/-- Drops what is no letter or digit and writes a capital after it, and at the start if `fresh`. -/
def pascalFrom : Bool → List Char → List Char
  | _, [] => []
  | fresh, c :: rest =>
    if c.isAlphanum then (if fresh then c.toUpper else c) :: pascalFrom false rest
    else pascalFrom true rest

/-- The characters of a name in Pascal case. -/
def pascalChars (cs : List Char) : List Char := pascalFrom true cs

/-- A name in Pascal case. -/
def pascal (s : String) : String := String.ofList (pascalChars s.toList)

/-! ## Snake case -/

/-- Drops underscores at both ends. -/
def trimUnderscores (cs : List Char) : List Char :=
  dropEndWhile (· == '_') (cs.dropWhile (· == '_'))

/-- Letters and digits with single underscores between some of them. -/
def wordsOf (cs : List Char) : List Char := trimUnderscores (squeeze '_' (keepWords cs))

/-- A letter or digit that is not an upper-case letter. -/
def isLowerWord (c : Char) : Bool := c.isAlphanum && !c.isUpper

/-- Whether `c` starts a word between its neighbours. Nothing needs to be marked at the start of
the text or after an underscore. -/
def startsWord (before : Option Char) (c : Char) (after : Option Char) : Bool :=
  match before with
  | none => false
  | some b => c.isUpper && b != '_' && (!b.isUpper || after.any isLowerWord)

/-- Lower case with an underscore before each start of a word. -/
def breakWords (before : Option Char) : List Char → List Char
  | [] => []
  | c :: rest =>
    if startsWord before c rest.head? then '_' :: c.toLower :: breakWords (some c) rest
    else c.toLower :: breakWords (some c) rest

/-- The characters of a name in snake case. -/
def snakeChars (cs : List Char) : List Char := breakWords none (wordsOf cs)

/-- A name in snake case. -/
def snake (s : String) : String := String.ofList (snakeChars s.toList)

/-- A name in snake case in which all runs of other characters than letters and digits are single
underscores. -/
def fieldName (s : String) : String := String.ofList (underscored (snakeChars s.toList))

/-! ## Enum values -/

/-- Spells out each ampersand. -/
def spellAmpersands (cs : List Char) : List Char :=
  cs.flatMap fun c => if c = '&' then " AND ".toList else [c]

/-- A listed value in capitals (`normalize_enum_name`). Percent signs are decoded if all of them can
be. -/
def enumValueName (s : String) : String :=
  let cs := spellAmpersands s.toList
  String.ofList (allCaps (snakeChars ((Uri.queryDecode? cs).getD cs)))

end ApiProto.Name
