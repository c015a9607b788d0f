import ApiProto.Uri.Path
import ApiProto.Uri.Url
import ApiProto.Value.Basic

/-!
# Files and pages

* `World` — the texts that can be read: files by their paths, pages by their URLs.
* `World.read` — the text at a place, or the reason why there is none.
* `World.write`, `World.remove` — change of a file.
* `World.makeDirectories`, `World.removeDirectory` — change of directories.
-/

namespace ApiProto.Source

open Uri

/-- The texts that can be read, and what is known of directories. -/
structure World where
  /-- Texts by path or URL. -/
  texts : List (String × String)
  /-- Paths of directories. -/
  directories : List String
  /-- The path of the current directory. -/
  current : String
  /-- Reasons why places cannot be read, where they differ from the usual ones. -/
  faults : List (String × String)
deriving DecidableEq, Inhabited, Repr

namespace World

/-- A world of texts. The current directory is the root. -/
def ofTexts (texts : List (String × String)) : World := ⟨texts, [], "/", []⟩

/-- The number of characters of all texts and their places. -/
def size (w : World) : Nat :=
  w.texts.foldl (fun size (place, text) => size + place.length + text.length) 0

/-- Why a page that does not exist cannot be read. -/
def noPage (url : String) : String := "404 Client Error: Not Found for url: " ++ url

/-- Why a file that does not exist cannot be read. -/
def noFile : String := "No such file or directory"

/-- The text at a place. The reason `usual` holds for places without text. -/
def read (w : World) (place usual : String) : Except String String :=
  match w.texts.lookup place with
  | some text => .ok text
  | none => .error ((w.faults.lookup place).getD usual)

/-- A page. -/
def page (w : World) (url : String) : Except String String := w.read url (noPage url)

/-- The text of a file. -/
def file (w : World) (path : String) : Except String String := w.read path noFile

/-- Sets the text of a file. -/
def write (w : World) (path text : String) : World :=
  { w with texts := insertEntry path text w.texts }

theorem file_write (w : World) (path text : String) : (w.write path text).file path = .ok text := by
  simp [file, read, write, lookup_insertEntry]

/-- Removes a file. -/
def remove (w : World) (path : String) : World :=
  { w with texts := w.texts.filter fun (p, _) => p != path }

/-- A path without the slashes at its end. -/
def withoutSlashes (path : String) : String :=
  String.ofList (path.toList.reverse.dropWhile (· == '/')).reverse

/-- Whether a path is that of a directory. -/
def isDirectory (w : World) (path : String) : Bool :=
  let path := withoutSlashes path
  path.isEmpty || w.directories.contains path

/-- The paths of the directories down to a given one. -/
def directoriesTo (path : List Char) : List String :=
  let parts := segments path
  ((List.range parts.length).map fun n => withoutSlashes (String.ofList
    (joinSegments (parts.take (n + 1))))).filter (· ≠ "")

/-- Makes a directory and those around it. -/
def makeDirectories (w : World) (path : String) : World :=
  let new := (directoriesTo path.toList).filter fun d => !w.directories.contains d
  { w with directories := w.directories ++ new }

/-- Removes a directory. -/
def removeDirectory (w : World) (path : String) : World :=
  { w with directories := w.directories.filter (· != path) }

end World

end ApiProto.Source
