import ApiProto.Error
import ApiProto.Uri.Host
import ApiProto.Uri.Path

/-!
# URLs

* `Url.parse` — the parts of a URL.
* `Url.text` — the URL of parts.
* `joinUrl` — a reference seen from a base URL.
-/

namespace ApiProto.Uri

open Text

/-- The parts of a URL. Parameters are what follows a semicolon in the last segment of the path. -/
structure Url where
  scheme : List Char
  authority : List Char
  path : List Char
  parameters : List Char
  query : List Char
  fragment : List Char
deriving DecidableEq, Inhabited, Repr

/-- Schemes under which references may be relative. -/
def relativeSchemes : List String := [
  "", "ftp", "http", "gopher", "nntp", "imap", "wais", "file", "https", "shttp", "mms", "prospero",
  "rtsp", "rtspu", "sftp", "svn", "svn+ssh", "ws", "wss"]

/-- Schemes with an authority. -/
def authoritySchemes : List String := [
  "", "ftp", "http", "gopher", "nntp", "telnet", "imap", "wais", "file", "mms", "https", "shttp",
  "snews", "prospero", "rtsp", "rtspu", "rsync", "svn", "svn+ssh", "sftp", "nfs", "git", "git+ssh",
  "ws", "wss"]

/-- Schemes with parameters. -/
def parameterSchemes : List String := [
  "", "ftp", "hdl", "prospero", "http", "imap", "https", "shttp", "rtsp", "rtspu", "sip", "sips",
  "mms", "sftp", "tel"]

/-- Whether a scheme belongs to a list of schemes. -/
def schemeIn (schemes : List String) (scheme : List Char) : Bool :=
  schemes.contains (String.ofList scheme)

/-- Drops control characters and spaces at the start, and tabs and line ends everywhere. -/
def sanitize (cs : List Char) : List Char :=
  (cs.dropWhile fun c => c.toNat ≤ 0x20).filter fun c => c ≠ '\t' ∧ c ≠ '\r' ∧ c ≠ '\n'

/-- Cuts a scheme off: a letter, then letters, digits, plus signs, hyphens and points up to a
colon. -/
def cutScheme (fallback : List Char) (cs : List Char) : List Char × List Char :=
  match cutFirst ':' cs with
  | some (c :: scheme, rest) =>
    if c.isAlpha && scheme.all fun d => d.isAlphanum || d == '+' || d == '-' || d == '.' then
      ((c :: scheme).map Char.toLower, rest)
    else (fallback, cs)
  | _ => (fallback, cs)

/-- Cuts an authority off, which follows two slashes. -/
def cutAuthority (cs : List Char) : List Char × List Char :=
  match cs with
  | '/' :: '/' :: rest =>
    (rest.takeWhile fun c => c ≠ '/' ∧ c ≠ '?' ∧ c ≠ '#',
      rest.dropWhile fun c => c ≠ '/' ∧ c ≠ '?' ∧ c ≠ '#')
  | _ => ([], cs)

/-- A path before and after the first semicolon of its last segment. -/
def cutParameters (path : List Char) : List Char × List Char :=
  match cutLast '/' path with
  | none => cutOr ';' path
  | some (before, last) =>
    let (last, parameters) := cutOr ';' last
    (before ++ '/' :: last, parameters)

/-- The parts of a URL. A URL without scheme gets the scheme `fallback`. -/
def Url.parseWith (fallback : List Char) (cs : List Char) : Except String Url :=
  let (scheme, rest) := cutScheme fallback (sanitize cs)
  let (authority, rest) := cutAuthority rest
  match bracketFault? authority with
  | some fault => .error fault
  | none =>
    let (rest, fragment) := cutOr '#' rest
    let (path, query) := cutOr '?' rest
    match deceptiveFault? authority with
    | some fault => .error fault
    | none =>
      let (path, parameters) :=
        if schemeIn parameterSchemes scheme then cutParameters path else (path, [])
      .ok ⟨scheme, authority, path, parameters, query, fragment⟩

/-- The parts of a URL. -/
def Url.parse (cs : List Char) : Except Error Url :=
  (Url.parseWith [] cs).mapError fun reason => .of (.meaningless reason)

/-- The URL of parts. Empty parts are left out. The two slashes of an authority are written if there
is one, and for schemes with an authority also if there is none, unless the path brings two slashes
along. -/
def Url.text (u : Url) : List Char :=
  let path := if u.parameters.isEmpty then u.path else u.path ++ ';' :: u.parameters
  let rooted := !u.authority.isEmpty ||
    (!u.scheme.isEmpty && schemeIn authoritySchemes u.scheme && path.take 2 != ['/', '/'])
  let path :=
    if rooted then
      '/' :: '/' :: u.authority ++
        (if path.isEmpty || path.head? == some '/' then path else '/' :: path)
    else path
  (if u.scheme.isEmpty then path else u.scheme ++ ':' :: path) ++
    (if u.query.isEmpty then [] else '?' :: u.query) ++
    (if u.fragment.isEmpty then [] else '#' :: u.fragment)

/-- Resolves a segment against the segments before it, which are given in reverse. -/
def resolveStep (kept : List (List Char)) (part : List Char) : List (List Char) :=
  if part = ['.', '.'] then kept.drop 1 else if part = ['.'] then kept else part :: kept

/-- Drops the empty segments between the first and the last. -/
def dropInnerEmpty (parts : List (List Char)) : List (List Char) :=
  match parts with
  | [] => []
  | first :: rest =>
    first :: (rest.dropLast.filter fun p => !p.isEmpty) ++ rest.drop (rest.length - 1)

/-- A path seen from the path of a base. -/
def resolvePath (base path : List Char) : List Char :=
  let parts :=
    if path.head? = some '/' then segments path
    else
      let baseParts := segments base
      let dirs := if baseParts.getLastD [] = [] then baseParts else baseParts.dropLast
      dropInnerEmpty (dirs ++ segments path)
  let kept := (parts.foldl resolveStep []).reverse
  let last := parts.getLastD []
  let kept := if last = ['.'] ∨ last = ['.', '.'] then kept ++ [[]] else kept
  let result := joinSegments kept
  if result.isEmpty then ['/'] else result

/-- A reference seen from a base URL. -/
def joinUrl (base reference : List Char) : Except Error (List Char) :=
  if base.isEmpty then .ok reference
  else if reference.isEmpty then .ok base
  else do
    let b ← Url.parse base
    let u ← (Url.parseWith b.scheme reference).mapError fun reason => .of (.meaningless reason)
    if u.scheme ≠ b.scheme ∨ !schemeIn relativeSchemes u.scheme then return reference
    if schemeIn authoritySchemes u.scheme && !u.authority.isEmpty then return u.text
    let u := if schemeIn authoritySchemes u.scheme then { u with authority := b.authority } else u
    if u.path.isEmpty && u.parameters.isEmpty then
      let query := if u.query.isEmpty then b.query else u.query
      return { u with path := b.path, parameters := b.parameters, query := query }.text
    return { u with path := resolvePath b.path u.path }.text

/-- Whether a location starts with a scheme of URLs, as opposed to being a path. -/
def isLocator (scheme : List Char) : Bool := schemeIn ["http", "https", "file"] scheme

/-- The `file` URL of a path. -/
def fileUrl (percentEncoded : List Char) : List Char := "file://".toList ++ percentEncoded

end ApiProto.Uri
