import ApiProto.Command.Run

/-!
# The program

What a command line leads to is a function of the texts that can be read. The program reads the
texts that are asked for until no more are, and then does what the outcome says.
-/

open ApiProto ApiProto.Source ApiProto.Command

namespace ApiProto.Program

/-- The text at a place, or the reason why there is none. -/
def readAt (place : String) : IO (Except String String) := do
  if place.startsWith "http://" || place.startsWith "https://" then
    return .error "pages cannot be read"
  try
    return .ok (← IO.FS.readFile place)
  catch
    | .noFileOrDirectory .. => return .error World.noFile
    | .permissionDenied .. => return .error "Permission denied"
    | e => return .error (toString e)

/-- The world with a place looked up. -/
def lookUp (world : World) (place : String) : IO World := do
  match ← readAt place with
  | .ok text => return { world with texts := world.texts ++ [(place, text)] }
  | .error reason => return { world with faults := world.faults ++ [(place, reason)] }

/-- Whether a place has not been looked up yet. -/
def isNew (world : World) (place : String) : Bool :=
  (world.texts.lookup place).isNone && (world.faults.lookup place).isNone

/-- Looks up places until all that are asked for have been. -/
partial def gather (asked : World → List String) (world : World) : IO World := do
  match ((asked world).filter (isNew world)).eraseDups with
  | [] => return world
  | new => gather asked (← new.foldlM lookUp world)

/-- Writes the files that an outcome adds. -/
def writeNew (before after : World) : IO Unit := do
  for (path, text) in after.texts do
    if before.texts.lookup path != some text then
      let directory := String.ofList (Uri.directory path.toList)
      if !directory.isEmpty then IO.FS.createDirAll directory
      IO.FS.writeFile path text

/-- Whether a command line asks for standard input. -/
def readsInput (arguments : List String) : Bool :=
  match Request.ofArguments arguments with
  | some (.convert settings) => settings.input.isNone
  | _ => false

/-- Runs a command line. -/
def runProgram (arguments : List String) : IO UInt32 := do
  let input ← if readsInput arguments then (← IO.getStdin).readToEnd else pure ""
  let current ← IO.currentDir
  let start : World := { World.ofTexts [] with current := current.toString }
  let temporary : Temporary := ⟨"/tmp/apiproto-input.yaml", "/tmp/apiproto-output"⟩
  let asked := fun world => (places temporary arguments input world).filter (· != temporary.input)
  let world ← gather asked start
  let outcome := run temporary arguments input world
  writeNew world outcome.world
  IO.print outcome.output
  if outcome.status == 2 then IO.eprint usage
  return outcome.status.toUInt32

end ApiProto.Program

/-- Runs the command line of the process. -/
def main (arguments : List String) : IO UInt32 := ApiProto.Program.runProgram arguments
