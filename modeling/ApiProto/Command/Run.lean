import ApiProto.Command.Conversion
import ApiProto.Command.Request
import ApiProto.Command.Usage

/-!
# Running a command line

Standard input is converted by way of a temporary file, and what goes to standard output is first
written to a file in a temporary directory.

* `Outcome` — exit status, standard output, and the files afterwards.
* `places` — the places that a command line reads.
* `run` — the outcome of a command line.
-/

namespace ApiProto.Command

open Source

/-- What a run leads to. -/
structure Outcome where
  status : Nat
  output : String
  world : World
deriving DecidableEq, Inhabited, Repr

/-- Names for what exists during a run only. -/
structure Temporary where
  /-- The file with what was read from standard input. -/
  input : String
  /-- The directory of the output. -/
  directory : String
deriving DecidableEq, Inhabited, Repr

namespace Temporary

/-- The file that is written when standard output is asked for. Its name gives descriptions without
title the name of their package. -/
def output (t : Temporary) : String := t.directory ++ "/openapi.proto"

/-- The world with the input as a file, if it comes from standard input. -/
def openInput (t : Temporary) (settings : Settings) (input : String) (world : World) : World :=
  if settings.input.isNone then world.write t.input input else world

/-- The world without the file for the input. -/
def closeInput (t : Temporary) (settings : Settings) (world : World) : World :=
  if settings.input.isNone then world.remove t.input else world

/-- The world with a directory for the output, if that goes to standard output. -/
def openOutput (t : Temporary) (settings : Settings) (world : World) : World :=
  if settings.output.isNone then world.makeDirectories t.directory else world

/-- The world without the file and the directory for the output. -/
def closeOutput (t : Temporary) (settings : Settings) (world : World) : World :=
  if settings.output.isNone then (world.remove t.output).removeDirectory t.directory else world

/-- The conversion that settings ask for. -/
def conversion (t : Temporary) (settings : Settings) : Conversion where
  input := settings.input.getD t.input
  output := settings.output.getD t.output
  annotate := settings.annotate
  skipRpcs := settings.skipRpcs
  prefixEnums := settings.prefixEnums
  wrapPrimitives := settings.wrapPrimitives
  indent := settings.indent

end Temporary

/-- The announcement of a conversion to a file. -/
def announcement (settings : Settings) (c : Conversion) : String :=
  if settings.output.isNone || c.output.isEmpty then ""
  else "Executing Convert OpenAPI/Swagger document to Proto schema with input " ++ c.input ++
    " and output " ++ c.output ++ "\n"

/-- Runs the command for conversions. If it fails, what was made for the output remains. -/
def runConversion [Libraries] (t : Temporary) (settings : Settings) (input : String)
    (world : World) : Outcome :=
  let c := t.conversion settings
  let said := announcement settings c
  let world := t.openOutput settings (t.openInput settings input world)
  match c.run world with
  | (.error e, world) =>
    ⟨1, said ++ "Error:  " ++ e.message ++ "\n", t.closeInput settings world⟩
  | (.ok text, world) =>
    ⟨0, said ++ (if settings.output.isNone then text else ""),
      t.closeInput settings (t.closeOutput settings world)⟩

/-- The places that a command line reads. -/
def places [Libraries] (t : Temporary) (arguments : List String) (input : String)
    (world : World) : List String :=
  match Request.ofArguments arguments with
  | some (.convert settings) =>
    (t.conversion settings).places (t.openInput settings input world)
  | _ => []

/-- The outcome of a command line (`main`). -/
def run [Libraries] (t : Temporary) (arguments : List String) (input : String) (world : World) :
    Outcome :=
  match Request.ofArguments arguments with
  | none => ⟨2, "", world⟩
  | some .help => ⟨0, usage, world⟩
  | some .commandHelp => ⟨0, commandUsage, world⟩
  | some .version => ⟨0, versionText, world⟩
  | some (.convert settings) => runConversion t settings input world

end ApiProto.Command
