import ApiProto.Command.Word
import ApiProto.Number.IntegerText

/-!
# Requests

* `Settings` — what the command for conversions is asked to do.
* `Request` — what the program is asked to do.
* `Request.ofArguments` — the request of a command line.
-/

namespace ApiProto.Command

/-- What the command for conversions is asked to do. -/
structure Settings where
  /-- The path or URL of the description; standard input if it is missing. -/
  input : Option String
  /-- The path of the file to write; standard output if it is missing. -/
  output : Option String
  annotate : Bool
  skipRpcs : Bool
  prefixEnums : Bool
  wrapPrimitives : Bool
  /-- The number of spaces of a step of indentation; missing if the option got no number. -/
  indent : Option Int
deriving DecidableEq, Inhabited, Repr

/-- What holds without options. -/
def Settings.default : Settings := ⟨none, none, false, false, false, false, some 4⟩

/-- What the program is asked to do. -/
inductive Request where
  /-- To explain itself. -/
  | help
  /-- To explain the command for conversions. -/
  | commandHelp
  | version
  | convert (settings : Settings)
deriving DecidableEq, Inhabited, Repr

/-- Why reading a command line ends early. -/
inductive Stop where
  /-- The command line means nothing. -/
  | misuse
  /-- It asks for an explanation. -/
  | help
deriving DecidableEq, Inhabited, Repr

/-- What the option for help asks for. Letters attached to it may only repeat it. -/
def askHelp (attached : Attached) : Stop :=
  match attached with
  | .nothing => .help
  | .letters text => if !text.isEmpty && text.toList.all (· == 'h') then .help else .misuse
  | .value _ => .misuse

/-! ## The command for conversions -/

/-- The options of the command. -/
inductive Flag where
  | help
  | output
  | annotate
  | skipRpcs
  | prefixEnums
  | wrapPrimitives
  | indent
deriving DecidableEq, Inhabited, Repr

/-- The names of the options. -/
def Flag.names : List (String × Flag) := [
  ("-h", .help), ("--help", .help), ("--out", .output), ("--annotate", .annotate),
  ("--skip-rpcs", .skipRpcs), ("--namespace-enums", .prefixEnums),
  ("--wrap-primitives", .wrapPrimitives), ("--indent", .indent)]

/-- Switches an option on that takes no value. -/
def Settings.switch (s : Settings) : Flag → Settings
  | .annotate => { s with annotate := true }
  | .skipRpcs => { s with skipRpcs := true }
  | .prefixEnums => { s with prefixEnums := true }
  | .wrapPrimitives => { s with wrapPrimitives := true }
  | .help | .output | .indent => s

/-- The value in what is attached to an option. Two hyphens are no value. -/
def attachedValue (text : String) : Option String := if text = "--" then none else some text

/-- Gives an option its value, if there is one. -/
def Settings.give (s : Settings) (flag : Flag) (value : Option String) : Except Stop Settings :=
  match flag, value with
  | .output, value => .ok { s with output := some (value.getD "") }
  | .indent, none => .ok { s with indent := none }
  | .indent, some value =>
    match integerOf? value.toList with
    | some n => .ok { s with indent := some n }
    | none => .error .misuse
  | _, _ => .error .misuse

/-- Whether an option takes a value. -/
def Flag.takesValue : Flag → Bool
  | .output | .indent => true
  | _ => false

/-- What has been read of the command. -/
structure Reading where
  settings : Settings
  /-- Whether the input may still come. -/
  inputOpen : Bool
  /-- Whether there were words without meaning. -/
  surplus : Bool
deriving DecidableEq, Inhabited, Repr

/-- Takes a plain word, which is the input if that has not come yet. -/
def Reading.plain (r : Reading) (text : String) : Reading :=
  if r.inputOpen then
    { r with settings := { r.settings with input := some text }, inputOpen := false }
  else { r with surplus := true }

/-- Takes two hyphens with no plain word beside them, which may only stand for a missing input. -/
def Reading.separator (r : Reading) : Reading :=
  if r.inputOpen then { r with inputOpen := false } else { r with surplus := true }

/-- Reads the words of the command. Two hyphens belong to the plain word beside them. -/
def readWords (r : Reading) : List (Word Flag) → Except Stop Reading
  | [] => .ok r
  | .plain text :: .separator :: rest | .separator :: .plain text :: rest =>
    readWords (r.plain text) rest
  | .plain text :: rest => readWords (r.plain text) rest
  | .separator :: rest => readWords r.separator rest
  | .unknown :: rest => readWords { r with surplus := true } rest
  | .option .help attached :: _ => .error (askHelp attached)
  | .option flag attached :: rest =>
    match flag.takesValue, attached with
    | false, .nothing => readWords { r with settings := r.settings.switch flag } rest
    | true, .value text | true, .letters text => do
      readWords { r with settings := ← r.settings.give flag (attachedValue text) } rest
    | true, .nothing =>
      match rest with
      | .plain text :: rest => do
        readWords { r with settings := ← r.settings.give flag (some text) } rest
      | _ => .error .misuse
    | false, _ => .error .misuse

/-- The settings of the command with given arguments. -/
def Settings.ofArguments (arguments : List String) : Except Stop Reading :=
  match Word.ofArguments? Flag.names arguments with
  | none => .error .misuse
  | some words => readWords ⟨.default, true, false⟩ words

/-! ## The program -/

/-- The options of the program. -/
inductive ProgramFlag where
  | help
  | version
deriving DecidableEq, Inhabited, Repr

/-- The names of the options. -/
def ProgramFlag.names : List (String × ProgramFlag) := [
  ("-h", .help), ("--help", .help), ("--version", .version)]

/-- The name of the command for conversions. -/
def commandName : String := "o2p"

/-- The request whose options are read; `version` and `surplus` tell what the words so far were.
Options come before the name of the command, and what follows it belongs to the command. -/
def readRequest (version surplus : Bool) :
    List (Word ProgramFlag) → List String → Except Stop Request
  | .option .help attached :: _, _ => .error (askHelp attached)
  | .option .version .nothing :: words, _ :: arguments => readRequest true surplus words arguments
  | .unknown :: words, _ :: arguments => readRequest version true words arguments
  | .plain name :: _, _ :: arguments =>
    if name ≠ commandName then .error .misuse
    else match Settings.ofArguments arguments with
      | .error .help => .ok .commandHelp
      | .error .misuse => .error .misuse
      | .ok r =>
        if surplus || r.surplus then .error .misuse
        else .ok (if version then .version else .convert r.settings)
  | [], _ => if surplus then .error .misuse else .ok (if version then .version else .help)
  | _, _ => .error .misuse

/-- The request of a command line; `none` if it means nothing. -/
def Request.ofArguments (arguments : List String) : Option Request :=
  match Word.ofArguments? ProgramFlag.names arguments with
  | none => none
  | some words =>
    match readRequest false false words arguments with
    | .ok request => some request
    | .error .help => some .help
    | .error .misuse => none

end ApiProto.Command
