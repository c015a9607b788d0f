import ApiProto.Compile.Package
import ApiProto.Name.Title
import ApiProto.Source.Load

/-!
# Converting documents

* `Conversion` — what is to be converted, and how.
* `Conversion.places` — the places that are read.
* `Conversion.run` — loads and compiles a description, prints it, and writes the text.
-/

namespace ApiProto.Command

open Source Uri

/-- A conversion. -/
structure Conversion where
  /-- The path or URL of the description. -/
  input : String
  /-- The path of the file to write; nothing is written if it is empty. -/
  output : String
  annotate : Bool
  skipRpcs : Bool
  prefixEnums : Bool
  wrapPrimitives : Bool
  /-- The number of spaces of a step of indentation; a negative number counts as zero. Nothing can
  be printed if it is missing. -/
  indent : Option Int
deriving DecidableEq, Inhabited, Repr

namespace Conversion

/-- The package of descriptions without title: named after the output, without its extension. -/
def defaultPackage (output : String) : String :=
  let name := Name.packageName (String.ofList (splitExtension (baseName output.toList)).1)
  if name.isEmpty then "openapi" else name

/-- The options of the compilation. -/
def options (c : Conversion) : Compile.Options where
  annotate := c.annotate
  skipRpcs := c.skipRpcs
  prefixEnums := c.prefixEnums
  wrapPrimitives := c.wrapPrimitives
  defaultPackage := defaultPackage c.output

/-- The number of words of 64 bits that are not negative. -/
def wordLimit : Int := 9223372036854775808

/-- A step of indentation, whose width must be a word of 64 bits. -/
def indentText (width : Option Int) : Except Error String :=
  match width with
  | none => fail (.unusableValue "can't multiply sequence by non-int of type 'list'")
  | some width =>
    if width < -wordLimit ∨ wordLimit ≤ width then
      fail (.unusableValue "cannot fit 'int' into an index-sized integer")
    else .ok (String.ofList (List.replicate width.toNat ' '))

/-- The places that are read for a conversion. -/
def places [Libraries] (c : Conversion) (world : World) : List String :=
  ((load world c.input).step .empty).2.opened

/-- The text of the compiled description. -/
def text [Libraries] (c : Conversion) (world : World) : Except Error String := do
  if c.input.isEmpty then fail .noInput
  let spec ← ((load world c.input).step .empty).1
  let package ← Compile.compile c.options spec
  package.print (← indentText c.indent)

/-- Writes a text to the output. The directory of the output is made if it does not exist. -/
def save (c : Conversion) (text : String) (world : World) : Except Error Unit × World :=
  if c.output.isEmpty then (.ok (), world)
  else
    let world := world.makeDirectories (String.ofList (directory c.output.toList))
    if world.isDirectory c.output then (fail (.directoryInPlace c.output), world)
    else (.ok (), world.write c.output text)

/-- Converts a description (`convert_openapi_to_proto`): the text, and the world afterwards. -/
def run [Libraries] (c : Conversion) (world : World) : Except Error String × World :=
  match c.text world with
  | .error e => (.error e, world)
  | .ok text =>
    let (saved, world) := c.save text world
    (saved.map fun _ => text, world)

end Conversion

end ApiProto.Command
