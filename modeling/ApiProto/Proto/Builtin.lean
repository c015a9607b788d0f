/-!
# Builtin types

Scalars, the well-known types of the protobuf library, and the placeholders for primitive types
whose scalar depends on a format.

* `Builtin.withFormat` — the scalar of a placeholder under a format.
* `Builtin.boxed` — the wrapper message of a scalar.
* `importOf?` — the file that declares a well-known type.
* `knownDefinition?` — the well-known type that a reference names.
* `reservedTypes` — type names that never denote a declared type.
-/

namespace ApiProto.Proto

/-- A type that needs no declaration. -/
structure Builtin where
  name : String
  /-- Whether the type is a message. -/
  isMessage : Bool
deriving DecidableEq, Inhabited, Repr

namespace Builtin

def bool : Builtin := ⟨"bool", false⟩
def bytes : Builtin := ⟨"bytes", false⟩
def double : Builtin := ⟨"double", false⟩
def float : Builtin := ⟨"float", false⟩
def int32 : Builtin := ⟨"int32", false⟩
def int64 : Builtin := ⟨"int64", false⟩
def string : Builtin := ⟨"string", false⟩

/-! ## Placeholders for primitive types -/

def pseudoInteger : Builtin := ⟨"pseudo:integer", false⟩
def pseudoFloat : Builtin := ⟨"pseudo:float", false⟩
def pseudoNumber : Builtin := ⟨"pseudo:number", false⟩
def pseudoBoolean : Builtin := ⟨"pseudo:boolean", false⟩

/-! ## Well-known types -/

def any : Builtin := ⟨"google.protobuf.Any", true⟩
def empty : Builtin := ⟨"google.protobuf.Empty", true⟩
def struct : Builtin := ⟨"google.protobuf.Struct", true⟩
def listValue : Builtin := ⟨"google.protobuf.ListValue", true⟩
def nullValue : Builtin := ⟨"google.protobuf.NullValue", false⟩
def boolValue : Builtin := ⟨"google.protobuf.BoolValue", true⟩
def bytesValue : Builtin := ⟨"google.protobuf.BytesValue", true⟩
def doubleValue : Builtin := ⟨"google.protobuf.DoubleValue", true⟩
def floatValue : Builtin := ⟨"google.protobuf.FloatValue", true⟩
def int32Value : Builtin := ⟨"google.protobuf.Int32Value", true⟩
def int64Value : Builtin := ⟨"google.protobuf.Int64Value", true⟩
def stringValue : Builtin := ⟨"google.protobuf.StringValue", true⟩

/-- Scalars with their wrapper messages. -/
def wrappers : List (Builtin × Builtin) := [
  (bool, boolValue), (bytes, bytesValue), (double, doubleValue), (float, floatValue),
  (int32, int32Value), (int64, int64Value), (string, stringValue)]

/-- The wrapper message of a scalar; any other type itself. -/
def boxed (b : Builtin) : Builtin := (wrappers.lookup b).getD b

/-- The scalar that a primitive type stands for under a format; any other type itself. -/
def withFormat (b : Builtin) (format : String) : Builtin :=
  if b.name = "bytes" then bytes
  else if b.name = "pseudo:boolean" then bool
  else if b.name = "string" then if format = "byte" then bytes else string
  else if b.name = "pseudo:integer" then if format = "int64" then int64 else int32
  else if b.name = "pseudo:float" then float
  else if b.name = "pseudo:number" then
    if format = "" ∨ format = "double" then double
    else if format = "int64" ∨ format = "long" then int64
    else if format = "integer" ∨ format = "int32" then int32
    else float
  else b

end Builtin

/-- The files that declare the well-known types. -/
def knownImports : List (String × String) := [
  ("google.protobuf.Any", "google/protobuf/any.proto"),
  ("google.protobuf.Empty", "google/protobuf/empty.proto"),
  ("google.protobuf.NullValue", "google/protobuf/struct.proto"),
  ("google.protobuf.MethodOptions", "google/protobuf/descriptor.proto"),
  ("google.protobuf.Timestamp", "google/protobuf/timestamp.proto"),
  ("google.protobuf.Struct", "google/protobuf/struct.proto"),
  ("google.protobuf.ListValue", "google/protobuf/struct.proto"),
  ("google.protobuf.StringValue", "google/protobuf/wrappers.proto"),
  ("google.protobuf.BytesValue", "google/protobuf/wrappers.proto"),
  ("google.protobuf.BoolValue", "google/protobuf/wrappers.proto"),
  ("google.protobuf.Int64Value", "google/protobuf/wrappers.proto"),
  ("google.protobuf.Int32Value", "google/protobuf/wrappers.proto"),
  ("google.protobuf.UInt64Value", "google/protobuf/wrappers.proto"),
  ("google.protobuf.UInt32Value", "google/protobuf/wrappers.proto"),
  ("google.protobuf.FloatValue", "google/protobuf/wrappers.proto"),
  ("google.protobuf.DoubleValue", "google/protobuf/wrappers.proto")]

/-- The file that declares a type of the protobuf library. -/
def importOf? (name : String) : Option String := knownImports.lookup name

/-- The well-known types by the references that name them: a file and, as its fragment, a type. -/
def knownDefinitions : List (String × Builtin) :=
  knownImports.map fun (name, file) =>
    (file ++ "#/" ++ name, ⟨name, name ≠ "google.protobuf.NullValue"⟩)

/-- The well-known type that a reference names. -/
def knownDefinition? (ref : String) : Option Builtin := knownDefinitions.lookup ref

/-- Names of primitive types and of a few protobuf types, which never denote a declared type. -/
def reservedTypes : List (String × Builtin) := [
  ("bytes", .bytes), ("string", .string), ("integer", .pseudoInteger), ("float", .pseudoFloat),
  ("number", .pseudoNumber), ("boolean", .pseudoBoolean), ("google.protobuf.Any", .any)]

end ApiProto.Proto
