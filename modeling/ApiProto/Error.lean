import ApiProto.Value.Literal

/-!
# Errors

An error is a cause with a stack of frames, which say what was being done when it arose.

* `Cause` — what went wrong, and `Cause.message`, its text.
* `Error.wrap` — adds a frame on the outside.
* `Error.message` — the frames from the outside in, and then the cause.
-/

namespace ApiProto

/-- Why a document could not be loaded. -/
inductive LoadFailure where
  /-- The place it was to be read from gave the reason `reason`. -/
  | unavailable (reason : String)
  | unsupportedScheme (scheme : String)
  | malformed
  | missingFragment
  | circular
  | notObject
deriving DecidableEq, Inhabited, Repr

/-- The text of the reason. -/
def LoadFailure.message : LoadFailure → String
  | .unavailable reason => reason
  | .unsupportedScheme scheme => "unsupported URL scheme '" ++ scheme ++ "'"
  | .malformed => "invalid document"
  | .missingFragment => "fragment not found"
  | .circular => "circular external reference"
  | .notObject => "document root must be an object"

/-- What a type that must be a message is used for. -/
inductive MessageRole where
  | message
  | request
  | response
deriving DecidableEq, Inhabited, Repr

/-- The word for a role. -/
def MessageRole.word : MessageRole → String
  | .message => "message"
  | .request => "request"
  | .response => "response"

/-- What went wrong. -/
inductive Cause where
  /-- A failure known by its text only. -/
  | described (text : String)
  | schemaNotObject (kind : String)
  | documentNotObject
  | invalidTag (literal : String)
  /-- A field with a negative explicit number. -/
  | negativeNumber (message field : String) (number : Int)
  /-- A field that is added with a number below one. -/
  | invalidNumber (message field : String) (number : Int)
  | duplicateNumber (message : String) (number : Int) (fields : List String)
  | unresolved (ref : String)
  | unsupportedType (type : String)
  | arrayWithoutItems (place name : String)
  | unknownType (type : String)
  | notMessage (role : MessageRole) (type kind endpoint : String)
  | load (location : String) (failure : LoadFailure)
  /-- A member is asked of a value of a kind that does not have it. -/
  | unexpectedKind (kind member : String)
  /-- A value cannot be used at its place. -/
  | unusableValue (reason : String)
  /-- A node that is no declaration among the declarations to be printed. -/
  | unprintable (kind name : String)
  /-- Text that has the form of a value and does not denote one. -/
  | meaningless (reason : String)
  | noInput
  /-- A directory stands where a file is to be written. -/
  | directoryInPlace (path : String)
  /-- A type or declaration that contains itself without end. -/
  | endless
deriving DecidableEq, Inhabited, Repr

/-- The text of a cause. -/
def Cause.message : Cause → String
  | .described text => text
  | .schemaNotObject kind => "schema must be an object, got " ++ kind
  | .documentNotObject => "an OpenAPI document must be an object"
  | .invalidTag literal => "invalid x-proto-tag " ++ literal
  | .negativeNumber message field number | .invalidNumber message field number =>
    "field " ++ field ++ " of " ++ message ++ " has invalid number " ++ toString number
  | .duplicateNumber message number fields =>
    "field number " ++ toString number ++ " is used more than once in " ++ message ++ " (" ++
      ", ".intercalate fields ++ ")"
  | .unresolved ref => "reference " ++ ref ++ " could not be resolved"
  | .unsupportedType type => "don't know how to handle schema type '" ++ type ++ "'"
  | .arrayWithoutItems place name => "array " ++ place ++ " " ++ name ++ " has no items"
  | .unknownType type => "failed to get type for " ++ type
  | .notMessage role type kind endpoint =>
    role.word ++ " type " ++ type ++ " for " ++ endpoint ++ " is not a message (" ++ kind ++ ")"
  | .load location failure => "failed to load " ++ location ++ ": " ++ failure.message
  | .unexpectedKind kind member => "'" ++ kind ++ "' object has no attribute '" ++ member ++ "'"
  | .unprintable kind name => "cannot encode " ++ kind ++ " " ++ name
  | .meaningless reason | .unusableValue reason => reason
  | .noInput => "OpenAPI file path is required"
  | .directoryInPlace path => "[Errno 21] Is a directory: " ++ literalText path
  | .endless => "a type contains itself without end"

/-- A cause in its context (`ProtoizeError`). -/
structure Error where
  /-- The frames, outermost first. -/
  context : List String
  cause : Cause
deriving DecidableEq, Inhabited, Repr

namespace Error

/-- An error without context. -/
def of (cause : Cause) : Error := ⟨[], cause⟩

/-- The error with a frame added on the outside. -/
def wrap (frame : String) (e : Error) : Error := { e with context := frame :: e.context }

/-- Frames and cause, separated by colons. -/
def message (e : Error) : String := ": ".intercalate (e.context ++ [e.cause.message])

end Error

/-- Whether a cause is reported with the frames of its context. Faults of kind and of value pass
through frames unchanged. -/
def Cause.takesFrames : Cause → Bool
  | .unexpectedKind .. | .unusableValue _ | .unprintable .. | .meaningless _ | .noInput
  | .directoryInPlace _ | .endless | .invalidNumber .. => false
  | _ => true

/-- The error as it leaves a step whose frame is `frame`. -/
def Error.within (frame : String) (e : Error) : Error :=
  if e.cause.takesFrames then e.wrap frame else e

/-- Adds a frame to the error of a computation. -/
def framed {α : Type} (frame : String) (result : Except Error α) : Except Error α :=
  result.mapError (Error.within frame)

@[simp] theorem framed_ok_iff {α : Type} {frame : String} {result : Except Error α} {a : α} :
    framed frame result = .ok a ↔ result = .ok a := by
  rcases result with e | b
  · exact ⟨(nomatch ·), (nomatch ·)⟩
  · exact Iff.rfl

/-- Fails with a cause. -/
def fail {α : Type} (cause : Cause) : Except Error α := .error (.of cause)

end ApiProto
