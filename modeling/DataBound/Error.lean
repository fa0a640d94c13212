-- SUMMARY: Everything that can go wrong, with code, kind, message, suggested fix, and cause.
import DataBound.Path.Fault

/-! # Errors

An error is a cause. Its code, kind, message and suggested fix are functions on it; the two kinds of
failed resolution also hold the error that stopped them, and `rootCause` follows those to the end. -/

namespace DataBound

/-- The groups of errors. -/
inductive ErrorKind where
  | badPath
  | resolution
  | type
  | structural
  | settings
  | file
  deriving DecidableEq

/-- Why a file cannot be read. -/
inductive FileFault where
  | notFound
  | notADirectory
  | isADirectory
  /-- Another reason, in the system's words. -/
  | other (text : String)
  deriving DecidableEq

/-- The operating system's words for a file fault. -/
def FileFault.text : FileFault → String
  | .notFound => "No such file or directory (os error 2)"
  | .notADirectory => "Not a directory (os error 20)"
  | .isADirectory => "Is a directory (os error 21)"
  | .other text => text

/-- Why content is not a view. -/
inductive ViewFault where
  | notAnObject
  | nothingBuilt
  /-- The root was built as a node of another type. -/
  | rootIs (typeName : String)
  deriving DecidableEq

def ViewFault.text : ViewFault → String
  | .notAnObject => "expected an object"
  | .nothingBuilt => "the object produced no node"
  | .rootIs typeName => "root parsed as " ++ typeName ++ " instead of view"

/-- Why settings cannot be used. -/
inductive SettingsFault where
  | unreadable (file : String) (fault : FileFault)
  | malformed
  deriving DecidableEq

def SettingsFault.text : SettingsFault → String
  | .unreadable file fault => "Failed to read config file " ++ file ++ ": " ++ fault.text
  | .malformed => "Failed to parse config:"

/-- The cause of a failure. -/
inductive Error where
  /-- The text is not a path. -/
  | badPath (input : String) (fault : Fault)
  /-- A path text did not resolve, because of another error. -/
  | unresolvedPath (path : String) (cause : Error)
  /-- The text of a reference or expression is not available, because of another error. -/
  | unresolvedSegment (segment : String) (cause : Error)
  /-- A node of this kind has no text. -/
  | unsupportedNode (kindName : String)
  /-- A value of this type has no path text. -/
  | notScalar (typeName : String)
  /-- There is no value. -/
  | undefined
  /-- The host does not offer this operation. -/
  | notWired (operation : String)
  /-- The text of a value normalizes to the empty path. -/
  | emptyReference
  | unusableView (fault : ViewFault)
  | settings (fault : SettingsFault)
  | file (fault : FileFault)
  | malformedJson
  | malformedYaml
  deriving DecidableEq

namespace Error

def code : Error → String
  | .badPath .. => "VB-001"
  | .unresolvedPath .. => "VB-010"
  | .unresolvedSegment .. => "VB-011"
  | .unsupportedNode _ => "VB-012"
  | .notScalar _ => "VB-020"
  | .undefined => "VB-021"
  | .notWired _ => "VB-022"
  | .emptyReference => "VB-030"
  | .unusableView _ => "VB-031"
  | .settings _ => "VB-050"
  | .file _ => "VB-051"
  | .malformedJson => "VB-052"
  | .malformedYaml => "VB-053"

def kind : Error → ErrorKind
  | .badPath .. => .badPath
  | .unresolvedPath .. | .unresolvedSegment .. | .unsupportedNode _ => .resolution
  | .notScalar _ | .undefined | .notWired _ => .type
  | .emptyReference | .unusableView _ => .structural
  | .settings _ | .malformedJson | .malformedYaml => .settings
  | .file _ => .file

/-- What the error says, after its code. -/
def details : Error → String
  | .badPath input fault =>
    "Cannot normalize path \"" ++ input ++ "\": " ++ fault.cause.text ++ " (at position " ++
      toString fault.position ++ ")"
  | .unresolvedPath path _ => "Cannot resolve binding: " ++ path
  | .unresolvedSegment segment _ => "Unable to resolve path segment: " ++ segment
  | .unsupportedNode kindName => "Unable to resolve value for node: " ++ kindName
  | .notScalar typeName => "Attempting to convert " ++ typeName ++ " to a binding path"
  | .undefined => "Attempted to convert undefined value to binding path"
  | .notWired operation =>
    "Not Implemented: no '" ++ operation ++ "' callback is wired into the binding parser"
  | .emptyReference => "Nested path resolved to an empty path"
  | .unusableView fault => "Unable to parse object into a view: " ++ fault.text
  | .settings fault => "Invalid configuration: " ++ fault.text
  | .file fault => "IO error: " ++ fault.text
  | .malformedJson => "JSON error:"
  | .malformedYaml => "YAML error:"

/-- The code in brackets and what the error says. -/
def message (e : Error) : String := "[" ++ e.code ++ "] " ++ e.details

/-- What the user can do about the error. -/
def suggestion : Error → String
  | .badPath .. => "Check brackets, quotes and \x7b\x7bnested\x7d\x7d references are balanced"
  | .unresolvedPath .. | .unresolvedSegment .. =>
    "Ensure every nested reference resolves to a value in the data model"
  | .unsupportedNode _ => "Queries cannot be concatenated with other segments"
  | .notScalar _ => "Nested references must resolve to a string, number or boolean"
  | .undefined => "Provide a value at the referenced path"
  | .notWired _ => "Wire get/set/evaluate callbacks into BindingParserOptions"
  | .emptyReference => "Nested references must not resolve to an empty string"
  | .unusableView _ => "A view must be a JSON object that parses to a view node"
  | .settings _ => "Check the config file against the documented keys"
  | .file _ => "Check file path and permissions"
  | .malformedJson => "Check JSON syntax"
  | .malformedYaml => "Check YAML syntax: indentation and quoting"

/-- The last error on the way from cause to cause. -/
def rootCause : Error → Error
  | .unresolvedPath _ cause | .unresolvedSegment _ cause => rootCause cause
  | e => e

/-- The errors on the way from cause to cause, without the first one. -/
def causes : Error → List Error
  | .unresolvedPath _ cause | .unresolvedSegment _ cause => cause :: causes cause
  | _ => []

/-- The messages of an error and its causes, outermost first, joined by colons. A file fault is said
    once more at the end, as its own cause. -/
def chainText (e : Error) : String :=
  let last :=
    match e.rootCause with
    | .file fault => [fault.text]
    | _ => []
  ": ".intercalate ((e :: e.causes).map message ++ last)

end Error

end DataBound
