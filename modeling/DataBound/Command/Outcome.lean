-- SUMMARY: What a command reads from files, and what it ends in.
import DataBound.Yaml
import DataBound.Json.Reader
import DataBound.Error

/-! # Files and outcomes

A command reads files through `Files`, in any monad, and ends in an `Outcome`, which says what to print and with
which exit code. A failure is printed with the errors that led to it and a hint. -/

namespace DataBound

/-- How a command reads files. -/
structure Files (m : Type → Type) where
  read : String → m (Except FileFault String)
  /-- The settings file that is used, if it exists, when none is named. -/
  defaultSettings : String

/-- What a command ends in: an exit code, and what it prints to the two streams. -/
structure Outcome where
  exitCode : Nat
  out : String
  err : String
  deriving DecidableEq

/-- An error, with what was being done if that is said. -/
structure Failure where
  doing : Option String
  error : Error

namespace Outcome

def success (out : String) : Outcome := ⟨0, out, ""⟩

def failure (f : Failure) : Outcome :=
  let start := match f.doing with
    | some doing => doing ++ ": "
    | none => ""
  ⟨1, "", "Error: " ++ start ++ f.error.chainText ++ "\n  Fix: " ++ f.error.suggestion ++ "\n"⟩

/-- A command whose data leads from value to value without end. -/
def exhausted : Outcome := ⟨1, "", "Error: the data refers to itself\n"⟩

/-- Arguments that make no command; `hint` is printed. -/
def usageError (hint : String) : Outcome := ⟨2, "", hint⟩

end Outcome

/-- The extension of a file name: what follows the last dot of its last part, unless that dot comes first. -/
def fileExtension (file : String) : Option String :=
  let backwards := file.toList.reverse.takeWhile (· != '/')
  match backwards.dropWhile (· != '.') with
  | [] => none
  | [_] => none
  | _ => some (String.ofList (backwards.takeWhile (· != '.')).reverse)

/-- The document in a text: YAML if the file's extension says so, and else JSON. -/
def readDocument (file text : String) : Except Error Value :=
  if fileExtension file = some "yaml" ∨ fileExtension file = some "yml" then
    match Yaml.read? text with
    | some v => .ok v
    | none => .error .malformedYaml
  else
    match Json.read? text with
    | some v => .ok v
    | none => .error .malformedJson

example : fileExtension "a.b/view.yml" = some "yml" := by decide +kernel
example : fileExtension "a.b/.yml" = none := by decide +kernel

end DataBound
