-- SUMMARY: Command line arguments and the request that they make.

/-! # Requests

Three commands: `resolve` finds the binding of a text in a data file, `ast` prints the tree of a path text, and
`view` builds a view and prints it. Options may stand before or after a command's argument; the option that names
a settings file may also stand before the command. An option is given once, one that takes a value needs one that
is not empty, and after two dashes nothing is an option. Everything else is unusable. -/

namespace DataBound

inductive CommandName where
  | resolve
  | tree
  | view
  deriving DecidableEq

def CommandName.ofText? : String → Option CommandName
  | "resolve" => some .resolve
  | "ast" => some .tree
  | "view" => some .view
  | _ => none

/-- A command with what it is to work on. -/
inductive Command where
  | resolve (binding : String) (data : Option String) (readOnly : Bool)
  | tree (binding : String)
  | view (file : String) (data : Option String)
  deriving DecidableEq

/-- What a manual page is about. -/
inductive Topic where
  | program
  | command (name : CommandName)
  | help
  deriving DecidableEq

/-- What the arguments ask for. -/
inductive Request where
  | run (settings : Option String) (command : Command)
  | version
  | help (topic : Topic)
  /-- The arguments make no command. -/
  | unusable
  deriving DecidableEq

namespace Arguments

/-! ## What is seen -/

/-- The options and the argument seen so far. -/
structure Seen where
  argument : Option String
  data : Option String
  readOnly : Bool
  settings : Option String
  verbose : Bool

def Seen.empty : Seen := ⟨none, none, false, none, false⟩

/-- The options that take a value. -/
inductive Valued where
  | data
  | settings
  deriving DecidableEq

/-- What is seen after a value for an option: each is given once, and no file name is empty. -/
def Seen.put (seen : Seen) (option : Valued) (value : String) : Option Seen :=
  if value.isEmpty then none
  else
    match option with
    | .data => if seen.data.isSome then none else some { seen with data := some value }
    | .settings => if seen.settings.isSome then none else some { seen with settings := some value }

/-- What is seen after the argument of a command; there is one, and no file name is empty. -/
def Seen.argue (name : CommandName) (seen : Seen) (value : String) : Option Seen :=
  if seen.argument.isSome || (name = .view && value.isEmpty) then none
  else some { seen with argument := some value }

/-- What is seen after the flag that makes data read-only. -/
def Seen.protect (seen : Seen) : Option Seen :=
  if seen.readOnly then none else some { seen with readOnly := true }

/-- What is seen after the flag that asks for more messages. -/
def Seen.speak (seen : Seen) : Option Seen :=
  if seen.verbose then none else some { seen with verbose := true }

/-! ## Options -/

/-- How one argument is taken. -/
inductive Step where
  | seen (s : Seen)
  /-- The option takes the next argument as its value. -/
  | awaits (option : Valued) (s : Seen)
  | help
  | version
  | refused

def Step.ofOption : Option Seen → Step
  | some s => .seen s
  | none => .refused

/-- An option that takes a value, with the value if it stands in the same argument. -/
def Step.valued (option : Valued) (seen : Seen) : Option String → Step
  | some value => .ofOption (seen.put option value)
  | none => .awaits option seen

/-- Can the text be the value of an option that stands before it? Texts that look like options cannot. -/
def isValue (text : String) : Bool := !text.startsWith "-" || text = "-"

def readsData (name : Option CommandName) : Bool := name = some .resolve || name = some .view

/-- The name and the value of a long option. -/
def longParts (text : String) : String × Option String :=
  let body := text.toList.drop 2
  (String.ofList (body.takeWhile (· != '=')),
    match body.dropWhile (· != '=') with
    | [] => none
    | _ :: value => some (String.ofList value))

/-- A long option of a command, or of the program where `name` is none. -/
def longStep (name : Option CommandName) (seen : Seen) (text : String) : Step :=
  match longParts text with
  | ("config", value) => .valued .settings seen value
  | ("data", value) => if readsData name then .valued .data seen value else .refused
  | ("read-only", none) => if name = some .resolve then .ofOption seen.protect else .refused
  | ("verbose", none) => .ofOption seen.speak
  | ("help", none) => .help
  | ("version", none) => if name.isNone then .version else .refused
  | _ => .refused

def shortSteps (name : Option CommandName) (seen : Seen) : List Char → Step
  | [] => .seen seen
  | 'v' :: rest =>
    match seen.speak with
    | some seen => shortSteps name seen rest
    | none => .refused
  | 'h' :: _ => .help
  | 'V' :: _ => if name.isNone then .version else .refused
  | 'd' :: rest =>
    if !readsData name then .refused
    else
      match rest with
      | [] => .awaits .data seen
      | '=' :: value => .ofOption (seen.put .data (String.ofList value))
      | value => .ofOption (seen.put .data (String.ofList value))
  | _ => .refused

def optionStep (name : Option CommandName) (seen : Seen) (text : String) : Step :=
  if text.startsWith "--" then longStep name seen text else shortSteps name seen (text.toList.drop 1)

/-! ## All arguments -/

/-- The request of a command once all its arguments are seen. -/
def finish (name : CommandName) (before : Option String) (seen : Seen) : Request :=
  let settings := seen.settings.or before
  match name, seen.argument with
  | _, none => .unusable
  | .resolve, some binding => .run settings (.resolve binding seen.data seen.readOnly)
  | .tree, some binding => .run settings (.tree binding)
  | .view, some file => .run settings (.view file seen.data)

/-- The request of a command with the rest of the arguments; `plain` after two dashes, `waiting` when an option
    takes the next argument. -/
def commandRequest (name : CommandName) (before : Option String) :
    (plain : Bool) → (waiting : Option Valued) → Seen → List String → Request
  | _, some _, _, [] => .unusable
  | _, none, seen, [] => finish name before seen
  | plain, some option, seen, text :: rest =>
    match if isValue text then seen.put option text else none with
    | some seen => commandRequest name before plain none seen rest
    | none => .unusable
  | true, none, seen, text :: rest =>
    match seen.argue name text with
    | some seen => commandRequest name before true none seen rest
    | none => .unusable
  | false, none, seen, text :: rest =>
    if text = "--" then commandRequest name before true none seen rest
    else
      match if isValue text then .ofOption (seen.argue name text) else optionStep (some name) seen text with
      | .seen seen => commandRequest name before false none seen rest
      | .awaits option seen => commandRequest name before false (some option) seen rest
      | .help => .help (.command name)
      | .version => .unusable
      | .refused => .unusable

/-- The manual page that the arguments after the word `help` ask for. -/
def helpRequest : List String → Request
  | [] => .help .program
  | ["help"] => .help .help
  | [word] =>
    match CommandName.ofText? word with
    | some name => .help (.command name)
    | none => .unusable
  | _ => .unusable

def request (waiting : Option Valued) (seen : Seen) : List String → Request
  | [] => .unusable
  | text :: rest =>
    match waiting with
    | some option =>
      match if isValue text then seen.put option text else none with
      | some seen => request none seen rest
      | none => .unusable
    | none =>
      if isValue text then
        match CommandName.ofText? text with
        | some name => commandRequest name seen.settings false none .empty rest
        | none => if text = "help" then helpRequest rest else .unusable
      else
        match optionStep none seen text with
        | .seen seen => request none seen rest
        | .awaits option seen => request (some option) seen rest
        | .help => .help .program
        | .version => .version
        | .refused => .unusable

end Arguments

def Request.ofArguments (arguments : List String) : Request := Arguments.request none .empty arguments

example : Request.ofArguments ["--config", "c", "resolve", "-vd", "f", "--", "-x"] =
    .run (some "c") (.resolve "-x" (some "f") false) := by decide +kernel

end DataBound
