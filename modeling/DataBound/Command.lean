-- SUMMARY: The commands: resolving a binding, printing a path tree, and printing a view.
import DataBound.Settings
import DataBound.View.Extension
import DataBound.View.Template
import DataBound.Command.Manual
import DataBound.Command.Outcome

/-! # Commands

A command reads the settings and the files that it needs and works on what is in them without further effects:
`resolveIn`, `treeOf` and `viewOver` give the outcome for contents that are at hand. The first thing that goes
wrong ends the command. -/

namespace DataBound

namespace Command

variable {m : Type → Type} [Monad m]

/-- How often the text of a value may lead on to another value, and how deep content may nest. -/
def limit : Nat := 10000

def load (files : Files m) (doing file : String) : ExceptT Failure m Value := do
  let doing := some (doing ++ " " ++ file)
  match ← files.read file with
  | .error fault => throw ⟨doing, .file fault⟩
  | .ok text =>
    match readDocument file text with
    | .ok v => pure v
    | .error e => throw ⟨doing, e⟩

/-- The document in a data file; the empty object if none is named. -/
def loadData (files : Files m) : Option String → ExceptT Failure m Value
  | some file => load files "loading data from" file
  | none => pure (.object [])

def settingsOf (text : String) : ExceptT Failure m Settings :=
  match Settings.ofText? text with
  | some s => pure s
  | none => throw ⟨none, .settings .malformed⟩

/-- The settings in a named file, or in the default file if it exists. -/
def loadSettings (files : Files m) : Option String → ExceptT Failure m Settings
  | some file => do
    match ← files.read file with
    | .ok text => settingsOf text
    | .error fault => throw ⟨none, .settings (.unreadable file fault)⟩
  | none => do
    match ← files.read files.defaultSettings with
    | .ok text => settingsOf text
    | .error .isADirectory => throw ⟨none, .settings (.unreadable files.defaultSettings .isADirectory)⟩
    | .error _ => pure .default

/-! ## Resolving -/

/-- A document and what was written to it. -/
structure Ledger where
  document : Value
  written : List (Binding × Value)

/-- The host over a document that keeps account of what is written. Expressions are dotted paths into the
    document. -/
def Ledger.host (readOnly : Bool) : Host Ledger where
  get := fun b => do pure ((← getThe Ledger).document.get? b.path)
  set := fun writes => modify fun l =>
    ⟨Value.setAll (writes.map fun (b, v) => (b.path, v)) l.document, l.written ++ writes⟩
  evaluate := Host.lookup Ledger.document
  readOnly

/-- What `resolve` prints: the binding, the value there, and what was written. -/
def resolution (b : Binding) (ledger : Ledger) : String :=
  let value := (ledger.document.get? b.path).getD .null
  let writes := ledger.written.map fun (b, v) => "  → set " ++ b.text ++ " = " ++ Json.write v ++ "\n"
  "✓ " ++ b.text ++ "\n  → value: " ++ Json.write value ++ "\n" ++ String.join writes

/-- The outcome of resolving a binding in a document. -/
def resolveIn (settings : Settings) (document : Value) (readOnly : Bool) (raw : String) : Outcome :=
  let binder := Binder.ofHost (settings.restrict (Ledger.host readOnly))
  match (binder.parse limit raw).run.run (.start settings.strategy ⟨document, []⟩) with
  | none => .exhausted
  | some (.error e, _) => .failure ⟨none, e⟩
  | some (.ok b, s) => .success (resolution b s.host)

/-! ## Views -/

/-- The text between double braces that a condition consists of, blanks around it aside. -/
def referenced? : Value → Option String
  | .string text =>
    match Text.trimChars text.toList with
    | '{' :: '{' :: rest =>
      match rest.reverse with
      | '}' :: '}' :: inner => some (String.ofList inner.reverse)
      | _ => none
    | _ => none
  | _ => none

/-- Does a condition hold? A reference holds if the data has a true value there, anything else if it counts as
    true itself. -/
def accepts (binder : Binder Value) (condition : Value) : Run (Binder.State Value) Bool := do
  match referenced? condition with
  | some raw => do pure ((← binder.valueAt? limit id (Text.trim raw)).any Value.isTruthy)
  | none => pure condition.isTruthy

/-- The host over a document that is never written to. -/
def readingHost : Host Value :=
  { Host.ofDocument id fun document _ => document with
    evaluate := Host.lookup id
    readOnly := true }

/-- The standard extensions over one binder: applicability, switches and templates. -/
def standardHooks (binder : Binder Value) : View.Hooks (Binder.State Value) :=
  ((View.Hooks.empty.withApplicability).withSwitch (accepts binder)).withTemplate
    (binder.valueAt? limit id) ∅

/-- The outcome of building a view over a document. -/
def viewOver (settings : Settings) (document content : Value) : Outcome :=
  let hooks := standardHooks (Binder.ofHost (settings.restrict readingHost))
  match (hooks.buildView limit content settings.templateDepth).run.run (.start settings.strategy document) with
  | none => .exhausted
  | some (.error e, _) => .failure ⟨none, e⟩
  | some (.ok built, _) => .success (Json.writeIndented built.toValue ++ "\n")

/-! ## Running -/

/-- The outcome of printing the tree of a path text. -/
def treeOf (raw : String) : Outcome :=
  match Path.read raw with
  | .ok nodes => .success (Json.writeIndented (.object [("path", .array (Node.toValues nodes))]) ++ "\n")
  | .error fault => .failure ⟨none, .badPath raw fault⟩

def outcome (files : Files m) (settings : Settings) : Command → ExceptT Failure m Outcome
  | .resolve raw data readOnly => do
    let document ← loadData files data
    pure (resolveIn settings document readOnly raw)
  | .tree raw => pure (treeOf raw)
  | .view file data => do
    let content ← load files "reading view" file
    let document ← loadData files data
    pure (viewOver settings document content)

end Command

/-- The outcome of a request. -/
def Request.outcome {m : Type → Type} [Monad m] (files : Files m) : Request → m Outcome
  | .version => pure (.success versionText)
  | .help topic => pure (.success topic.page)
  | .unusable => pure (.usageError (Topic.page .program))
  | .run settings command => do
    let result ← ExceptT.run do
      let settings ← Command.loadSettings files settings
      command.outcome files settings
    match result with
    | .ok outcome => pure outcome
    | .error failure => pure (.failure failure)

end DataBound
