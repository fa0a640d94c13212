-- SUMMARY: From path text to bindings: hosts, normalization through the data, query defaults, and caches.
import DataBound.Path.Grammar
import DataBound.Resolution
import DataBound.Binding
import DataBound.Document

/-! # Binders

A binder turns path texts into bindings. Plain dotted texts are split; other texts are read into a tree,
which is kept, and resolved with the help of the host. The text of a value that the path refers to is itself
a path text and is normalized the same way. What unmatched queries ask for is written through the host, in
one transaction, before the binding is given out; a read-only host is never asked to write.

The taps and the host are fixed, `Binder.State` is what changes: the caches, the host's own state, and the
writes that normalized value texts have asked for during the parse that is going on. -/

namespace DataBound

/-! ## Hosts -/

/-- What a binder asks its host. -/
structure Host (σ : Type) where
  get : Binding → Callback σ (Option Value)
  set : List (Binding × Value) → Callback σ Unit
  evaluate : String → Callback σ (Option Value)
  /-- Is writing query defaults off? -/
  readOnly : Bool

/-- Replacements for parts of a host. -/
structure Host.Overrides (σ : Type) where
  get : Option (Binding → Callback σ (Option Value))
  set : Option (List (Binding × Value) → Callback σ Unit)
  evaluate : Option (String → Callback σ (Option Value))
  readOnly : Option Bool

namespace Host

variable {σ : Type}

def unwired : Host σ where
  get := fun _ => throw (.notWired "get")
  set := fun _ => throw (.notWired "set")
  evaluate := fun _ => throw (.notWired "evaluate")
  readOnly := false

/-- A host that reads and writes a document inside its state. -/
def ofDocument (read : σ → Value) (write : Value → σ → σ) : Host σ where
  get := fun b => do pure ((read (← getThe σ)).get? b.path)
  set := fun writes => modify fun s => write (Value.setAll (writes.map fun (b, v) => (b.path, v)) (read s)) s
  evaluate := unwired.evaluate
  readOnly := false

/-- The evaluation of an expression as a dotted path into a document. -/
def lookup (read : σ → Value) (source : String) : Callback σ (Option Value) := do
  pure ((read (← getThe σ)).get? (DataPath.ofText (Text.trim source)))

def override (host : Host σ) (parts : Overrides σ) : Host σ where
  get := parts.get.getD host.get
  set := parts.set.getD host.set
  evaluate := parts.evaluate.getD host.evaluate
  readOnly := parts.readOnly.getD host.readOnly

end Host

def Host.Overrides.unchanged {σ : Type} : Host.Overrides σ := ⟨none, none, none, none⟩

/-! ## Binders -/

/-- What changes while a binder works. -/
structure Binder.State (σ : Type) where
  trees : Cache (List Node)
  interner : Interner
  /-- Writes asked for by the texts of values, during one parse. -/
  pending : Updates
  host : σ

/-- A tap that can ask for a plain dotted text to be read by the grammar all the same. -/
structure SkipTap (σ : Type) where
  ask : String → StateM σ (Option Bool)

/-- A tap whose answer depends on the text only. -/
instance {σ : Type} : Coe (String → Option Bool) (SkipTap σ) := ⟨fun ask => ⟨fun raw => pure (ask raw)⟩⟩

/-- A host and the taps on the way from a text to a binding. -/
structure Binder (σ : Type) where
  host : Host σ
  skipShortcut : Hook (SkipTap σ)
  beforeNode : Hook (NodeTap (Binder.State σ))

/-- What a binding can be parsed from. -/
inductive PathSource where
  | text (raw : String)
  | segments (path : DataPath)
  | binding (b : Binding)

namespace Binder

variable {σ : Type}

def ofHost (host : Host σ) : Binder σ := ⟨host, ∅, ∅⟩

/-- The state of a binder that has done nothing yet. -/
def State.start (strategy : Cache.Strategy) (host : σ) : State σ :=
  ⟨.empty strategy, .empty strategy, [], host⟩

/-- A character of plain dotted texts, other than the dot. -/
def isPlainChar (c : Char) : Bool := c.isAlphanum || c == '_' || c == '-' || c == '@'

/-- Is the text made of plain characters between single dots? -/
def isPlain (raw : String) : Bool :=
  (List.splitOn '.' raw.toList).all fun piece => !piece.isEmpty && piece.all isPlainChar

/-- The shared binding of a path. -/
def intern (path : DataPath) : Action (State σ) Binding :=
  Action.ofState fun s =>
    let (b, interner) := s.interner.intern path
    (b, { s with interner })

def call {α : Type} (callback : Callback σ α) : Action (State σ) α :=
  Action.ofCallback State.host (fun host s => { s with host }) callback

/-- The tree of a text, which is read once and kept. -/
def readTree (raw : String) : Action (State σ) (List Node) := do
  match (← get).trees.get? raw with
  | some tree => pure tree
  | none =>
    match Path.read raw with
    | .error fault => throw (.badPath raw fault)
    | .ok tree =>
      modify fun s => { s with trees := s.trees.insert raw tree }
      pure tree

/-- The services of a host, given how a text is normalized. -/
def services (host : Host σ) (normalize : String → Action (State σ) Resolved) : Services (State σ) where
  valueAt := fun path => do
    let b ← intern path
    call (host.get b)
  evaluate := fun source => call (host.evaluate source)
  textOf := fun value => do
    let some value := value | throw .undefined
    let text ← MonadExcept.ofExcept value.pathText
    let normalized ← normalize text
    modify fun s => { s with pending := Updates.merge s.pending normalized.updates }
    let joined := normalized.path.text
    if joined.isEmpty then throw .emptyReference
    pure joined

/-- Is the text split at its dots, without the grammar? The taps are asked about plain texts only. -/
def takesShortcut (binder : Binder σ) (raw : String) : Action (State σ) Bool :=
  if isPlain raw then
    Action.ofState fun s =>
      let (answer, host) := (binder.skipShortcut.bail fun tap => tap.ask raw).run s.host
      (answer != some true, { s with host })
  else pure false

/-- The data path of a text and the writes it asks for. The limit bounds how often the text of a value leads
    on to another value. -/
def normalize (binder : Binder σ) (host : Host σ) : (limit : Nat) → String → Action (State σ) Resolved
  | 0, _ => Action.exhausted
  | limit + 1, raw => do
    if ← binder.takesShortcut raw then pure ⟨.ofText raw, []⟩
    else
      let tree ← readTree raw
      Action.mapError (.unresolvedPath raw)
        ((services host (binder.normalize host limit)).resolve binder.beforeNode tree)

/-- Write what is asked for, unless nothing is or the host is read-only. -/
def writeDefaults (host : Host σ) (updates : Updates) : Action (State σ) Unit := do
  if !host.readOnly && !updates.isEmpty then
    let writes ← updates.mapM fun update => do pure (← intern update.path, update.value)
    call (host.set writes)

def parseText (binder : Binder σ) (host : Host σ) (limit : Nat) (raw : String) :
    Action (State σ) Binding := do
  modify fun s => { s with pending := [] }
  let normalized ← binder.normalize host limit raw
  writeDefaults host (Updates.merge (← get).pending normalized.updates)
  intern normalized.path

/-- The binding of a text or of segments, with parts of the host replaced for this time; a binding is its
    own. Segments are parsed as their dotted text. -/
def parseWith (binder : Binder σ) (limit : Nat) (parts : Host.Overrides σ) :
    PathSource → Action (State σ) Binding
  | .text raw => binder.parseText (binder.host.override parts) limit raw
  | .segments path => binder.parseText (binder.host.override parts) limit path.text
  | .binding b => pure b

def parse (binder : Binder σ) (limit : Nat) (raw : String) : Action (State σ) Binding :=
  binder.parseWith limit .unchanged (.text raw)

/-- The value at the path that a text leads to, in the document inside the host's state; nothing if the text
    has no binding. -/
def valueAt? (binder : Binder σ) (limit : Nat) (document : σ → Value) (raw : String) :
    Run (State σ) (Option Value) := do
  match ← (binder.parse limit raw).run with
  | .ok b => do pure ((document (← getThe (State σ)).host).get? b.path)
  | .error _ => pure none

/-- The state without what was kept. -/
def State.clearCaches (s : State σ) : State σ :=
  { s with trees := s.trees.clear, interner := s.interner.clear }

end Binder

end DataBound
