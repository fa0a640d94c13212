-- SUMMARY: Resolving a path tree to a data path, with the writes that unmatched queries ask for.
import DataBound.Path.Node
import DataBound.Updates
import DataBound.Scalar
import DataBound.Hook

/-! # Resolution

Resolving walks the nodes of a path from left to right and appends their segments. References, expressions
and queries ask for values through `Services`. A query that finds no element chooses the position after the
last one and records the write that would create it. Nested references are resolved on their own, and their
writes join those of the path around them. -/

namespace DataBound

/-- What resolving needs from outside: values, expression values, and the path text of a value. -/
structure Services (σ : Type) where
  valueAt : DataPath → Action σ (Option Value)
  evaluate : String → Action σ (Option Value)
  textOf : Option Value → Action σ String

/-- A resolved path and the writes it asks for. -/
structure Resolved where
  path : DataPath
  updates : Updates

namespace Resolved

def empty : Resolved := ⟨[], []⟩

/-- The segments of a dotted text, every piece of which is an index if `coerced` and it spells one. -/
def segmentsOf (text : String) (coerced : Bool) : DataPath :=
  (List.splitOn '.' text.toList).map fun piece =>
    if coerced then Segment.ofText (String.ofList piece) else .key (String.ofList piece)

/-- The path extended by the segments of a text. -/
def append (r : Resolved) (text : String) (coerced : Bool) : Resolved :=
  { r with path := r.path ++ segmentsOf text coerced }

def push (r : Resolved) (segment : Segment) : Resolved := { r with path := r.path ++ [segment] }

/-- The elements that a query searches: the items of an array; anything else has none. -/
def elements : Option Value → List Value
  | some (.array items) => items
  | _ => []

/-- The path extended by the position of the element that a query names. When there is none this is the
    position after the last element, and a write of the wanted value is recorded. -/
def select (r : Resolved) (items : List Value) (key : String) (quoted : Bool) (wanted : Option String) :
    Resolved :=
  match findElement? items key wanted with
  | some i => r.push (.ofPosition i)
  | none =>
    let chosen := r.push (.ofPosition items.length)
    let value := match wanted with
      | some text => .string text
      | none => .null
    { chosen with updates := Updates.insert r.updates (chosen.append key !quoted).path value }

end Resolved

namespace Services

variable {σ : Type}

/-- The text of the value at a resolved reference. -/
def followed (services : Services σ) (path : DataPath) : Action σ String :=
  Action.mapError (.unresolvedSegment path.text) do
    services.textOf (← services.valueAt path)

def evaluated (services : Services σ) (source : String) : Action σ String :=
  Action.mapError (.unresolvedSegment source) do
    services.textOf (← services.evaluate source)

mutual

/-- The resolution of `node` after what is resolved already. -/
def resolveNode (services : Services σ) (r : Resolved) : Node → Action σ Resolved
  | .literal text quoted => pure (r.append text !quoted)
  | .reference path => do
    let inner ← resolveNodes services .empty path
    let text ← services.followed inner.path
    pure ({ r with updates := Updates.merge r.updates inner.updates }.append text true)
  | .expression source => do
    let text ← services.evaluated source
    pure (r.append text true)
  | .query key value => do
    let target ← services.valueAt r.path
    let (keyText, updates) ← nodeText services r.updates key
    let (wanted, updates) ← wantedText services updates value
    pure ({ r with updates }.select (Resolved.elements target) keyText key.isQuoted wanted)
  | .joined parts => do
    let (text, updates) ← partsText services r.updates parts
    pure ({ r with updates }.push (.key text))

/-- The resolution of all nodes, one after the other. -/
def resolveNodes (services : Services σ) (r : Resolved) : List Node → Action σ Resolved
  | [] => pure r
  | node :: rest => do
    let r ← resolveNode services r node
    resolveNodes services r rest

/-- The text that a node gives to a segment, and the writes so far. -/
def nodeText (services : Services σ) (updates : Updates) : Node → Action σ (String × Updates)
  | .literal text _ => pure (text, updates)
  | .reference path => do
    let inner ← resolveNodes services .empty path
    let text ← services.followed inner.path
    pure (text, Updates.merge updates inner.updates)
  | .expression source => do
    let text ← services.evaluated source
    pure (text, updates)
  | .query .. => throw (.unsupportedNode "Query")
  | .joined _ => throw (.unsupportedNode "Concatenated")

/-- The text that a query wants, if it wants any. -/
def wantedText (services : Services σ) (updates : Updates) :
    Option Node → Action σ (Option String × Updates)
  | none => pure (none, updates)
  | some node => do
    let (text, updates) ← nodeText services updates node
    pure (some text, updates)

/-- The texts of the parts, one after the other. -/
def partsText (services : Services σ) (updates : Updates) : List Node → Action σ (String × Updates)
  | [] => pure ("", updates)
  | part :: rest => do
    let (text, updates) ← nodeText services updates part
    let (more, updates) ← partsText services updates rest
    pure (text ++ more, updates)

end

end Services

/-! ## Taps -/

/-- What a tap on nodes is told: what is resolved so far, and the services in use. -/
structure NodeContext (σ : Type) where
  resolved : Resolved
  services : Services σ

/-- A tap that may replace a node before it is resolved. -/
abbrev NodeTap (σ : Type) := Node → NodeContext σ → Run σ Node

/-- The resolution of a path whose own nodes pass through taps first; those of nested references do not. -/
def Services.resolve {σ : Type} (services : Services σ) (taps : Hook (NodeTap σ)) (path : List Node) :
    Action σ Resolved :=
  path.foldlM
    (fun r node => do
      let node ← (taps.thread node fun tap current => tap current ⟨r, services⟩ : Run σ Node)
      services.resolveNode r node)
    .empty

end DataBound
