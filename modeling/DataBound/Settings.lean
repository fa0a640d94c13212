-- SUMMARY: Settings: defaults for binders and views, read from and written as TOML text.
import DataBound.Binder
import DataBound.Toml

/-! # Settings

What users can set once for all calls: whether query defaults are written, how caches are bounded, and the
template depth at which views start. Missing keys and sections have defaults and unknown keys are ignored. A
section may also be written as the array of its values, in the order of their keys. `ofText?` refuses texts that
are no documents and values of the wrong type. -/

namespace DataBound

structure Settings where
  readOnly : Bool
  strategy : Cache.Strategy
  templateDepth : Nat
  deriving DecidableEq

namespace Settings

def default : Settings := ⟨false, .unbounded, 0⟩

/-- What is decoded from the field of a section with this key, which is at this place in a section that is an array;
    or the default if it is not there. -/
def fieldOr {α : Type} (v : Value) (key : String) (place : Nat) (missing : α) (decode : Value → Option α) :
    Option α :=
  let field := match v with
    | .array items => items[place]?
    | _ => v.field? key
  match field with
  | none => some missing
  | some field => decode field

/-- A count: an integer that is not negative. -/
def decodeCount : Value → Option Nat
  | .number (.int (.ofNat n) _) => some n
  | _ => none

/-- How caches are bounded: a table with the name of the strategy, and for the bounded one its capacity. As an
    array it holds these and nothing else. -/
def decodeStrategy : Value → Option Cache.Strategy
  | .array [.string "unbounded"] => some .unbounded
  | .array [.string "bounded", capacity] => (decodeCount capacity).map .bounded
  | .array _ => none
  | v =>
    match v.field? "strategy", v.field? "capacity" with
    | some (.string "unbounded"), _ => some .unbounded
    | some (.string "bounded"), some capacity => (decodeCount capacity).map .bounded
    | _, _ => none

/-- The section under a key, which is empty if it is missing. -/
def decodeSection (v : Value) (key : String) : Option Value :=
  match v.field? key with
  | none => some (.object [])
  | some s => if s.isObject || s.isArray then some s else none

def ofValue? (v : Value) : Option Settings := do
  let binding ← decodeSection v "binding"
  let readOnly ← fieldOr binding "read_only" 0 false Value.asBool
  let strategy ← fieldOr binding "cache" 1 .unbounded decodeStrategy
  let view ← decodeSection v "view"
  let templateDepth ← fieldOr view "template_depth" 0 0 decodeCount
  pure ⟨readOnly, strategy, templateDepth⟩

def ofText? (text : String) : Option Settings := (Toml.read? text).bind ofValue?

/-- The lines that say how caches are bounded. -/
def strategyText : Cache.Strategy → String
  | .unbounded => "strategy = \"unbounded\"\n"
  | .bounded capacity => "strategy = \"bounded\"\ncapacity = " ++ toString capacity ++ "\n"

def text (s : Settings) : String :=
  "[binding]\nread_only = " ++ (if s.readOnly then "true" else "false") ++ "\n\n[binding.cache]\n" ++
    strategyText s.strategy ++ "\n[view]\ntemplate_depth = " ++ toString s.templateDepth ++ "\n"

/-- The host under these settings, which can take the right to write away but not give it. -/
def restrict {σ : Type} (s : Settings) (host : Host σ) : Host σ :=
  { host with readOnly := s.readOnly || host.readOnly }

end Settings

end DataBound
