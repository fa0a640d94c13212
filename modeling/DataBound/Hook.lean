-- SUMMARY: Hooks: ordered lists of named handlers, and the three ways to call them.

/-! # Hooks

A hook is a list of named handlers in the order of their registration. It can be called in three ways:
`firstAnswer` asks one handler after the other until one answers, `thread` passes a value through all of
them, and `forEach` runs all of them for their effect. The caller says how one handler is run, in any
monad. -/

namespace DataBound

/-- A handler and the name it was registered under. -/
structure Tap (α : Type) where
  name : String
  handler : α

/-- Handlers in the order of their registration. -/
structure Hook (α : Type) where
  taps : List (Tap α)

namespace Hook

variable {α β : Type} {m : Type → Type} [Monad m]

def empty : Hook α := ⟨[]⟩

instance : EmptyCollection (Hook α) := ⟨empty⟩

/-- The hook with one more handler, which runs last. -/
def tap (hook : Hook α) (name : String) (handler : α) : Hook α := ⟨hook.taps ++ [⟨name, handler⟩]⟩

/-- The hook without the handlers of this name. -/
def untap (hook : Hook α) (name : String) : Hook α := ⟨hook.taps.filter fun tap => tap.name ≠ name⟩

def names (hook : Hook α) : List String := hook.taps.map Tap.name

def hasName (hook : Hook α) (name : String) : Bool := hook.names.contains name

def size (hook : Hook α) : Nat := hook.taps.length

def isEmpty (hook : Hook α) : Bool := hook.taps.isEmpty

/-- The first answer that one of the handlers gives; the handlers after it are not asked. -/
def firstAnswer (ask : α → m (Option β)) : List (Tap α) → m (Option β)
  | [] => pure none
  | tap :: rest => do
    match ← ask tap.handler with
    | some answer => pure (some answer)
    | none => firstAnswer ask rest

/-- Ask the handlers until one answers. -/
def bail (hook : Hook α) (ask : α → m (Option β)) : m (Option β) := firstAnswer ask hook.taps

/-- Pass a value through all handlers, each given what the one before it gave. -/
def thread (hook : Hook α) (start : β) (apply : α → β → m β) : m β :=
  hook.taps.foldlM (fun current tap => apply tap.handler current) start

def forEach (hook : Hook α) (run : α → m Unit) : m Unit := hook.taps.forM fun tap => run tap.handler

end Hook

end DataBound
