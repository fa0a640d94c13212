-- SUMMARY: Computations over a state: bounded runs, actions that can fail, and host callbacks.
import DataBound.Error

/-! # Effects

A `Callback` is what a host offers: it reads and changes the host's state and may fail. A `Run` is a
computation over a state that is bounded by a limit and has no result when the limit is used up; this is
not an error of the domain. An `Action` is a run that may fail with an error; what it did to the state
before it failed stays done. -/

namespace DataBound

/-- A host's operation over the host's own state. -/
abbrev Callback (σ : Type) := ExceptT Error (StateM σ)

/-- A computation over a state; no result when its limit is used up. -/
abbrev Run (σ : Type) := StateT σ Option

/-- A run that may fail with an error. -/
abbrev Action (σ : Type) := ExceptT Error (Run σ)

namespace Action

/-- The action with its error replaced. -/
def mapError {σ α : Type} (change : Error → Error) (action : Action σ α) : Action σ α :=
  ExceptT.mk do
    match ← action.run with
    | .ok a => pure (.ok a)
    | .error e => pure (.error (change e))

/-- The action that stops because the limit is used up. -/
def exhausted {σ α : Type} : Action σ α := ExceptT.mk fun _ => none

/-- A change of the state that gives a result. -/
def ofState {σ α : Type} (step : σ → α × σ) : Action σ α := ExceptT.mk fun s =>
  let (a, s) := step s
  some (.ok a, s)

/-- A callback as an action on a state that holds the host's state. -/
def ofCallback {σ τ α : Type} (read : τ → σ) (write : σ → τ → τ) (callback : Callback σ α) : Action τ α :=
  ExceptT.mk fun s =>
    let (result, host) := callback.run (read s)
    some (result, write host s)

end Action

end DataBound
