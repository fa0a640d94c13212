-- SUMMARY: What holds of the primitive steps of a binder holds of normalizing a text.
import DataBound.Binder
import DataBound.Proofs.Resolution

/-!
# Normalization as a program over primitive steps

Normalizing a text goes back and forth between the resolution of paths and the texts of values, as often as the limit
allows. A sequential property of the few primitive steps is one of normalizing every text at every limit.
-/

namespace DataBound.Binder

variable {σ : Type} {P : ∀ {α : Type}, Action (State σ) α → Prop}

/-- The steps from which normalization is made have the property. -/
structure Primitives (P : ∀ {α : Type}, Action (State σ) α → Prop) (binder : Binder σ) (host : Host σ) : Prop where
  shortcut (raw : String) : P (binder.takesShortcut raw)
  tree (raw : String) : P (readTree raw : Action (State σ) (List Node))
  get (path : DataPath) : P (intern path >>= fun b => call (host.get b))
  evaluate (source : String) : P (call (host.evaluate source))
  collect (updates : Updates) :
    P (modify fun s => { s with pending := Updates.merge s.pending updates } : Action (State σ) Unit)
  taps {services : Services (State σ)} : services.All P →
    ∀ tap ∈ binder.beforeNode.taps, Services.TapAll P services tap.handler

/-- An error that normalizing finds by itself, without the host: a text that is no path, or a value that leads nowhere. -/
inductive Finds : Error → Prop where
  | badPath {text fault} : Path.read text = .error fault → Finds (.badPath text fault)
  | notScalar {typeName} : Finds (.notScalar typeName)
  | undefined : Finds .undefined
  | emptyReference : Finds .emptyReference

/-- What is found has no cause behind it. -/
theorem Finds.rootCause {e : Error} (h : Finds e) : Finds e.rootCause := by
  cases h with
  | badPath hread => exact .badPath hread
  | notScalar => exact .notScalar
  | undefined => exact .undefined
  | emptyReference => exact .emptyReference

theorem finds_of_pathText {value : Value} {e : Error} (h : value.pathText = .error e) : Finds e := by
  cases value with
  | null | array _ | object _ =>
    cases h
    exact .notScalar
  | bool _ | number _ | string _ => cases h

variable {binder : Binder σ} {host : Host σ}

/-- The services have the property if the steps have it, and so do failing with what is found and normalizing. -/
theorem Primitives.services_all (hP : Action.Composed P)
    (hfinds : ∀ {α : Type} {e : Error}, Finds e → P (throw e : Action (State σ) α)) (h : Primitives P binder host)
    {normalize : String → Action (State σ) Resolved} (hnormalize : ∀ raw, P (normalize raw)) :
    (services host normalize).All P where
  valueAt path := h.get path
  evaluate source := h.evaluate source
  textOf value := by
    cases value with
    | none => exact hfinds .undefined
    | some value =>
      apply hP.bind
      · cases hvalue : value.pathText with
        | error e => exact hfinds (finds_of_pathText hvalue)
        | ok text => exact hP.pure text
      · intro text
        apply hP.bind (hnormalize text)
        intro normalized
        apply hP.bind (h.collect normalized.updates)
        intro _
        dsimp only
        split
        · exact hP.bind (hfinds .emptyReference) fun _ => hP.pure _
        · exact hP.pure _

/-- Normalization has every sequential property that its primitive steps have. -/
theorem Primitives.normalize_all (hP : Action.Sequential P) (h : Primitives P binder host) (limit : Nat) :
    ∀ raw, P (binder.normalize host limit raw) := by
  induction limit with
  | zero =>
    intro raw
    exact hP.exhausted
  | succ limit ih =>
    intro raw
    apply hP.bind (h.shortcut raw)
    intro shortcut
    cases shortcut with
    | true => exact hP.pure _
    | false =>
      apply hP.bind (h.tree raw)
      intro tree
      apply hP.mapError
      · intro e
        rfl
      · -- the texts of values are normalized at the smaller limit
        have hs := h.services_all hP.toComposed (fun _ => hP.throw _) ih
        exact Services.resolve_all hP hs (h.taps hs) tree

/-- Reading a tree keeps what does not depend on the trees that are kept. -/
theorem keeps_readTree {I : State σ → Prop} (hI : ∀ s trees, I s → I { s with trees }) (raw : String) :
    Action.Keeps I (readTree raw : Action (State σ) (List Node)) := by
  intro s r s' hs h
  rw [readTree, Action.get_bind_ends] at h
  split at h
  · rw [Action.pure_ends] at h
    exact h.2 ▸ hs
  · split at h
    · rw [Action.throw_ends] at h
      exact h.2 ▸ hs
    · rw [Action.modify_bind_ends, Action.pure_ends] at h
      exact h.2 ▸ hI _ _ hs

end DataBound.Binder
