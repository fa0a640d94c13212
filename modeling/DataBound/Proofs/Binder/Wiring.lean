-- SUMMARY: Binders that record the calls of their host, with taps that are programs over the services.
import DataBound.Binder
import DataBound.Proofs.Resolution

/-!
# Wirings

A `Wiring` is a host together with the taps of a binder. Its binder works on a `Recorded` state: the world that the
host and the taps share, and the list of the calls that the host has answered so far.

Taps decide what they do by programs. The taps on nodes can use the services of the resolution, as in `Inquiry`,
and all taps can look at the world and change it, but none of them reaches the caches of the binder or the record.
-/

namespace DataBound

/-! ## Calls -/

/-- A call of one of the host's operations, with the host's answer. -/
inductive Call where
  | get (b : Binding) (answer : Except Error (Option Value))
  | evaluate (source : String) (answer : Except Error (Option Value))
  | set (writes : List (Binding × Value)) (answer : Except Error Unit)

namespace Call

/-- Does the call ask for a value? -/
def isAsk : Call → Bool
  | .get .. | .evaluate .. => true
  | .set .. => false

/-- The call without the identities of its bindings. -/
def forget : Call → Call
  | .get b answer => .get (.of b.path 0 false) answer
  | .evaluate source answer => .evaluate source answer
  | .set writes answer => .set (writes.map fun (b, value) => (.of b.path 0 false, value)) answer

end Call

/-- A world and the calls of the host up to now, the oldest first. -/
structure Recorded (σ : Type) where
  world : σ
  calls : List Call

variable {σ α : Type}

/-- The callback on a recorded world; `entry` is what is noted down for an answer. -/
def Callback.recorded (entry : Except Error α → Call) (callback : Callback σ α) : Callback (Recorded σ) α :=
  ExceptT.mk fun s =>
    let (answer, world) := callback.run s.world
    (answer, ⟨world, s.calls ++ [entry answer]⟩)

namespace Host

/-- The host with its calls recorded. -/
def recorded (host : Host σ) : Host (Recorded σ) where
  get := fun b => Callback.recorded (.get b) (host.get b)
  set := fun writes => Callback.recorded (.set writes) (host.set writes)
  evaluate := fun source => Callback.recorded (.evaluate source) (host.evaluate source)
  readOnly := host.readOnly

/-- The replacements with their calls recorded. -/
def Overrides.recorded (parts : Overrides σ) : Overrides (Recorded σ) where
  get := parts.get.map fun get b => Callback.recorded (.get b) (get b)
  set := parts.set.map fun set writes => Callback.recorded (.set writes) (set writes)
  evaluate := parts.evaluate.map fun evaluate source => Callback.recorded (.evaluate source) (evaluate source)
  readOnly := parts.readOnly

theorem override_recorded (host : Host σ) (parts : Overrides σ) :
    host.recorded.override parts.recorded = (host.override parts).recorded := by
  obtain ⟨get, set, evaluate, readOnly⟩ := parts
  cases get <;> cases set <;> cases evaluate <;> rfl

/-- From this world on the host gives the recorded answers, whatever identities the bindings have. -/
def Replies (host : Host σ) : σ → List Call → Prop
  | _, [] => True
  | world, .get b answer :: rest =>
    ∀ b', b'.path = b.path →
      ((host.get b').run.run world).1 = answer ∧ host.Replies ((host.get b').run.run world).2 rest
  | world, .evaluate source answer :: rest =>
    ((host.evaluate source).run.run world).1 = answer ∧
      host.Replies ((host.evaluate source).run.run world).2 rest
  | world, .set writes answer :: rest =>
    ∀ writes', (Call.set writes' answer).forget = (Call.set writes answer).forget →
      ((host.set writes').run.run world).1 = answer ∧ host.Replies ((host.set writes').run.run world).2 rest

end Host

/-! ## Taps -/

/-- What a tap on nodes does until it gives a node: it uses the services, looks at the world and changes it. -/
inductive Inquiry (σ : Type) where
  | give (node : Node)
  | valueAt (path : DataPath) (next : Except Error (Option Value) → Inquiry σ)
  | evaluate (source : String) (next : Except Error (Option Value) → Inquiry σ)
  | textOf (value : Option Value) (next : Except Error String → Inquiry σ)
  | look (next : σ → Inquiry σ)
  | change (f : σ → σ) (next : Inquiry σ)

namespace Inquiry

/-- The inquiry on the state of a binder. -/
def run (services : Services (Binder.State (Recorded σ))) : Inquiry σ → Run (Binder.State (Recorded σ)) Node
  | .give node => pure node
  | .valueAt path next => do
    let answer ← (services.valueAt path).run
    (next answer).run services
  | .evaluate source next => do
    let answer ← (services.evaluate source).run
    (next answer).run services
  | .textOf value next => do
    let answer ← (services.textOf value).run
    (next answer).run services
  | .look next => do
    let s ← get
    (next s.host.world).run services
  | .change f next => do
    modify fun s => { s with host.world := f s.host.world }
    next.run services

/-- The inquiry neither looks at the world nor changes it, whatever the services answer. -/
def Pure : Inquiry σ → Prop
  | .give _ => True
  | .valueAt _ next => ∀ answer, (next answer).Pure
  | .evaluate _ next => ∀ answer, (next answer).Pure
  | .textOf _ next => ∀ answer, (next answer).Pure
  | .look _ => False
  | .change _ _ => False

/-- Looking at the world and changing it have the property. -/
structure Worldly (P : ∀ {α : Type}, Action (Binder.State (Recorded σ)) α → Prop) : Prop where
  look : P (get : Action (Binder.State (Recorded σ)) _)
  change (f : σ → σ) : P (modify fun s => { s with host.world := f s.host.world } :
    Action (Binder.State (Recorded σ)) Unit)

/-- An inquiry has every sequential property of its services, if it is pure or the property is worldly. -/
theorem run_all {P : ∀ {α : Type}, Action (Binder.State (Recorded σ)) α → Prop} (hP : Action.Sequential P)
    {services : Services (Binder.State (Recorded σ))} (hs : services.All P) {inquiry : Inquiry σ}
    (h : inquiry.Pure ∨ Worldly P) : P (liftM (inquiry.run services) : Action _ Node) := by
  induction inquiry with
  | give node => exact hP.pure node
  | valueAt path next ih =>
    rw [run, liftM_bind]
    apply hP.bind (hP.attempt (hs.valueAt path))
    intro answer
    exact ih answer (h.imp_left fun hpure => hpure answer)
  | evaluate source next ih =>
    rw [run, liftM_bind]
    apply hP.bind (hP.attempt (hs.evaluate source))
    intro answer
    exact ih answer (h.imp_left fun hpure => hpure answer)
  | textOf value next ih =>
    rw [run, liftM_bind]
    apply hP.bind (hP.attempt (hs.textOf value))
    intro answer
    exact ih answer (h.imp_left fun hpure => hpure answer)
  | look next ih =>
    rcases h with hpure | hworld
    · exact hpure.elim
    · rw [run, liftM_bind]
      apply hP.bind hworld.look
      intro s
      exact ih s.host.world (.inr hworld)
  | change f next ih =>
    rcases h with hpure | hworld
    · exact hpure.elim
    · rw [run, liftM_bind]
      apply hP.bind (hworld.change f)
      intro _
      exact ih (.inr hworld)

end Inquiry

/-! ## Wirings -/

/-- The hook with every handler replaced. -/
def Hook.map {β : Type} (f : α → β) (hook : Hook α) : Hook β :=
  ⟨hook.taps.map fun tap => ⟨tap.name, f tap.handler⟩⟩

/-- Asking one handler after the other keeps what every one of them keeps. -/
theorem Hook.firstAnswer_keeps {τ β : Type} (I : τ → Prop) {ask : α → StateM τ (Option β)} {taps : List (Tap α)}
    {s : τ} (htaps : ∀ tap ∈ taps, ∀ s, I s → I ((ask tap.handler).run s).2) (hs : I s) :
    I ((Hook.firstAnswer ask taps).run s).2 := by
  induction taps generalizing s with
  | nil => exact hs
  | cons tap taps ih =>
    have htap := htaps tap List.mem_cons_self s hs
    rw [Hook.firstAnswer, StateT.run_bind]
    generalize (ask tap.handler).run s = asked at htap
    obtain ⟨answer, s₁⟩ := asked
    cases answer with
    | some answer => exact htap
    | none => exact ih (fun other hmem => htaps other (List.mem_cons_of_mem _ hmem)) htap

/-- Handlers that answer by themselves give one answer together. -/
theorem Hook.firstAnswer_eq_pure {β : Type} {m : Type → Type} [Monad m] [LawfulMonad m] {ask : α → m (Option β)}
    {taps : List (Tap α)} (h : ∀ tap ∈ taps, ∃ answer, ask tap.handler = pure answer) :
    ∃ answer, Hook.firstAnswer ask taps = pure answer := by
  induction taps with
  | nil => exact ⟨none, rfl⟩
  | cons tap taps ih =>
    obtain ⟨answer, hanswer⟩ := h tap List.mem_cons_self
    rw [Hook.firstAnswer, hanswer, pure_bind]
    cases answer with
    | some answer => exact ⟨some answer, rfl⟩
    | none => exact ih fun other hmem => h other (List.mem_cons_of_mem _ hmem)

/-- A host and the taps of a binder. -/
structure Wiring (σ : Type) where
  host : Host σ
  skips : Hook (String → StateM σ (Option Bool))
  taps : Hook (Node → Resolved → Inquiry σ)

namespace Wiring

/-- The binder of the wiring, with the host's calls recorded. -/
def binder (w : Wiring σ) : Binder (Recorded σ) where
  host := w.host.recorded
  skipShortcut := w.skips.map fun ask => ⟨fun raw s =>
    let (answer, world) := (ask raw).run s.world
    (answer, { s with world })⟩
  beforeNode := w.taps.map fun tap node context => (tap node context.resolved).run context.services

/-- Asking the taps whether a text goes to the grammar calls nothing. -/
theorem skips_calls (w : Wiring σ) (raw : String) (s : Recorded σ) :
    ((w.binder.skipShortcut.bail fun tap => tap.ask raw).run s).2.calls = s.calls := by
  refine Hook.firstAnswer_keeps (fun s' : Recorded σ => s'.calls = s.calls) ?_ rfl
  intro tap hmem s' hs'
  obtain ⟨skip, -, rfl⟩ := List.mem_map.1 hmem
  exact hs'

/-- The taps are functions of what they are told and of the answers of the services. -/
structure Pure (w : Wiring σ) : Prop where
  skips : ∀ tap ∈ w.skips.taps, ∀ raw, ∃ answer, tap.handler raw = pure answer
  taps : ∀ tap ∈ w.taps.taps, ∀ node resolved, (tap.handler node resolved).Pure

/-- Whether a text goes to the grammar does not depend on the state, if the taps are pure. -/
theorem Pure.skips_eq_pure {w : Wiring σ} (hw : w.Pure) (raw : String) :
    ∃ answer, (w.binder.skipShortcut.bail fun tap => tap.ask raw) = pure answer := by
  apply Hook.firstAnswer_eq_pure
  intro tap hmem
  obtain ⟨skip, hskip, rfl⟩ := List.mem_map.1 hmem
  obtain ⟨answer, hanswer⟩ := hw.skips skip hskip raw
  refine ⟨answer, ?_⟩
  funext s
  simp only [hanswer]
  rfl

/-- The taps on nodes have every sequential property of the services, if they are pure or the property is worldly. -/
theorem tapAll {P : ∀ {α : Type}, Action (Binder.State (Recorded σ)) α → Prop} (hP : Action.Sequential P)
    {w : Wiring σ} (h : w.Pure ∨ Inquiry.Worldly P) {services : Services (Binder.State (Recorded σ))}
    (hs : services.All P) : ∀ tap ∈ w.binder.beforeNode.taps, Services.TapAll P services tap.handler := by
  intro tap hmem node resolved
  obtain ⟨inquiring, hinquiring, rfl⟩ := List.mem_map.1 hmem
  apply Inquiry.run_all hP hs
  exact h.imp_left fun hpure => hpure.taps inquiring hinquiring node resolved

/-- A wiring without taps. -/
def ofHost (host : Host σ) : Wiring σ := ⟨host, ∅, ∅⟩

/-- A wiring without taps whose world is a document that is read and written. -/
def ofDocument : Wiring Value := ofHost (.ofDocument id fun document _ => document)

theorem ofDocument_get {b : Binding} {path : DataPath} (hb : b.path = path) (document : Value) :
    (ofDocument.host.get b).run.run document = (.ok (document.get? path), document) := by
  rw [← hb]
  rfl

theorem ofHost_pure (host : Host σ) : (ofHost host).Pure where
  skips _ hmem := nomatch hmem
  taps _ hmem := nomatch hmem

end Wiring

end DataBound
