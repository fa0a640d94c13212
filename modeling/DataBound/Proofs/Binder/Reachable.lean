-- SUMMARY: The states that a binder can come into, and that their caches hold what they should.
import DataBound.Proofs.Binder.Wiring
import DataBound.Proofs.Binder.Normalization
import DataBound.Proofs.Binding

/-!
# Reachable states

A binder is asked for bindings and trees, its bindings for their parents and descendants, and its caches can be
cleared; in between the world goes its own way. Taps and host may be others at every request. In every state
that comes about in this way the caches are sound: a kept tree is the tree of its text, and a kept binding
stands under its own path.
-/

namespace DataBound.Binder

variable {σ α : Type}

/-- The caches hold what reading and interning would give. -/
structure State.Sound (s : State σ) : Prop where
  trees : ∀ raw tree, s.trees.get? raw = some tree → Path.read raw = .ok tree
  interner : s.interner.Sound

/-! ## Primitive steps -/

theorem State.sound_start (strategy : Cache.Strategy) (host : σ) : (State.start strategy host).Sound where
  trees raw tree h := by simp [start] at h
  interner := Interner.sound_empty strategy

theorem State.sound_clearCaches (s : State σ) : s.clearCaches.Sound where
  trees raw tree h := by simp [clearCaches] at h
  interner := Interner.sound_clear s.interner

theorem intern_ends {path : DataPath} {s s' : State σ} {r : Except Error Binding} :
    (intern path).Ends s r s' ↔
      r = .ok (s.interner.intern path).1 ∧ s' = { s with interner := (s.interner.intern path).2 } :=
  Action.ofState_ends

theorem call_ends {callback : Callback σ α} {s s' : State σ} {r : Except Error α} :
    (call callback).Ends s r s' ↔
      r = (callback.run s.host).1 ∧ s' = { s with host := (callback.run s.host).2 } :=
  Action.ofCallback_ends

/-- A recorded call is noted down with its answer. -/
theorem call_recorded_ends {entry : Except Error α → Call} {callback : Callback σ α} {s s' : State (Recorded σ)}
    {r : Except Error α} :
    (call (Callback.recorded entry callback)).Ends s r s' ↔
      r = (callback.run.run s.host.world).1 ∧
        s' = { s with host := ⟨(callback.run.run s.host.world).2, s.host.calls ++ [entry r]⟩ } := by
  rw [call_ends]
  constructor
  · rintro ⟨rfl, rfl⟩
    exact ⟨rfl, rfl⟩
  · rintro ⟨rfl, rfl⟩
    exact ⟨rfl, rfl⟩

theorem State.Sound.intern_ends {s : State σ} (hs : s.Sound) (path : DataPath) :
    ∃ b interner, (intern path).Ends s (.ok b) { s with interner } ∧
      ({ s with interner } : State σ).Sound ∧ b.path = path :=
  ⟨_, _, Binder.intern_ends.2 ⟨rfl, rfl⟩, ⟨hs.trees, hs.interner.intern path⟩, hs.interner.intern_path path⟩

/-- Reading a text gives its tree or fault, whatever is kept, and keeps the caches sound. -/
theorem State.Sound.readTree_ends {s : State σ} (hs : s.Sound) (raw : String) :
    ∃ trees, (readTree raw).Ends s ((Path.read raw).mapError (.badPath raw)) { s with trees } ∧
      ({ s with trees } : State σ).Sound := by
  cases hkept : s.trees.get? raw with
  | some tree =>
    refine ⟨s.trees, ?_, hs⟩
    rw [hs.trees raw tree hkept, readTree, Action.get_bind_ends, hkept]
    exact Action.pure_ends_self _ _
  | none =>
    cases hread : Path.read raw with
    | error fault =>
      refine ⟨s.trees, ?_, hs⟩
      rw [readTree, Action.get_bind_ends, hkept, hread]
      exact Action.throw_ends.2 ⟨rfl, rfl⟩
    | ok tree =>
      refine ⟨s.trees.insert raw tree, ?_, ⟨?_, hs.interner⟩⟩
      · rw [readTree, Action.get_bind_ends, hkept, hread]
        exact Action.modify_bind_ends.2 (Action.pure_ends_self tree _)
      · intro text kept hget
        rcases Cache.get?_of_insert hget with ⟨rfl, rfl⟩ | hold
        · exact hread
        · exact hs.trees text kept hold

/-! ## Keeping the caches sound -/

theorem keeps_sound_intern (path : DataPath) : Action.Keeps State.Sound (intern path : Action (State σ) Binding) :=
  Action.keeps_ofState fun _ hs => ⟨hs.trees, hs.interner.intern path⟩

theorem keeps_sound_readTree (raw : String) :
    Action.Keeps State.Sound (readTree raw : Action (State σ) (List Node)) := by
  intro s r s' hs h
  obtain ⟨trees, hends, hsound⟩ := hs.readTree_ends raw
  exact (h.unique hends).2 ▸ hsound

theorem keeps_sound_call (callback : Callback σ α) : Action.Keeps State.Sound (call callback) := by
  intro s r s' hs h
  rw [call_ends] at h
  obtain ⟨-, rfl⟩ := h
  exact ⟨hs.trees, hs.interner⟩

theorem keeps_sound_takesShortcut (binder : Binder σ) (raw : String) :
    Action.Keeps State.Sound (binder.takesShortcut raw) := by
  unfold takesShortcut
  split
  · exact Action.keeps_ofState fun _ hs => ⟨hs.trees, hs.interner⟩
  · exact Action.keeps_sequential.pure false

theorem sound_worldly : Inquiry.Worldly (σ := σ) (Action.Keeps State.Sound) where
  look := by
    intro s r s' hs h
    exact (Action.get_ends.1 h).2 ▸ hs
  change f := Action.keeps_modify fun _ hs => ⟨hs.trees, hs.interner⟩

theorem keeps_sound_primitives (w : Wiring σ) (host : Host (Recorded σ)) :
    Primitives (Action.Keeps State.Sound) w.binder host where
  shortcut raw := keeps_sound_takesShortcut w.binder raw
  tree raw := keeps_sound_readTree raw
  get path := Action.keeps_sequential.bind (keeps_sound_intern path) fun b => keeps_sound_call (host.get b)
  evaluate source := keeps_sound_call (host.evaluate source)
  collect _ := Action.keeps_modify fun _ hs => ⟨hs.trees, hs.interner⟩
  taps hs := Wiring.tapAll Action.keeps_sequential (.inr sound_worldly) hs

/-! ## The phases of a parse -/

/-- What a text leads to, with every write that was asked for on the way. -/
def resolveText (binder : Binder σ) (host : Host σ) (limit : Nat) (raw : String) : Action (State σ) Resolved := do
  modify fun s => { s with pending := [] }
  let normalized ← binder.normalize host limit raw
  let s ← get
  pure ⟨normalized.path, Updates.merge s.pending normalized.updates⟩

/-- Writes that have been collected before play no part in what a text leads to. -/
theorem resolveText_ends_of_normalize {binder : Binder σ} {host : Host σ} {limit : Nat} {raw : String} {s s' : State σ}
    {r : Except Error Resolved} (h : (binder.normalize host limit raw).Ends { s with pending := [] } r s') :
    (binder.resolveText host limit raw).Ends s
      (r.map fun normalized => ⟨normalized.path, Updates.merge s'.pending normalized.updates⟩) s' := by
  rw [resolveText, Action.modify_bind_ends]
  cases r with
  | error e => exact h.bind_error
  | ok normalized => exact h.bind (Action.get_bind_ends.2 (Action.pure_ends_self _ _))

/-- The bindings of what is to be written. -/
def internAll (updates : Updates) : Action (State σ) (List (Binding × Value)) :=
  updates.mapM fun update => do
    let b ← intern update.path
    pure (b, update.value)

/-- The bindings of what is to be written have the paths that were asked for. -/
theorem State.Sound.internAll_ends {s : State σ} (hs : s.Sound) (updates : Updates) :
    ∃ writes interner, (internAll updates).Ends s (.ok writes) { s with interner } ∧
      ({ s with interner } : State σ).Sound ∧
      writes.map (fun (b, value) => (b.path, value)) = updates.map fun update => (update.path, update.value) := by
  induction updates generalizing s with
  | nil => exact ⟨[], s.interner, Action.pure_ends_self _ _, hs, rfl⟩
  | cons update rest ih =>
    -- interning may drop other bindings, but the interner stays sound for the rest
    obtain ⟨b, interner, hintern, hsound, hpath⟩ := hs.intern_ends update.path
    obtain ⟨writes, interner', hrest, hsound', hwrites⟩ := ih hsound
    refine ⟨(b, update.value) :: writes, interner', ?_, hsound', ?_⟩
    · rw [internAll, List.mapM_cons]
      refine Action.Ends.bind (hintern.bind (Action.pure_ends_self _ _)) ?_
      exact hrest.bind (Action.pure_ends_self _ _)
    · simp only [List.map_cons, hpath, hwrites]

theorem writeDefaults_eq (host : Host σ) (updates : Updates) :
    writeDefaults host updates =
      if !host.readOnly && !updates.isEmpty then do
        let writes ← internAll updates
        call (host.set writes)
      else pure () := rfl

theorem parseText_eq (binder : Binder σ) (host : Host σ) (limit : Nat) (raw : String) :
    binder.parseText host limit raw =
      (do
        let found ← binder.resolveText host limit raw
        writeDefaults host found.updates
        intern found.path) := by
  simp only [parseText, resolveText, bind_assoc, pure_bind]

/-- What a source leads to; a binding leads to its own path and asks for nothing. -/
def resolveSource (binder : Binder σ) (host : Host σ) (limit : Nat) : PathSource → Action (State σ) Resolved
  | .text raw => binder.resolveText host limit raw
  | .segments path => binder.resolveText host limit path.text
  | .binding b => pure ⟨b.path, []⟩

/-- The steps of a whole parse have the property: those of normalization, and those before and after it. -/
structure Steps (P : ∀ {α : Type}, Action (State σ) α → Prop) (binder : Binder σ) (host : Host σ) : Prop
    extends Primitives P binder host where
  reset : P (modify fun s => { s with pending := [] } : Action (State σ) Unit)
  look : P (MonadState.get : Action (State σ) (State σ))
  intern (path : DataPath) : P (intern path)
  set (writes : List (Binding × Value)) : P (call (host.set writes))

section

variable {P : ∀ {α : Type}, Action (State σ) α → Prop} {binder : Binder σ} {host : Host σ}

theorem Steps.resolveText_all (hP : Action.Sequential P) (h : Steps P binder host) (limit : Nat) (raw : String) :
    P (binder.resolveText host limit raw) := by
  apply hP.bind h.reset
  intro _
  apply hP.bind (h.normalize_all hP limit raw)
  intro normalized
  exact hP.bind h.look fun s => hP.pure _

theorem Steps.internAll_all (hP : Action.Sequential P) (h : Steps P binder host) (updates : Updates) :
    P (internAll updates) := by
  induction updates with
  | nil => exact hP.pure []
  | cons update rest ih =>
    rw [internAll, List.mapM_cons]
    apply hP.bind
    · exact hP.bind (h.intern update.path) fun b => hP.pure _
    · intro write
      exact hP.bind ih fun writes => hP.pure _

theorem Steps.writeDefaults_all (hP : Action.Sequential P) (h : Steps P binder host) (updates : Updates) :
    P (writeDefaults host updates) := by
  rw [writeDefaults_eq]
  split
  · exact hP.bind (h.internAll_all hP updates) h.set
  · exact hP.pure ()

/-- A parse has every sequential property that its steps have. -/
theorem Steps.parseText_all (hP : Action.Sequential P) (h : Steps P binder host) (limit : Nat) (raw : String) :
    P (binder.parseText host limit raw) := by
  rw [parseText_eq]
  apply hP.bind (h.resolveText_all hP limit raw)
  intro found
  exact hP.bind (h.writeDefaults_all hP found.updates) fun _ => h.intern found.path

end

theorem keeps_sound_steps (w : Wiring σ) (host : Host (Recorded σ)) :
    Steps (Action.Keeps State.Sound) w.binder host where
  toPrimitives := keeps_sound_primitives w host
  reset := Action.keeps_modify fun _ hs => ⟨hs.trees, hs.interner⟩
  look := sound_worldly.look
  intern path := keeps_sound_intern path
  set writes := keeps_sound_call (host.set writes)

theorem keeps_sound_parseText (w : Wiring σ) (host : Host (Recorded σ)) (limit : Nat) (raw : String) :
    Action.Keeps State.Sound (w.binder.parseText host limit raw) :=
  (keeps_sound_steps w host).parseText_all Action.keeps_sequential limit raw

/-! ## Requests -/

/-- What can happen to a binder: the requests to it and to its bindings, and changes of the world around it. -/
inductive Request (σ : Type) where
  | parse (w : Wiring σ) (limit : Nat) (parts : Host.Overrides σ) (source : PathSource)
  | tree (raw : String)
  | parent (b : Binding)
  | descend (b : Binding) (below : DataPath)
  | clearCaches
  | world (change : σ → σ)

/-- Served in `s` the request leaves `s'` behind, also if it fails. -/
def Request.Leads : Request σ → State (Recorded σ) → State (Recorded σ) → Prop
  | .parse w limit parts source, s, s' => ∃ r, (w.binder.parseWith limit parts.recorded source).Ends s r s'
  | .tree raw, s, s' => ∃ r, (readTree raw).Ends s r s'
  | .parent b, s, s' => s' = { s with interner := (s.interner.parent b).2 }
  | .descend b below, s, s' => s' = { s with interner := (s.interner.descend b below).2 }
  | .clearCaches, s, s' => s' = s.clearCaches
  | .world change, s, s' => s' = { s with host.world := change s.host.world }

/-- The states that a binder comes into by any requests, whatever its caches do. -/
inductive Reachable : State (Recorded σ) → Prop
  | start (strategy : Cache.Strategy) (world : σ) : Reachable (State.start strategy ⟨world, []⟩)
  | step {s s' : State (Recorded σ)} (request : Request σ) : Reachable s → request.Leads s s' → Reachable s'

theorem Request.Leads.sound {request : Request σ} {s s' : State (Recorded σ)} (h : request.Leads s s')
    (hs : s.Sound) : s'.Sound := by
  cases request with
  | parse w limit parts source =>
    obtain ⟨r, hends⟩ := h
    cases source with
    | text raw => exact keeps_sound_parseText w _ limit raw s r s' hs hends
    | segments path => exact keeps_sound_parseText w _ limit path.text s r s' hs hends
    | binding b => exact (Action.pure_ends.1 hends).2 ▸ hs
  | tree raw =>
    obtain ⟨r, hends⟩ := h
    exact keeps_sound_readTree raw s r s' hs hends
  | parent b => exact h ▸ ⟨hs.trees, hs.interner.derive b _⟩
  | descend b below => exact h ▸ ⟨hs.trees, hs.interner.derive b _⟩
  | clearCaches => exact h ▸ s.sound_clearCaches
  | world change => exact h ▸ ⟨hs.trees, hs.interner⟩

/-- The caches of a reachable state are sound. -/
theorem Reachable.sound {s : State (Recorded σ)} (h : Reachable s) : s.Sound := by
  induction h with
  | start strategy world => exact State.sound_start strategy _
  | step request _ hleads ih => exact hleads.sound ih

end DataBound.Binder
