-- SUMMARY: What a binder keeps has no part in what it reads and writes: only the host's state counts.
import DataBound.Proofs.Binder.Query
import DataBound.Proofs.Binder.ReadOnly

/-!
# Binders without their caches

A host goes by paths if it makes no difference between bindings of the same path. Then a read at a text is a computation
over the state of the host alone: from all sound states over the same state of the host it ends or does not end alike,
with the same value, and leaves the host in the same state. The one whose caches are empty stands for all of them.
-/

namespace DataBound

variable {σ : Type}

/-- Bindings of the same path are the same to the host, where it is asked and where it is written through. -/
structure Host.GoesByPaths (host : Host σ) : Prop where
  get (b b' : Binding) (s : σ) : b.path = b'.path → (host.get b).run.run s = (host.get b').run.run s
  set (writes writes' : List (Binding × Value)) (s : σ) : host.readOnly = false →
    writes.map (fun write => (write.1.path, write.2)) = writes'.map (fun write => (write.1.path, write.2)) →
    (host.set writes).run.run s = (host.set writes').run.run s

theorem Host.ofDocument_goesByPaths (read : σ → Value) (write : Value → σ → σ) :
    (Host.ofDocument read write).GoesByPaths where
  get b b' s hpath := by
    have hanswer : ∀ c : Binding, ((ofDocument read write).get c).run.run s = (.ok ((read s).get? c.path), s) :=
      fun _ => rfl
    rw [hanswer, hanswer, hpath]
  set writes writes' s _ hsame := by
    have hanswer : ∀ writes : List (Binding × Value), ((ofDocument read write).set writes).run.run s =
        (.ok (), write (Value.setAll (writes.map fun write => (write.1.path, write.2)) (read s)) s) := fun _ => rfl
    rw [hanswer, hanswer, hsame]

/-- A host that only reads goes by paths if its answers do. -/
theorem Host.OnlyReads.goesByPaths {host : Host σ} (h : host.OnlyReads) (hpaths : Binder.ReadsPaths host) :
    host.GoesByPaths where
  get b b' s hpath := Prod.ext (hpaths b b' s hpath) ((h.get b s).trans (h.get b' s).symm)
  set _ _ _ hwritable := by
    rw [h.readOnly] at hwritable
    cases hwritable

namespace Binder

variable {α : Type} {host : Host σ}

/-- Sound states that differ in nothing but in what is kept. -/
structure State.Agrees (s t : State σ) : Prop where
  left : s.Sound
  right : t.Sound
  host : t.host = s.host
  pending : t.pending = s.pending

/-- What the action does from one state, it does from all that agree with it. -/
def Oblivious (x : Action (State σ) α) : Prop :=
  ∀ s t r s', s.Agrees t → x.Ends s r s' → ∃ t', x.Ends t r t' ∧ s'.Agrees t'

theorem oblivious_sequential : Action.Sequential (fun x => Oblivious (σ := σ) x) where
  pure a := by
    intro s t r s' hagrees h
    obtain ⟨rfl, rfl⟩ := Action.pure_ends.1 h
    exact ⟨t, Action.pure_ends_self a t, hagrees⟩
  throw e := by
    intro s t r s' hagrees h
    obtain ⟨rfl, rfl⟩ := Action.throw_ends.1 h
    exact ⟨t, Action.throw_ends.2 ⟨rfl, rfl⟩, hagrees⟩
  exhausted := by
    intro _ s t r s' _ h
    exact absurd h Action.not_exhausted_ends
  bind hx hf := by
    intro s t r s' hagrees h
    rcases Action.bind_ends.1 h with ⟨e, he, rfl⟩ | ⟨a, s₁, ha, hrest⟩
    · obtain ⟨t', he', hagrees'⟩ := hx _ _ _ _ hagrees he
      exact ⟨t', he'.bind_error, hagrees'⟩
    · obtain ⟨t₁, ha', hagrees₁⟩ := hx _ _ _ _ hagrees ha
      obtain ⟨t', hrest', hagrees'⟩ := hf a _ _ _ _ hagrees₁ hrest
      exact ⟨t', ha'.bind hrest', hagrees'⟩
  mapError _ hx := by
    intro s t r s' hagrees h
    obtain ⟨r₁, h₁, rfl⟩ := Action.mapError_ends.1 h
    obtain ⟨t', h', hagrees'⟩ := hx _ _ _ _ hagrees h₁
    exact ⟨t', Action.mapError_ends.2 ⟨r₁, h', rfl⟩, hagrees'⟩
  attempt hx := by
    intro s t r s' hagrees h
    obtain ⟨a, hrun, rfl⟩ := Action.lift_ends.1 h
    obtain ⟨t', h', hagrees'⟩ := hx _ _ _ _ hagrees hrun
    exact ⟨t', Action.lift_ends.2 ⟨a, h', rfl⟩, hagrees'⟩

theorem oblivious_modify {change : State σ → State σ} (h : ∀ s t, s.Agrees t → (change s).Agrees (change t)) :
    Oblivious (modify change : Action (State σ) Unit) := by
  intro s t r s' hagrees hends
  obtain ⟨rfl, rfl⟩ := Action.modify_ends.1 hends
  exact ⟨change t, Action.modify_ends.2 ⟨rfl, rfl⟩, h s t hagrees⟩

theorem oblivious_call (callback : Callback σ α) : Oblivious (call callback) := by
  intro s t r s' hagrees h
  obtain ⟨rfl, rfl⟩ := call_ends.1 h
  rw [← hagrees.host]
  exact ⟨_, call_ends.2 ⟨rfl, rfl⟩, ⟨hagrees.left.trees, hagrees.left.interner⟩,
    ⟨hagrees.right.trees, hagrees.right.interner⟩, rfl, hagrees.pending⟩

/-- What is done with the binding of a path is done from all states if it goes by the path. -/
theorem oblivious_intern_bind {path : DataPath} {f : Binding → Action (State σ) α} (hf : ∀ b, Oblivious (f b))
    (hpath : ∀ b b', b.path = b'.path → f b = f b') : Oblivious (intern path >>= f) := by
  intro s t r s' hagrees h
  obtain ⟨b, interner, hintern, hsound, hb⟩ := hagrees.left.intern_ends path
  obtain ⟨b', interner', hintern', hsound', hb'⟩ := hagrees.right.intern_ends path
  rw [hintern.bind_iff] at h
  obtain ⟨t', h', hagrees'⟩ := hf b _ { t with interner := interner' } _ _
    ⟨hsound, hsound', hagrees.host, hagrees.pending⟩ h
  rw [hpath b b' (hb.trans hb'.symm)] at h'
  exact ⟨t', hintern'.bind h', hagrees'⟩

theorem oblivious_primitives (hpaths : host.GoesByPaths) : Primitives Oblivious (ofHost host) host where
  shortcut raw := by
    unfold takesShortcut
    split
    · intro s t r s' hagrees h
      obtain ⟨rfl, rfl⟩ := Action.ofState_ends.1 h
      exact ⟨t, Action.ofState_ends.2 ⟨rfl, rfl⟩, hagrees⟩
    · exact oblivious_sequential.pure false
  tree raw := by
    intro s t r s' hagrees h
    obtain ⟨trees, hread, hsound⟩ := hagrees.left.readTree_ends raw
    obtain ⟨trees', hread', hsound'⟩ := hagrees.right.readTree_ends raw
    obtain ⟨rfl, rfl⟩ := h.unique hread
    exact ⟨_, hread', hsound, hsound', hagrees.host, hagrees.pending⟩
  get path := by
    apply oblivious_intern_bind fun b => oblivious_call (host.get b)
    intro b b' hpath
    exact congrArg call (funext fun s => hpaths.get b b' s hpath)
  evaluate source := oblivious_call (host.evaluate source)
  collect updates := by
    apply oblivious_modify
    intro s t hagrees
    refine ⟨⟨hagrees.left.trees, hagrees.left.interner⟩, ⟨hagrees.right.trees, hagrees.right.interner⟩, hagrees.host, ?_⟩
    exact congrArg (fun pending => Updates.merge pending updates) hagrees.pending
  taps _ _ hmem := nomatch hmem

/-- What a text leads to does not depend on the writes that were collected before. -/
theorem resolveText_agrees (hpaths : host.GoesByPaths) {limit : Nat} {raw : String} {s t s' : State σ}
    {r : Except Error Resolved} (hs : s.Sound) (ht : t.Sound) (hhost : t.host = s.host)
    (h : ((ofHost host).resolveText host limit raw).Ends s r s') :
    ∃ t', ((ofHost host).resolveText host limit raw).Ends t r t' ∧ s'.Agrees t' := by
  have hagrees : State.Agrees { s with pending := [] } { t with pending := [] } :=
    ⟨⟨hs.trees, hs.interner⟩, ⟨ht.trees, ht.interner⟩, hhost, rfl⟩
  have hnormalize := (oblivious_primitives hpaths).normalize_all oblivious_sequential limit raw
  rw [resolveText, Action.modify_bind_ends] at h
  rcases Action.bind_ends.1 h with ⟨e, he, rfl⟩ | ⟨normalized, s₁, hok, hrest⟩
  · obtain ⟨t', he', hagrees'⟩ := hnormalize _ _ _ _ hagrees he
    exact ⟨t', resolveText_ends_of_normalize he', hagrees'⟩
  · obtain ⟨t', hok', hagrees'⟩ := hnormalize _ _ _ _ hagrees hok
    rw [Action.get_bind_ends] at hrest
    obtain ⟨rfl, rfl⟩ := Action.pure_ends.1 hrest
    have hresolved := resolveText_ends_of_normalize hok'
    rw [hagrees'.pending] at hresolved
    exact ⟨t', hresolved, hagrees'⟩

theorem oblivious_writeDefaults (hpaths : host.GoesByPaths) (updates : Updates) :
    Oblivious (writeDefaults host updates) := by
  rw [writeDefaults_eq]
  split
  · rename_i hwrites
    have hwritable : host.readOnly = false := by simpa using (Bool.and_eq_true_iff.1 hwrites).1
    intro s t r s' hagrees h
    obtain ⟨writes, interner, hinterned, hsound, hsame⟩ := hagrees.left.internAll_ends updates
    obtain ⟨writes', interner', hinterned', hsound', hsame'⟩ := hagrees.right.internAll_ends updates
    rw [hinterned.bind_iff] at h
    obtain ⟨t', h', hagrees'⟩ := oblivious_call (host.set writes) _ { t with interner := interner' } _ _
      ⟨hsound, hsound', hagrees.host, hagrees.pending⟩ h
    have hset : host.set writes = host.set writes' :=
      funext fun s => hpaths.set writes writes' s hwritable (hsame.trans hsame'.symm)
    rw [hset] at h'
    exact ⟨t', hinterned'.bind h', hagrees'⟩
  · exact oblivious_sequential.pure ()

/-- A parse comes to the same path or error from all sound states over the same state of the host. -/
theorem parse_agrees (hpaths : host.GoesByPaths) {limit : Nat} {raw : String} {s t s' : State σ}
    {r : Except Error Binding} (hs : s.Sound) (ht : t.Sound) (hhost : t.host = s.host)
    (h : ((ofHost host).parse limit raw).Ends s r s') :
    ∃ r' t', ((ofHost host).parse limit raw).Ends t r' t' ∧ r'.map Binding.path = r.map Binding.path ∧ s'.Agrees t' := by
  rw [ofHost_parse] at h ⊢
  rcases Action.bind_ends.1 h with ⟨e, he, rfl⟩ | ⟨found, s₁, hfound, hrest⟩
  · obtain ⟨t', he', hagrees⟩ := resolveText_agrees hpaths hs ht hhost he
    exact ⟨_, t', he'.bind_error, rfl, hagrees⟩
  · obtain ⟨t₁, hfound', hagrees₁⟩ := resolveText_agrees hpaths hs ht hhost hfound
    have hwrite := oblivious_writeDefaults hpaths found.updates
    rcases Action.bind_ends.1 hrest with ⟨e, he, rfl⟩ | ⟨written, s₂, hwritten, hintern⟩
    · obtain ⟨t', he', hagrees⟩ := hwrite _ _ _ _ hagrees₁ he
      exact ⟨_, t', hfound'.bind he'.bind_error, rfl, hagrees⟩
    · obtain ⟨t₂, hwritten', hagrees₂⟩ := hwrite _ _ _ _ hagrees₁ hwritten
      obtain ⟨b, interner, hends, hsound, hpath⟩ := hagrees₂.left.intern_ends found.path
      obtain ⟨b', interner', hends', hsound', hpath'⟩ := hagrees₂.right.intern_ends found.path
      obtain ⟨rfl, rfl⟩ := hintern.unique hends
      refine ⟨_, _, hfound'.bind (hwritten'.bind hends'), ?_, hsound, hsound', hagrees₂.host, hagrees₂.pending⟩
      exact congrArg Except.ok (hpath'.trans hpath.symm)

/-! ## Reading -/

/-- The value at a text and the state of the host after it was read, when nothing was kept before. -/
def read (host : Host σ) (limit : Nat) (document : σ → Value) (raw : String) : Run σ (Option Value) := fun world =>
  ((ofHost host).valueAt? limit document raw (.start .unbounded world)).map fun last => (last.1, last.2.host)

/-- A plain text is read at its own segments. -/
theorem read_plain (host : Host σ) (limit : Nat) (document : σ → Value) {raw : String} (hraw : PlainText raw.toList)
    (world : σ) : read host (limit + 1) document raw world = some ((document world).get? (.ofText raw), world) := by
  obtain ⟨s', hread, hhost⟩ := valueAt?_plain host limit document hraw
    (⟨State.sound_start _ _, rfl⟩ : (State.start .unbounded world : State σ).Over world)
  rw [read, hread, Option.map_some, hhost]

/-- The document with the defaults written into it; unless there are any, it is left alone. -/
def withDefaults (document : σ → Value) (write : Value → σ → σ) (updates : Updates) (world : σ) : σ :=
  if updates.isEmpty then world
  else write (Value.setAll (updates.map fun update => (update.path, update.value)) (document world)) world

theorem writeDefaults_document_ends (document : σ → Value) (write : Value → σ → σ) (updates : Updates) {s : State σ}
    (hs : s.Sound) : ∃ s', (writeDefaults (.ofDocument document write) updates).Ends s (.ok ()) s' ∧ s'.Sound ∧
      s'.host = withDefaults document write updates s.host := by
  rw [writeDefaults_eq]
  cases updates with
  | nil => exact ⟨s, Action.pure_ends_self () s, hs, rfl⟩
  | cons update rest =>
    obtain ⟨writes, interner, hinterned, hsound, hsame⟩ := hs.internAll_ends (update :: rest)
    refine ⟨_, hinterned.bind (call_ends.2 ⟨rfl, rfl⟩), ⟨hsound.trees, hsound.interner⟩, ?_⟩
    rw [withDefaults, ← hsame]
    rfl

/-- A text that asks for one value of a document is read where it leads to, once the defaults are written. -/
theorem read_of_asksOnce {raw : String} {base : DataPath} {lead : Option Value → Resolved} (ha : AsksOnce raw base lead)
    (limit : Nat) (document : σ → Value) (write : Value → σ → σ) (world : σ) :
    let found := lead ((document world).get? base)
    let written := withDefaults document write found.updates world
    read (.ofDocument document write) (limit + 1) document raw world =
      some ((document written).get? found.path, written) := by
  intro found written
  let host : Host σ := .ofDocument document write
  let s : State σ := .start .unbounded world
  have hget : ∀ b : Binding, b.path = base → (host.get b).run.run s.host = (.ok ((document world).get? base), world) := by
    rintro b rfl
    rfl
  obtain ⟨-, s₁, hresolve, hsound, -, hhost⟩ :=
    ha.lead_ends (rfl : (ofHost host).beforeNode = ∅) host limit (State.sound_start _ _ : s.Sound) hget
  obtain ⟨s₂, hwrite, hsound₂, hhost₂⟩ := writeDefaults_document_ends document write found.updates hsound
  rw [hhost] at hhost₂
  obtain ⟨b, interner, hintern, -, hpath⟩ := hsound₂.intern_ends found.path
  have hparse : ((ofHost host).parse (limit + 1) raw).Ends s (.ok b) { s₂ with interner } := by
    rw [ofHost_parse]
    exact hresolve.bind (hwrite.bind hintern)
  have hread : (ofHost host).valueAt? (limit + 1) document raw s =
      some ((document s₂.host).get? b.path, { s₂ with interner }) := Option.bind_eq_some_iff.2 ⟨_, hparse, rfl⟩
  rw [read, hread, Option.map_some, hhost₂, hpath]

theorem valueAt?_agrees (hpaths : host.GoesByPaths) {limit : Nat} {document : σ → Value} {raw : String}
    {s t s' : State σ} {r : Option Value} (hs : s.Sound) (ht : t.Sound) (hhost : t.host = s.host)
    (h : (ofHost host).valueAt? limit document raw s = some (r, s')) :
    ∃ t', (ofHost host).valueAt? limit document raw t = some (r, t') ∧ s'.Agrees t' := by
  obtain ⟨parsed, hparse, rfl⟩ := valueAt?_eq h
  obtain ⟨parsed', t', hparse', hpath, hagrees⟩ := parse_agrees hpaths hs ht hhost hparse
  refine ⟨t', ?_, hagrees⟩
  rw [← hpath, ← hagrees.host]
  refine Option.bind_eq_some_iff.2 ⟨(parsed', t'), hparse', ?_⟩
  cases parsed' <;> rfl

/-- From every sound state a read goes as it does with nothing kept. -/
theorem valueAt?_read (hpaths : host.GoesByPaths) (limit : Nat) (document : σ → Value) (raw : String) {world : σ}
    {s : State σ} (hs : s.Over world) :
    Option.Rel (fun last t => last.2.Over t.2 ∧ last.1 = t.1) ((ofHost host).valueAt? limit document raw s)
      (read host limit document raw world) := by
  have hstart : (State.start .unbounded world : State σ).Sound := State.sound_start _ _
  unfold read
  cases hread : (ofHost host).valueAt? limit document raw s with
  | some last =>
    obtain ⟨t', h', hagrees⟩ := valueAt?_agrees hpaths hs.sound hstart hs.host_eq.symm hread
    rw [h']
    exact .some ⟨⟨hagrees.left, hagrees.host.symm⟩, rfl⟩
  | none =>
    cases hstarted : (ofHost host).valueAt? limit document raw (.start .unbounded world) with
    | none => exact .none
    | some last =>
      obtain ⟨t', h', -⟩ := valueAt?_agrees hpaths hstart hs.sound hs.host_eq hstarted
      rw [hread] at h'
      cases h'

end Binder

end DataBound
