-- SUMMARY: Binders over hosts that only read: parsing leaves the data alone, and what empty and plain texts lead to.
import DataBound.Proofs.Binder.Shortcut

/-!
# Binders that only read

A host that is read-only and whose answers leave its state as it is never changes, whatever texts are parsed and however
the values in it lead on to others. The empty text names no part of the data: its binding has no segments, so what is
found there is the document itself. A plain text leads along its own segments, whatever the host answers.
-/

namespace DataBound

variable {σ : Type}

/-- Nothing is written through the host, and its answers leave its state as it is. -/
structure Host.OnlyReads (host : Host σ) : Prop where
  readOnly : host.readOnly = true
  get (b : Binding) (s : σ) : ((host.get b).run.run s).2 = s
  evaluate (source : String) (s : σ) : ((host.evaluate source).run.run s).2 = s

/-- A document is only read if writing query defaults is off. -/
theorem Host.ofDocument_onlyReads (read : σ → Value) (write : Value → σ → σ) :
    ({ ofDocument read write with readOnly := true } : Host σ).OnlyReads where
  readOnly := rfl
  get _ _ := rfl
  evaluate _ _ := rfl

namespace Binder

/-- The caches are sound and the host is in a given state. -/
structure State.Over (world : σ) (s : State σ) : Prop where
  sound : s.Sound
  host_eq : s.host = world

variable {world : σ} {host : Host σ}

theorem keeps_over_of_keeps {α : Type} {x : Action (State σ) α} (hsound : Action.Keeps State.Sound x)
    (hhost : ∀ s r s', x.Ends s r s' → s'.host = s.host) : Action.Keeps (State.Over world) x := by
  intro s r s' hs h
  exact ⟨hsound s r s' hs.sound h, (hhost s r s' h).trans hs.host_eq⟩

theorem keeps_over_intern (path : DataPath) :
    Action.Keeps (State.Over world) (intern path : Action (State σ) Binding) := by
  apply keeps_over_of_keeps (keeps_sound_intern path)
  intro s r s' h
  obtain ⟨-, rfl⟩ := intern_ends.1 h
  rfl

theorem keeps_over_readTree (raw : String) :
    Action.Keeps (State.Over world) (readTree raw : Action (State σ) (List Node)) := by
  intro s r s' hs h
  obtain ⟨trees, hends, hsound⟩ := hs.sound.readTree_ends raw
  obtain ⟨-, rfl⟩ := h.unique hends
  exact ⟨hsound, hs.host_eq⟩

theorem keeps_over_call {α : Type} {callback : Callback σ α} (h : ∀ s, (callback.run.run s).2 = s) :
    Action.Keeps (State.Over world) (call callback) := by
  apply keeps_over_of_keeps (keeps_sound_call callback)
  intro s r s' hends
  obtain ⟨-, rfl⟩ := call_ends.1 hends
  exact h s.host

theorem keeps_over_primitives (hhost : host.OnlyReads) :
    Primitives (Action.Keeps (State.Over world)) (ofHost host) host where
  shortcut raw := by
    unfold takesShortcut
    split
    · exact Action.keeps_ofState fun s hs => ⟨⟨hs.sound.trees, hs.sound.interner⟩, hs.host_eq⟩
    · exact Action.keeps_sequential.pure false
  tree raw := keeps_over_readTree raw
  get path := Action.keeps_sequential.bind (keeps_over_intern path) fun b => keeps_over_call (hhost.get b)
  evaluate source := keeps_over_call (hhost.evaluate source)
  collect _ := Action.keeps_modify fun s hs => ⟨⟨hs.sound.trees, hs.sound.interner⟩, hs.host_eq⟩
  taps _ _ hmem := nomatch hmem

theorem ofHost_parse (host : Host σ) (limit : Nat) (raw : String) :
    (ofHost host).parse limit raw = (do
      let found ← (ofHost host).resolveText host limit raw
      writeDefaults host found.updates
      intern found.path) := parseText_eq _ _ _ _

/-- Parsing leaves the data alone. -/
theorem keeps_over_parse (hhost : host.OnlyReads) (limit : Nat) (raw : String) :
    Action.Keeps (State.Over world) ((ofHost host).parse limit raw) := by
  have hP := Action.keeps_sequential (σ := State σ) (I := State.Over world)
  rw [ofHost_parse]
  apply hP.bind
  · apply hP.bind
    · exact Action.keeps_modify fun s hs => ⟨⟨hs.sound.trees, hs.sound.interner⟩, hs.host_eq⟩
    · intro _
      apply hP.bind ((keeps_over_primitives hhost).normalize_all hP limit raw)
      intro normalized
      apply hP.bind _ fun s => hP.pure _
      intro s r s' hs h
      exact (Action.get_ends.1 h).2 ▸ hs
  · intro found
    apply hP.bind
    · rw [writeDefaults_eq, hhost.readOnly]
      exact hP.pure ()
    · intro _
      exact keeps_over_intern found.path

/-! ## The empty text -/

/-- The empty text is read by the grammar, as the path without segments. -/
theorem normalize_empty_ends (host : Host σ) (limit : Nat) {s : State σ} (hs : s.Sound) :
    ∃ trees, ((ofHost host).normalize host (limit + 1) "").Ends s (.ok .empty) { s with trees } ∧
      State.Sound { s with trees } := by
  obtain ⟨trees, htree, hsound⟩ := hs.readTree_ends ""
  have hshortcut : (ofHost host).takesShortcut "" = pure false := by
    rw [takesShortcut, if_neg]
    decide +kernel
  have hread : Path.read "" = .ok [] := by rfl
  rw [hread] at htree
  refine ⟨trees, ?_, hsound⟩
  rw [normalize, hshortcut]
  exact htree.bind (Action.mapError_ends.2 ⟨.ok .empty, Action.pure_ends_self _ _, rfl⟩)

theorem normalize_empty {limit : Nat} {s s' : State σ} {r : Except Error Resolved} (hs : s.Sound)
    (h : ((ofHost host).normalize host limit "").Ends s r s') : r = .ok .empty ∧ s'.Sound := by
  cases limit with
  | zero => exact absurd h Action.not_exhausted_ends
  | succ limit =>
    obtain ⟨trees, hends, hsound⟩ := normalize_empty_ends host limit hs
    obtain ⟨rfl, rfl⟩ := h.unique hends
    exact ⟨rfl, hsound⟩

/-- A parse fails as normalizing does, and else gives a binding of the normal path. -/
theorem exists_normalize_of_parse (hhost : host.OnlyReads) {limit : Nat} {raw : String} {s s' : State σ}
    {r : Except Error Binding} (hs : s.Over world) (h : ((ofHost host).parse limit raw).Ends s r s') :
    ∃ cleared normalized s₁, cleared.Over world ∧
      ((ofHost host).normalize host limit raw).Ends cleared normalized s₁ ∧
      r.map Binding.path = normalized.map Resolved.path := by
  have hcleared : ({ s with pending := [] } : State σ).Over world := ⟨⟨hs.sound.trees, hs.sound.interner⟩, hs.host_eq⟩
  rw [ofHost_parse, resolveText, bind_assoc, Action.modify_bind_ends, bind_assoc] at h
  rcases Action.bind_ends.1 h with ⟨e, hnormalize, rfl⟩ | ⟨normalized, s₁, hnormalize, hrest⟩
  · exact ⟨_, _, _, hcleared, hnormalize, rfl⟩
  · have hover := (keeps_over_primitives hhost).normalize_all Action.keeps_sequential limit raw
      _ _ _ hcleared hnormalize
    rw [bind_assoc, Action.get_bind_ends, pure_bind, writeDefaults_eq, hhost.readOnly] at hrest
    obtain ⟨b, interner, hintern, -, hpath⟩ := hover.sound.intern_ends normalized.path
    obtain ⟨rfl, -⟩ := Action.Ends.unique hrest ((Action.pure_ends_self () _).bind hintern)
    exact ⟨_, _, _, hcleared, hnormalize, by simp only [Except.map, hpath]⟩

theorem path_of_parse_empty (hhost : host.OnlyReads) {limit : Nat} {s s' : State σ} {b : Binding} (hs : s.Over world)
    (h : ((ofHost host).parse limit "").Ends s (.ok b) s') : b.path = [] := by
  obtain ⟨cleared, normalized, s₁, hcleared, hnormalize, hpath⟩ := exists_normalize_of_parse hhost hs h
  obtain ⟨rfl, -⟩ := normalize_empty hcleared.sound hnormalize
  exact Except.ok.inj hpath

/-! ## What is read at a text -/

theorem valueAt?_eq {binder : Binder σ} {limit : Nat} {document : σ → Value} {raw : String} {s s' : State σ}
    {r : Option Value} (h : binder.valueAt? limit document raw s = some (r, s')) :
    ∃ parsed, (binder.parse limit raw).Ends s parsed s' ∧
      r = (parsed.map Binding.path).toOption.bind (document s'.host).get? := by
  obtain ⟨⟨parsed, s₁⟩, hparse, hrest⟩ := Option.bind_eq_some_iff.1 h
  cases parsed with
  | ok b =>
    cases hrest
    exact ⟨.ok b, hparse, rfl⟩
  | error e =>
    cases hrest
    exact ⟨.error e, hparse, rfl⟩

/-- Reading at a text leaves the data alone, and what is read at the empty text is the whole document. -/
theorem valueAt?_over (hhost : host.OnlyReads) {limit : Nat} {document : σ → Value} {raw : String} {s s' : State σ}
    {r : Option Value} (hs : s.Over world) (h : (ofHost host).valueAt? limit document raw s = some (r, s')) :
    s'.Over world ∧ (raw = "" → ∀ v, r = some v → v = document world) := by
  obtain ⟨parsed, hparse, rfl⟩ := valueAt?_eq h
  have hover := keeps_over_parse hhost limit raw s parsed s' hs hparse
  refine ⟨hover, ?_⟩
  rintro rfl v hv
  cases parsed with
  | error e => cases hv
  | ok b =>
    have hget : (document s'.host).get? b.path = some v := hv
    rw [path_of_parse_empty hhost hs hparse, Value.get?_nil, hover.host_eq, Option.some.injEq] at hget
    exact hget.symm

/-- At the empty text the whole document is read. -/
theorem valueAt?_empty (hhost : host.OnlyReads) (limit : Nat) (document : σ → Value) {s : State σ} (hs : s.Over world) :
    ∃ s', (ofHost host).valueAt? (limit + 1) document "" s = some (some (document world), s') ∧ s'.Over world := by
  have hcleared : ({ s with pending := [] } : State σ).Sound := ⟨hs.sound.trees, hs.sound.interner⟩
  obtain ⟨trees, hnormalize, hsound⟩ := normalize_empty_ends host limit hcleared
  obtain ⟨b, interner, hintern, -, hpath⟩ := hsound.intern_ends []
  have hparse : ((ofHost host).parse (limit + 1) "").Ends s (.ok b) ⟨trees, interner, [], s.host⟩ := by
    rw [ofHost_parse]
    refine (resolveText_ends_of_normalize hnormalize).bind ?_
    rw [writeDefaults_eq, hhost.readOnly]
    exact (Action.pure_ends_self () _).bind hintern
  have hread : (ofHost host).valueAt? (limit + 1) document "" s =
      some ((document s.host).get? b.path, ⟨trees, interner, [], s.host⟩) :=
    Option.bind_eq_some_iff.2 ⟨_, hparse, rfl⟩
  rw [hpath, Value.get?_nil, hs.host_eq] at hread
  exact ⟨_, hread, (valueAt?_over hhost hs hread).1⟩

/-- A plain text is read at its own segments. -/
theorem valueAt?_plain (host : Host σ) (limit : Nat) (document : σ → Value) {raw : String}
    (hraw : PlainText raw.toList) {s : State σ} (hs : s.Over world) :
    ∃ s', (ofHost host).valueAt? (limit + 1) document raw s = some ((document world).get? (.ofText raw), s') ∧
      s'.host = world := by
  obtain ⟨trees, hends⟩ := parseText_plain_ends (rfl : (ofHost host).beforeNode = ∅) host limit hraw hs.sound
  have hpath := hs.sound.interner.intern_path (.ofText raw)
  have hread : (ofHost host).valueAt? (limit + 1) document raw s =
      some ((document s.host).get? (s.interner.intern (.ofText raw)).1.path,
        ⟨trees, (s.interner.intern (.ofText raw)).2, [], s.host⟩) :=
    Option.bind_eq_some_iff.2 ⟨_, hends, rfl⟩
  rw [hpath, hs.host_eq] at hread
  exact ⟨_, hread, rfl⟩

/-- What the host answers for a binding depends on the path that the binding leads along. -/
def ReadsPaths (host : Host σ) : Prop :=
  ∀ (b b' : Binding) (s : σ), b.path = b'.path → ((host.get b).run.run s).1 = ((host.get b').run.run s).1

theorem ofDocument_readsPaths (read : σ → Value) (write : Value → σ → σ) :
    ReadsPaths (Host.ofDocument read write) := by
  intro b b' s hpath
  have hanswer : ∀ c : Binding, (((Host.ofDocument read write).get c).run.run s).1 = .ok ((read s).get? c.path) :=
    fun _ => rfl
  exact (hanswer b).trans (hpath ▸ (hanswer b').symm)

end Binder

end DataBound
