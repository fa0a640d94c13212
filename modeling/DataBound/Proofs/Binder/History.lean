-- SUMMARY: What a parse does depends on the answers of the host, not on what the binder did before.
import DataBound.Proofs.Binder.Writes

/-!
# Independence of the history

Two binders with sound caches, whatever is kept in them, do the same as long as their hosts give the same answers. The
actions of which a parse consists are `Mirrored`: what such an action does from one sound state it does from every other
one, with the same calls up to the identities of bindings and with the same result.
-/

namespace DataBound.Binder

variable {σ α : Type}

/-- After an action that mirrors one with the calls `made` and the final state `s'`, with the answers to `rest` left. -/
structure Follows (host : Host σ) (made rest : List Call) (s' t t' : State (Recorded σ)) : Prop where
  sound : t'.Sound
  pending : t'.pending = s'.pending
  calls : ∃ made', t'.host.calls = t.host.calls ++ made' ∧ made'.map Call.forget = made.map Call.forget
  replies : host.Replies t'.host.world rest

/-- What the action does from one sound state, it does from every other one from which the host answers alike. -/
def Mirrored (host : Host σ) (x : Action (State (Recorded σ)) α) : Prop :=
  ∀ s r s', s.Sound → x.Ends s r s' →
    s'.Sound ∧ ∃ made, s'.host.calls = s.host.calls ++ made ∧
      ∀ t rest, t.Sound → t.pending = s.pending → host.Replies t.host.world (made ++ rest) →
        ∃ t', x.Ends t r t' ∧ Follows host made rest s' t t'

variable {host : Host σ} {made more rest : List Call} {s s₁ s' t t₁ t' : State (Recorded σ)}

theorem Follows.refl (hs : t'.Sound) (hpending : t'.pending = s'.pending) (hhost : t'.host = t.host)
    (hreplies : host.Replies t.host.world rest) : Follows host [] rest s' t t' where
  sound := hs
  pending := hpending
  calls := ⟨[], by rw [hhost, List.append_nil], rfl⟩
  replies := hhost ▸ hreplies

theorem Follows.trans (h₁ : Follows host made (more ++ rest) s₁ t t₁) (h₂ : Follows host more rest s' t₁ t') :
    Follows host (made ++ more) rest s' t t' where
  sound := h₂.sound
  pending := h₂.pending
  calls := by
    obtain ⟨made', hcalls₁, hmade⟩ := h₁.calls
    obtain ⟨more', hcalls₂, hmore⟩ := h₂.calls
    refine ⟨made' ++ more', ?_, ?_⟩
    · rw [hcalls₂, hcalls₁, List.append_assoc]
    · rw [List.map_append, List.map_append, hmade, hmore]
  replies := h₂.replies

/-! ## Sequencing -/

/-- An action that neither calls nor looks at more than the pending writes. -/
theorem mirrored_of_silent {x : Action (State (Recorded σ)) α}
    (h : ∀ s, s.Sound → ∃ r s', x.Ends s r s' ∧ s'.Sound ∧ s'.host = s.host ∧
      ∀ t, t.Sound → t.pending = s.pending →
        ∃ t', x.Ends t r t' ∧ t'.Sound ∧ t'.pending = s'.pending ∧ t'.host = t.host) : Mirrored host x := by
  intro s r s' hs hends
  obtain ⟨r₁, s₁, hends₁, hsound, hhost, hothers⟩ := h s hs
  obtain ⟨rfl, rfl⟩ := hends.unique hends₁
  refine ⟨hsound, [], by rw [hhost, List.append_nil], ?_⟩
  intro t rest ht hpending hreplies
  obtain ⟨t', hends', hsound', hpending', hhost'⟩ := hothers t ht hpending
  exact ⟨t', hends', .refl hsound' hpending' hhost' hreplies⟩

theorem mirrored_sequential (host : Host σ) : Action.Sequential (fun x => Mirrored host x) where
  pure a := by
    apply mirrored_of_silent
    intro s hs
    refine ⟨.ok a, s, Action.pure_ends_self _ _, hs, rfl, ?_⟩
    intro t ht hpending
    exact ⟨t, Action.pure_ends_self _ _, ht, hpending, rfl⟩
  throw e := by
    apply mirrored_of_silent
    intro s hs
    refine ⟨.error e, s, Action.throw_ends.2 ⟨rfl, rfl⟩, hs, rfl, ?_⟩
    intro t ht hpending
    exact ⟨t, Action.throw_ends.2 ⟨rfl, rfl⟩, ht, hpending, rfl⟩
  exhausted := by
    intro _ s r s' _ h
    exact absurd h Action.not_exhausted_ends
  bind hx hf := by
    intro s r s' hs h
    rcases Action.bind_ends.1 h with ⟨e, hxe, rfl⟩ | ⟨a, s₁, hxa, hfa⟩
    · obtain ⟨hsound, made, hcalls, hothers⟩ := hx s _ s' hs hxe
      refine ⟨hsound, made, hcalls, ?_⟩
      intro t rest ht hpending hreplies
      obtain ⟨t', hends, hfollows⟩ := hothers t rest ht hpending hreplies
      exact ⟨t', hends.bind_error, hfollows⟩
    · obtain ⟨hsound₁, made, hcalls, hothers⟩ := hx s _ s₁ hs hxa
      obtain ⟨hsound, more, hcalls', hothers'⟩ := hf a s₁ r s' hsound₁ hfa
      refine ⟨hsound, made ++ more, by rw [hcalls', hcalls, List.append_assoc], ?_⟩
      intro t rest ht hpending hreplies
      rw [List.append_assoc] at hreplies
      obtain ⟨t₁, hends₁, hfollows₁⟩ := hothers t _ ht hpending hreplies
      obtain ⟨t', hends', hfollows'⟩ := hothers' t₁ rest hfollows₁.sound hfollows₁.pending hfollows₁.replies
      exact ⟨t', hends₁.bind hends', hfollows₁.trans hfollows'⟩
  mapError _ hx := by
    intro s r s' hs h
    obtain ⟨r₁, hx₁, rfl⟩ := Action.mapError_ends.1 h
    obtain ⟨hsound, made, hcalls, hothers⟩ := hx s r₁ s' hs hx₁
    refine ⟨hsound, made, hcalls, ?_⟩
    intro t rest ht hpending hreplies
    obtain ⟨t', hends, hfollows⟩ := hothers t rest ht hpending hreplies
    exact ⟨t', Action.mapError_ends.2 ⟨r₁, hends, rfl⟩, hfollows⟩
  attempt hx := by
    intro s r s' hs h
    obtain ⟨a, hrun, rfl⟩ := Action.lift_ends.1 h
    obtain ⟨hsound, made, hcalls, hothers⟩ := hx s a s' hs hrun
    refine ⟨hsound, made, hcalls, ?_⟩
    intro t rest ht hpending hreplies
    obtain ⟨t', hends, hfollows⟩ := hothers t rest ht hpending hreplies
    exact ⟨t', Action.lift_ends.2 ⟨a, hends, rfl⟩, hfollows⟩

/-! ## Primitive steps -/

theorem mirrored_takesShortcut {w : Wiring σ} (hw : w.Pure) (raw : String) :
    Mirrored host (w.binder.takesShortcut raw) := by
  unfold takesShortcut
  split
  · obtain ⟨answer, hanswer⟩ := hw.skips_eq_pure raw
    simp only [hanswer]
    exact (mirrored_sequential host).pure _
  · exact (mirrored_sequential host).pure false

theorem mirrored_readTree (raw : String) :
    Mirrored host (readTree raw : Action (State (Recorded σ)) (List Node)) := by
  apply mirrored_of_silent
  intro s hs
  obtain ⟨trees, hends, hsound⟩ := hs.readTree_ends raw
  refine ⟨_, { s with trees }, hends, hsound, rfl, ?_⟩
  intro t ht hpending
  obtain ⟨trees', hends', hsound'⟩ := ht.readTree_ends raw
  exact ⟨{ t with trees := trees' }, hends', hsound', hpending, rfl⟩

theorem mirrored_get (path : DataPath) :
    Mirrored host (intern path >>= fun b => call (host.recorded.get b)) := by
  intro s r s' hs h
  obtain ⟨b, interner, hintern, hsound, hpath⟩ := hs.intern_ends path
  let outcome := (host.get b).run.run s.host.world
  have hends : (intern path >>= fun b => call (host.recorded.get b)).Ends s outcome.1
      { s with interner, host := ⟨outcome.2, s.host.calls ++ [.get b outcome.1]⟩ } :=
    hintern.bind (call_recorded_ends.2 ⟨rfl, rfl⟩)
  obtain ⟨rfl, rfl⟩ := h.unique hends
  refine ⟨⟨hsound.trees, hsound.interner⟩, [.get b outcome.1], rfl, ?_⟩
  intro t rest ht hpending hreplies
  obtain ⟨b', interner', hintern', hsound', hpath'⟩ := ht.intern_ends path
  obtain ⟨hanswer, hrest⟩ := hreplies b' (hpath'.trans hpath.symm)
  let t' : State (Recorded σ) := { t with
    interner := interner', host := ⟨((host.get b').run.run t.host.world).2, t.host.calls ++ [.get b' outcome.1]⟩ }
  refine ⟨t', ?_, ⟨hsound'.trees, hsound'.interner⟩, hpending, ⟨[.get b' outcome.1], rfl, ?_⟩, hrest⟩
  · exact hintern'.bind (call_recorded_ends.2 ⟨hanswer.symm, rfl⟩)
  · simp [Call.forget, hpath, hpath']

theorem mirrored_evaluate (source : String) : Mirrored host (call (host.recorded.evaluate source)) := by
  intro s r s' hs h
  obtain ⟨rfl, rfl⟩ := call_recorded_ends.1 h
  refine ⟨⟨hs.trees, hs.interner⟩, _, rfl, ?_⟩
  intro t rest ht hpending hreplies
  obtain ⟨hanswer, hrest⟩ := hreplies
  refine ⟨_, call_recorded_ends.2 ⟨hanswer.symm, rfl⟩, ⟨ht.trees, ht.interner⟩, hpending, ⟨_, rfl, rfl⟩, hrest⟩

theorem mirrored_primitives {w : Wiring σ} (hw : w.Pure) : Primitives (Mirrored host) w.binder host.recorded where
  shortcut raw := mirrored_takesShortcut hw raw
  tree raw := mirrored_readTree raw
  get path := mirrored_get path
  evaluate source := mirrored_evaluate source
  collect updates := by
    apply mirrored_of_silent
    intro s hs
    refine ⟨_, _, Action.modify_ends.2 ⟨rfl, rfl⟩, ⟨hs.trees, hs.interner⟩, rfl, ?_⟩
    intro t ht hpending
    refine ⟨_, Action.modify_ends.2 ⟨rfl, rfl⟩, ⟨ht.trees, ht.interner⟩, ?_, rfl⟩
    rw [hpending]
  taps hs := Wiring.tapAll (mirrored_sequential host) (.inl hw) hs

/-! ## Whole parses -/

/-- Writes that have been collected before play no part in resolving a text. -/
theorem resolveText_mirrored {w : Wiring σ} (hw : w.Pure) {limit : Nat} {raw : String} {found : Except Error Resolved}
    (hs : s.Sound) (h : (w.binder.resolveText host.recorded limit raw).Ends s found s') :
    s'.Sound ∧ ∃ made, s'.host.calls = s.host.calls ++ made ∧
      ∀ t rest, t.Sound → host.Replies t.host.world (made ++ rest) →
        ∃ t', (w.binder.resolveText host.recorded limit raw).Ends t found t' ∧ Follows host made rest s' t t' := by
  have hP := mirrored_sequential host
  have hresolve : Mirrored host (do
      let normalized ← w.binder.normalize host.recorded limit raw
      let s ← get
      pure (⟨normalized.path, Updates.merge s.pending normalized.updates⟩ : Resolved)) := by
    apply hP.bind ((mirrored_primitives hw).normalize_all hP limit raw)
    intro normalized
    have hends : ∀ s : State (Recorded σ), (do
        let s ← get
        pure ⟨normalized.path, Updates.merge s.pending normalized.updates⟩ : Action (State (Recorded σ)) Resolved).Ends
          s (.ok ⟨normalized.path, Updates.merge s.pending normalized.updates⟩) s :=
      fun s => Action.get_bind_ends.2 (Action.pure_ends_self _ s)
    apply mirrored_of_silent
    intro s hs
    refine ⟨_, s, hends s, hs, rfl, ?_⟩
    intro t ht hpending
    exact ⟨t, hpending ▸ hends t, ht, hpending, rfl⟩
  have hcleared : ∀ s : State (Recorded σ), s.Sound → ({ s with pending := [] } : State (Recorded σ)).Sound :=
    fun s hs => ⟨hs.trees, hs.interner⟩
  rw [resolveText, Action.modify_bind_ends] at h
  obtain ⟨hsound, made, hcalls, hothers⟩ := hresolve { s with pending := [] } found s' (hcleared s hs) h
  refine ⟨hsound, made, hcalls, ?_⟩
  intro t rest ht hreplies
  -- what earlier parses collected is dropped on both sides, so the pending writes agree from here on
  obtain ⟨t', hends, hfollows⟩ := hothers { t with pending := [] } rest (hcleared t ht) rfl hreplies
  exact ⟨t', Action.modify_bind_ends.2 hends,
    hfollows.sound, hfollows.pending, hfollows.calls, hfollows.replies⟩

/-- What a result shows apart from the identity of the binding: its segments and its text, or the error. -/
def content (r : Except Error Binding) : Except Error (DataPath × String) := r.map fun b => (b.path, b.text)

theorem content_ok_eq {b b' : Binding} (h : b.path = b'.path) : content (.ok b) = content (.ok b') := by
  simp [content, Except.map, b.text_eq, b'.text_eq, h]

/-- Writes of the same values at the same paths differ in the identities of the bindings only. -/
theorem forget_set_eq {writes writes' : List (Binding × Value)} (answer : Except Error Unit)
    (h : writes'.map (fun write => (write.1.path, write.2)) = writes.map fun write => (write.1.path, write.2)) :
    (Call.set writes' answer).forget = (Call.set writes answer).forget := by
  have hsame := congrArg (List.map fun write : DataPath × Value => (Binding.of write.1 0 false, write.2)) h
  simp only [List.map_map] at hsame
  exact congrArg (fun writes => Call.set writes answer) hsame

theorem conclude_mirrored {found : Resolved} {r : Except Error Binding} (hs : s.Sound)
    (h : (conclude host.recorded found).Ends s r s') :
    ∃ made, s'.host.calls = s.host.calls ++ made ∧
      ∀ t, t.Sound → host.Replies t.host.world made →
        ∃ r' t', (conclude host.recorded found).Ends t r' t' ∧ content r' = content r ∧
          ∃ made', t'.host.calls = t.host.calls ++ made' ∧ made'.map Call.forget = made.map Call.forget := by
  by_cases hquiet : host.readOnly = true ∨ found.updates = []
  · obtain ⟨b, s₁, hends, hhost, hpath⟩ := conclude_unwritten host hs hquiet
    obtain ⟨rfl, rfl⟩ := h.unique hends
    refine ⟨[], by rw [hhost, List.append_nil], ?_⟩
    intro t ht _
    obtain ⟨b', t', hends', hhost', hpath'⟩ := conclude_unwritten host ht hquiet
    exact ⟨.ok b', t', hends', content_ok_eq (hpath'.trans hpath.symm), [], by rw [hhost', List.append_nil], rfl⟩
  · rw [not_or, Bool.not_eq_true] at hquiet
    obtain ⟨hwritable, hne⟩ := hquiet
    obtain ⟨writes, b, s₁, hends, hpath, hhost, hasked⟩ := conclude_written host hs hwritable hne
    obtain ⟨rfl, rfl⟩ := h.unique hends
    refine ⟨_, congrArg Recorded.calls hhost, ?_⟩
    intro t ht hreplies
    obtain ⟨writes', b', t', hends', hpath', hhost', hasked'⟩ := conclude_written host ht hwritable hne
    -- both sides are asked for the same writes, so the other host gives the same answer to its own
    have hforget := fun answer => forget_set_eq answer (hasked'.trans hasked.symm)
    obtain ⟨hanswer, -⟩ := hreplies writes' (hforget _)
    rw [hanswer] at hends' hhost'
    refine ⟨_, t', hends', ?_, _, congrArg Recorded.calls hhost', ?_⟩
    · cases ((host.set writes).run.run s.host.world).1 with
      | error e => rfl
      | ok _ => exact content_ok_eq (hpath'.trans hpath.symm)
    · exact congrArg (fun call => [call]) (hforget _)

theorem resolveSource_eq_text (binder : Binder σ) (host : Host σ) (limit : Nat) {source : PathSource}
    (hsource : ∀ b, source ≠ .binding b) :
    ∃ raw, binder.resolveSource host limit source = binder.resolveText host limit raw := by
  cases source with
  | text raw => exact ⟨raw, rfl⟩
  | segments path => exact ⟨path.text, rfl⟩
  | binding b => exact absurd rfl (hsource b)

/-- A parse does the same from every sound state in which the host gives the answers that it gave. -/
theorem parseWith_mirrored {w : Wiring σ} (hw : w.Pure) (limit : Nat) (parts : Host.Overrides σ)
    (source : PathSource) {r : Except Error Binding} (hs : s.Sound)
    (h : (w.binder.parseWith limit parts.recorded source).Ends s r s') :
    ∃ made, s'.host.calls = s.host.calls ++ made ∧
      ∀ t, t.Sound → (w.host.override parts).Replies t.host.world made →
        ∃ r' t', (w.binder.parseWith limit parts.recorded source).Ends t r' t' ∧ content r' = content r ∧
          ∃ made', t'.host.calls = t.host.calls ++ made' ∧ made'.map Call.forget = made.map Call.forget := by
  by_cases hsource : ∃ b, source = .binding b
  · obtain ⟨b, rfl⟩ := hsource
    obtain ⟨rfl, rfl⟩ := parseWith_binding_ends.1 h
    refine ⟨[], (List.append_nil _).symm, ?_⟩
    intro t _ _
    exact ⟨.ok b, t, parseWith_binding_ends.2 ⟨rfl, rfl⟩, rfl, [], (List.append_nil _).symm, rfl⟩
  · have hparsed : ∀ b, source ≠ .binding b := fun b hb => hsource ⟨b, hb⟩
    obtain ⟨raw, hraw⟩ := resolveSource_eq_text w.binder (w.host.override parts).recorded limit hparsed
    rw [parseWith_eq w limit parts hparsed, hraw] at h ⊢
    rcases Action.bind_ends.1 h with ⟨e, hresolve, rfl⟩ | ⟨found, s₁, hresolve, hconclude⟩
    · obtain ⟨-, made, hcalls, hothers⟩ := resolveText_mirrored hw hs hresolve
      refine ⟨made, hcalls, ?_⟩
      intro t ht hreplies
      obtain ⟨t', hends, hfollows⟩ := hothers t [] ht (by rwa [List.append_nil])
      exact ⟨.error e, t', hends.bind_error, rfl, hfollows.calls⟩
    · obtain ⟨hsound, made, hcalls, hothers⟩ := resolveText_mirrored hw hs hresolve
      obtain ⟨more, hcalls', hothers'⟩ := conclude_mirrored hsound hconclude
      refine ⟨made ++ more, by rw [hcalls', hcalls, List.append_assoc], ?_⟩
      intro t ht hreplies
      obtain ⟨t₁, hends, hfollows⟩ := hothers t more ht hreplies
      obtain ⟨made', hmade', hforget⟩ := hfollows.calls
      obtain ⟨r', t', hends', hcontent, more', hmore', hforget'⟩ := hothers' t₁ hfollows.sound hfollows.replies
      refine ⟨r', t', hends.bind hends', hcontent, made' ++ more', ?_, ?_⟩
      · rw [hmore', hmade', List.append_assoc]
      · rw [List.map_append, List.map_append, hforget, hforget']

/-- After any history a parse has the outcome that it has with a fresh binder with unbounded caches, if the host gives
the same answers: it ends there as well, with the same segments and text or the same error, and with the same
calls; and it ends after the history if it ends with the fresh binder. -/
theorem parseWith_after_history {w : Wiring σ} (hw : w.Pure) (limit : Nat) (parts : Host.Overrides σ)
    (source : PathSource) {s : State (Recorded σ)} (hs : Reachable s) (world : σ) :
    let parse := w.binder.parseWith limit parts.recorded source
    let fresh : State (Recorded σ) := .start .unbounded ⟨world, []⟩
    (∀ r s', parse.Ends s r s' → ∃ made, s'.host.calls = s.host.calls ++ made ∧
      ((w.host.override parts).Replies world made →
        ∃ r' t, parse.Ends fresh r' t ∧ content r' = content r ∧
          t.host.calls.map Call.forget = made.map Call.forget)) ∧
    (∀ r t, parse.Ends fresh r t → (w.host.override parts).Replies s.host.world t.host.calls →
      ∃ r' s' made, parse.Ends s r' s' ∧ s'.host.calls = s.host.calls ++ made ∧ content r' = content r ∧
        made.map Call.forget = t.host.calls.map Call.forget) := by
  intro parse fresh
  have hfresh : fresh.Sound := State.sound_start _ _
  constructor
  · intro r s' h
    obtain ⟨made, hcalls, hothers⟩ := parseWith_mirrored hw limit parts source hs.sound h
    refine ⟨made, hcalls, ?_⟩
    intro hreplies
    obtain ⟨r', t, hends, hcontent, made', hmade', hforget⟩ := hothers fresh hfresh hreplies
    refine ⟨r', t, hends, hcontent, ?_⟩
    rw [hmade']
    exact hforget
  · intro r t h hreplies
    obtain ⟨made, hcalls, hothers⟩ := parseWith_mirrored hw limit parts source hfresh h
    have hmade : t.host.calls = made := hcalls
    rw [hmade] at hreplies
    obtain ⟨r', s', hends, hcontent, made', hmade', hforget⟩ := hothers s hs.sound hreplies
    exact ⟨r', s', made', hends, hmade', hcontent, hmade ▸ hforget⟩

/-- The query `items[name=x]` after a descendant was asked for, with caches of one entry. -/
theorem parseWith_after_history_item :
    let world : Value := .object [("items", .array [])]
    let parse := Wiring.ofDocument.binder.parseWith 1 Host.Overrides.unchanged.recorded (.text "items[name=x]")
    let before : State (Recorded Value) := .start (.bounded 0) ⟨world, []⟩
    let s := { before with interner := (before.interner.descend (.of [.key "items"] 0 true) [.index 0]).2 }
    Wiring.ofDocument.Pure ∧ Reachable s ∧
      ∃ r t r' s', parse.Ends (.start .unbounded ⟨world, []⟩) r t ∧ parse.Ends s r' s' ∧ content r' = content r ∧
        s'.host.calls.map Call.forget = t.host.calls.map Call.forget := by
  intro world parse before s
  have hpure : Wiring.ofDocument.Pure := Wiring.ofHost_pure _
  have hreachable : Reachable s := .step (.descend _ _) (.start _ _) rfl
  let fresh : State (Recorded Value) := .start .unbounded ⟨world, []⟩
  let q := QueryText.itemNamed
  have hraw : q.raw = "items[name=x]" := QueryText.itemNamed_raw
  have hfresh : fresh.Sound := State.sound_start _ _
  obtain ⟨b, s₁, hresolve, hsound, hpath, hhost⟩ := q.asksOnce.resolveText_ends Wiring.ofDocument.host 0 hfresh fun b hb =>
    Wiring.ofDocument_get hb world
  have hne : (q.found (world.get? q.base)).updates ≠ [] := by decide +kernel
  obtain ⟨writes, b', s₂, hconclude, -, hhost', -⟩ := conclude_written Wiring.ofDocument.host hsound rfl hne
  rw [hraw] at hresolve
  have hends : parse.Ends fresh (.ok b') s₂ := parseWith_text_ends hresolve hconclude
  have hreplies : (Wiring.ofDocument.host.override .unchanged).Replies s.host.world s₂.host.calls := by
    rw [hhost', hhost]
    intro b₁ hb₁
    refine ⟨congrArg Prod.fst (Wiring.ofDocument_get (hb₁.trans hpath) world), ?_⟩
    intro writes₁ _
    exact ⟨rfl, trivial⟩
  obtain ⟨-, hafter⟩ := parseWith_after_history hpure 1 .unchanged (.text "items[name=x]") hreachable world
  obtain ⟨r', s', made, hends', hcalls, hcontent, hforget⟩ := hafter _ _ hends hreplies
  have hmade : s'.host.calls = made := hcalls
  exact ⟨hpure, hreachable, _, _, r', s', hends, hends', hcontent, hmade ▸ hforget⟩

end DataBound.Binder
