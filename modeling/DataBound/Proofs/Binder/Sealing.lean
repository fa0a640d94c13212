-- SUMMARY: Parses that write nothing go as they do with writing off.
import DataBound.Proofs.Binder.ReadOnly

/-!
# Sealed hosts

A host is sealed by turning writing off. A host that is not sealed can notice that it is written through: then no state
after a write counts as untouched. What ends in an untouched state has written nothing before, and goes in the same way
with the sealed host. So what is known of hosts that only read holds for these runs as well.
-/

namespace DataBound

variable {σ : Type}

/-- The host with writing turned off. -/
def Host.sealed (host : Host σ) : Host σ := { host with readOnly := true }

/-- The host's answers leave its state as it is, and no state after a write is untouched. -/
structure Host.Notices (host : Host σ) (untouched : σ → Prop) : Prop where
  get (b : Binding) (s : σ) : ((host.get b).run.run s).2 = s
  evaluate (source : String) (s : σ) : ((host.evaluate source).run.run s).2 = s
  set (writes : List (Binding × Value)) (s : σ) : host.readOnly = false → ¬ untouched ((host.set writes).run.run s).2

/-- Through a host that only reads nothing is touched. -/
theorem Host.OnlyReads.notices {host : Host σ} (h : host.OnlyReads) : host.Notices fun _ => True where
  get := h.get
  evaluate := h.evaluate
  set _ _ hwritable := by
    rw [h.readOnly] at hwritable
    cases hwritable

/-- A document, and whether it was written to. -/
structure Tracked where
  document : Value
  written : Bool

/-- The document after a write. -/
def Tracked.write (document : Value) (_ : Tracked) : Tracked := ⟨document, true⟩

theorem Tracked.notices :
    (Host.ofDocument Tracked.document Tracked.write).Notices fun tracked => tracked.written = false where
  get _ _ := rfl
  evaluate _ _ := rfl
  set _ _ _ := Bool.noConfusion

variable {host : Host σ} {untouched : σ → Prop}

theorem Host.Notices.onlyReads (h : host.Notices untouched) : host.sealed.OnlyReads where
  readOnly := rfl
  get := h.get
  evaluate := h.evaluate

namespace Binder

/-- Normalizing does not ask whether writing is off. -/
theorem normalize_sealed (host : Host σ) (limit : Nat) (raw : String) :
    (ofHost host.sealed).normalize host.sealed limit raw = (ofHost host).normalize host limit raw := by
  induction limit generalizing raw with
  | zero => rfl
  | succ limit ih =>
    have hlower : (ofHost host.sealed).normalize host.sealed limit = (ofHost host).normalize host limit := funext ih
    unfold normalize
    rw [hlower]
    rfl

theorem resolveText_sealed (host : Host σ) (limit : Nat) (raw : String) :
    (ofHost host.sealed).resolveText host.sealed limit raw = (ofHost host).resolveText host limit raw := by
  unfold resolveText
  rw [normalize_sealed]

/-- The host's state is not changed by asking it. -/
theorem keeps_host_primitives (hhost : host.Notices untouched) (world : σ) :
    Primitives (Action.Keeps fun s => s.host = world) (ofHost host) host where
  shortcut raw := by
    unfold takesShortcut
    split
    · exact Action.keeps_ofState fun _ hs => hs
    · exact Action.keeps_sequential.pure false
  tree raw := keeps_readTree (fun _ _ hs => hs) raw
  get path := by
    have hintern : Action.Keeps (fun s => s.host = world) (intern path : Action (State σ) Binding) :=
      Action.keeps_ofState fun _ hs => hs
    apply Action.keeps_sequential.bind hintern
    intro b s r s' hs h
    rw [(call_ends.1 h).2, ← hs]
    exact hhost.get b s.host
  evaluate source := by
    intro s r s' hs h
    rw [(call_ends.1 h).2, ← hs]
    exact hhost.evaluate source s.host
  collect _ := Action.keeps_modify fun _ hs => hs
  taps _ _ hmem := nomatch hmem

theorem resolveText_host (hhost : host.Notices untouched) {limit : Nat} {raw : String} {s s' : State σ}
    {r : Except Error Resolved} (h : ((ofHost host).resolveText host limit raw).Ends s r s') : s'.host = s.host := by
  have hP := Action.keeps_sequential (σ := State σ) (I := fun t => t.host = s.host)
  have hkeeps : Action.Keeps (fun t => t.host = s.host) ((ofHost host).resolveText host limit raw) := by
    have hclear : Action.Keeps (fun t => t.host = s.host)
        (modify fun t => { t with pending := [] } : Action (State σ) Unit) := Action.keeps_modify fun _ hs => hs
    apply hP.bind hclear
    intro _
    apply hP.bind ((keeps_host_primitives hhost s.host).normalize_all hP limit raw)
    intro normalized
    apply hP.bind _ fun _ => hP.pure _
    intro t r t' ht hget
    exact (Action.get_ends.1 hget).2 ▸ ht
  exact hkeeps s r s' rfl h

theorem internAll_ok {updates : Updates} {s s' : State σ} {r : Except Error (List (Binding × Value))}
    (h : (internAll updates).Ends s r s') : ∃ writes, r = .ok writes := by
  induction updates generalizing s r with
  | nil => exact ⟨[], (Action.pure_ends.1 h).1⟩
  | cons update rest ih =>
    rw [internAll, List.mapM_cons] at h
    rcases Action.bind_ends.1 h with ⟨e, hintern, -⟩ | ⟨first, s₁, -, hrest⟩
    · cases hintern
    · rcases Action.bind_ends.1 hrest with ⟨e, he, -⟩ | ⟨others, s₂, -, hlast⟩
      · obtain ⟨writes, hwrites⟩ := ih he
        cases hwrites
      · exact ⟨first :: others, (Action.pure_ends.1 hlast).1⟩

/-- What ends untouched has written no defaults. -/
theorem writeDefaults_ends_of_untouched (hhost : host.Notices untouched) {updates : Updates} {s s' : State σ}
    {r : Except Error Unit} (h : (writeDefaults host updates).Ends s r s') (hs' : untouched s'.host) :
    r = .ok () ∧ s' = s := by
  rw [writeDefaults_eq] at h
  split at h
  · rename_i hwrites
    have hwritable : host.readOnly = false := by simpa using (Bool.and_eq_true_iff.1 hwrites).1
    exfalso
    rcases Action.bind_ends.1 h with ⟨e, hinterned, -⟩ | ⟨writes, s₁, -, hcall⟩
    · obtain ⟨writes, hwrites⟩ := internAll_ok hinterned
      cases hwrites
    · rw [(call_ends.1 hcall).2] at hs'
      exact hhost.set writes s₁.host hwritable hs'
  · exact Action.pure_ends.1 h

theorem parse_sealed (hhost : host.Notices untouched) {limit : Nat} {raw : String} {s s' : State σ}
    {r : Except Error Binding} (h : ((ofHost host).parse limit raw).Ends s r s') (hs' : untouched s'.host) :
    untouched s.host ∧ ((ofHost host.sealed).parse limit raw).Ends s r s' := by
  rw [ofHost_parse] at h ⊢
  rw [resolveText_sealed]
  rcases Action.bind_ends.1 h with ⟨e, hresolve, rfl⟩ | ⟨found, s₁, hresolve, hrest⟩
  · rw [resolveText_host hhost hresolve] at hs'
    exact ⟨hs', hresolve.bind_error⟩
  · have hwrites : ∀ written s₂, (writeDefaults host found.updates).Ends s₁ written s₂ → untouched s₂.host →
        untouched s.host ∧ written = .ok () ∧ s₂ = s₁ := by
      intro written s₂ hends hs₂
      obtain ⟨rfl, rfl⟩ := writeDefaults_ends_of_untouched hhost hends hs₂
      rw [resolveText_host hhost hresolve] at hs₂
      exact ⟨hs₂, rfl, rfl⟩
    rcases Action.bind_ends.1 hrest with ⟨e, hwrite, -⟩ | ⟨_, s₂, hwrite, hintern⟩
    · cases (hwrites _ _ hwrite hs').2.1
    · have hhost₂ : s₂.host = s'.host := by rw [(intern_ends.1 hintern).2]
      obtain ⟨hs, -, rfl⟩ := hwrites _ _ hwrite (hhost₂ ▸ hs')
      exact ⟨hs, hresolve.bind (Action.Ends.bind (Action.pure_ends_self () _) hintern)⟩

/-- A read that ends untouched started so, and gives what it gives with writing off. -/
theorem valueAt?_sealed (hhost : host.Notices untouched) {limit : Nat} {document : σ → Value} {raw : String}
    {s s' : State σ} {r : Option Value} (h : (ofHost host).valueAt? limit document raw s = some (r, s'))
    (hs' : untouched s'.host) :
    untouched s.host ∧ (ofHost host.sealed).valueAt? limit document raw s = some (r, s') := by
  obtain ⟨⟨parsed, s₁⟩, hparse, hrest⟩ := Option.bind_eq_some_iff.1 h
  have hs₁ : s₁ = s' := by
    cases parsed <;> cases hrest <;> rfl
  obtain ⟨hs, hsealed⟩ := parse_sealed hhost hparse (hs₁ ▸ hs')
  exact ⟨hs, Option.bind_eq_some_iff.2 ⟨_, hsealed, hrest⟩⟩

end Binder

end DataBound
