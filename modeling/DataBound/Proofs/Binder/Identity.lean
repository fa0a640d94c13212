-- SUMMARY: The bindings that a binder gives to its callers and to its host are one if and only if their paths are equal.
import DataBound.Proofs.Binding.Identity
import DataBound.Proofs.Binder.Writes

/-!
# Identities of the bindings of a binder

A binder makes no binding on its own: those that it gives out, and those that it hands to its host when it asks for a
value or writes defaults, all come from its interner. So as long as the caches are unbounded and never cleared, what
holds of the identities that an interner gives out holds of all of them.
-/

namespace DataBound

/-- The bindings that the call hands to the host. -/
def Call.bindings : Call → List Binding
  | .get b _ => [b]
  | .evaluate .. => []
  | .set writes _ => writes.map Prod.fst

namespace Binder

variable {σ α : Type}

/-- The bindings that were handed to the host. -/
def State.handed (s : State (Recorded σ)) : List Binding := s.host.calls.flatMap Call.bindings

/-- The interner gave out the known bindings and all that the host was handed. -/
def Shared (known : List Binding) (s : State (Recorded σ)) : Prop :=
  ∃ given, s.interner.Gave given ∧ (∀ b ∈ known, b ∈ given) ∧ ∀ b ∈ s.handed, b ∈ given

variable {known : List Binding} {s s' : State (Recorded σ)}

theorem Shared.mono {fewer : List Binding} (h : Shared known s) (hfewer : ∀ b ∈ fewer, b ∈ known) :
    Shared fewer s := by
  obtain ⟨given, hgave, hknown, hhanded⟩ := h
  exact ⟨given, hgave, fun b hb => hknown b (hfewer b hb), hhanded⟩

theorem Shared.of_eq (h : Shared known s) (hinterner : s'.interner = s.interner)
    (hcalls : s'.host.calls = s.host.calls) : Shared known s' := by
  obtain ⟨given, hgave, hknown, hhanded⟩ := h
  refine ⟨given, hinterner ▸ hgave, hknown, ?_⟩
  rw [State.handed, hcalls]
  exact hhanded

/-- A binding from the interner is known from then on. -/
theorem Shared.intern (h : Shared known s) (path : DataPath) :
    Shared ((s.interner.intern path).1 :: known) { s with interner := (s.interner.intern path).2 } := by
  obtain ⟨given, hgave, hknown, hhanded⟩ := h
  refine ⟨_, hgave.intern path, ?_, fun b hb => List.mem_cons_of_mem _ (hhanded b hb)⟩
  intro b hb
  rcases List.mem_cons.1 hb with rfl | hb
  · exact List.mem_cons_self
  · exact List.mem_cons_of_mem _ (hknown b hb)

theorem Shared.derive (h : Shared known s) {b : Binding} (hb : b ∈ known ++ s.handed) (path : DataPath) :
    Shared ((s.interner.derive b path).1 :: known) { s with interner := (s.interner.derive b path).2 } := by
  have hderive : s.interner.derive b path = s.interner.intern path := by
    obtain ⟨given, hgave, hknown, hhanded⟩ := h
    apply hgave.canonical.derive_eq
    exact (List.mem_append.1 hb).elim (hknown b) (hhanded b)
  rw [hderive]
  exact h.intern path

/-- A host is handed known bindings only. -/
theorem Shared.call {entry : Except Error α → Call} {callback : Callback σ α} {r : Except Error α}
    (h : Shared known s) (hentry : ∀ answer, ∀ b ∈ (entry answer).bindings, b ∈ known)
    (hends : (call (Callback.recorded entry callback)).Ends s r s') : Shared known s' := by
  obtain ⟨given, hgave, hknown, hhanded⟩ := h
  obtain ⟨-, rfl⟩ := call_recorded_ends.1 hends
  refine ⟨given, hgave, hknown, ?_⟩
  intro b hb
  rw [State.handed, List.flatMap_append, List.mem_append, List.flatMap_singleton] at hb
  rcases hb with hb | hb
  · exact hhanded b hb
  · exact hknown b (hentry r b hb)

/-! ## The steps of a parse -/

theorem keeps_shared_readTree (raw : String) :
    Action.Keeps (Shared known) (readTree raw : Action (State (Recorded σ)) (List Node)) :=
  keeps_readTree (fun _ _ hs => hs.of_eq rfl rfl) raw

theorem keeps_shared_takesShortcut (w : Wiring σ) (raw : String) :
    Action.Keeps (Shared known) (w.binder.takesShortcut raw) := by
  unfold takesShortcut
  split
  · apply Action.keeps_ofState
    intro s hs
    exact hs.of_eq rfl (w.skips_calls raw s.host)
  · exact Action.keeps_sequential.pure false

theorem shared_worldly : Inquiry.Worldly (σ := σ) (Action.Keeps (Shared known)) where
  look := by
    intro s r s' hs h
    exact (Action.get_ends.1 h).2 ▸ hs
  change f := Action.keeps_modify fun _ hs => hs.of_eq rfl rfl

/-- The host is asked for the value at a binding that comes from the interner. -/
theorem keeps_shared_get (host : Host σ) (path : DataPath) :
    Action.Keeps (Shared known) (intern path >>= fun b => call (host.recorded.get b)) := by
  intro s r s' hs h
  rcases Action.bind_ends.1 h with ⟨e, hintern, -⟩ | ⟨b, s₁, hintern, hcall⟩
  · cases (intern_ends.1 hintern).1
  · obtain ⟨hb, rfl⟩ := intern_ends.1 hintern
    cases hb
    have hknown : ∀ answer, ∀ b ∈ (Call.get (s.interner.intern path).1 answer).bindings,
        b ∈ (s.interner.intern path).1 :: known := by
      intro _ b hb
      exact List.mem_singleton.1 hb ▸ List.mem_cons_self
    have hshared := (hs.intern path).call hknown hcall
    exact hshared.mono fun b hb => List.mem_cons_of_mem _ hb

theorem keeps_shared_primitives (w : Wiring σ) (host : Host σ) :
    Primitives (Action.Keeps (Shared known)) w.binder host.recorded where
  shortcut raw := keeps_shared_takesShortcut w raw
  tree raw := keeps_shared_readTree raw
  get path := keeps_shared_get host path
  evaluate source := by
    intro s r s' hs h
    have hnone : ∀ answer, ∀ b ∈ (Call.evaluate source answer).bindings, b ∈ known := by
      intro _ b hb
      cases hb
    exact hs.call hnone h
  collect _ := Action.keeps_modify fun _ hs => hs.of_eq rfl rfl
  taps hs := Wiring.tapAll Action.keeps_sequential (.inr shared_worldly) hs

theorem keeps_shared_resolveSource (w : Wiring σ) (host : Host σ) (limit : Nat) (source : PathSource) :
    Action.Keeps (Shared known) (w.binder.resolveSource host.recorded limit source) := by
  have hP := Action.keeps_sequential (σ := State (Recorded σ)) (I := Shared known)
  have htext : ∀ raw, Action.Keeps (Shared known) (w.binder.resolveText host.recorded limit raw) := by
    intro raw
    apply hP.bind
    · exact Action.keeps_modify fun _ hs => hs.of_eq rfl rfl
    · intro _
      apply hP.bind ((keeps_shared_primitives w host).normalize_all hP limit raw)
      intro normalized
      exact hP.bind shared_worldly.look fun s => hP.pure _
  cases source with
  | text raw => exact htext raw
  | segments path => exact htext path.text
  | binding b => exact hP.pure _

theorem Shared.intern_ends (hs : Shared known s) (path : DataPath) :
    ∃ b s', (Binder.intern path).Ends s (.ok b) s' ∧ Shared (b :: known) s' :=
  ⟨_, _, Binder.intern_ends.2 ⟨rfl, rfl⟩, hs.intern path⟩

/-- The bindings of what is to be written come from the interner. -/
theorem Shared.internAll_ends (hs : Shared known s) (updates : Updates) :
    ∃ writes s', (internAll updates).Ends s (.ok writes) s' ∧ Shared (writes.map Prod.fst ++ known) s' := by
  induction updates generalizing s known with
  | nil => exact ⟨[], s, Action.pure_ends_self _ _, hs⟩
  | cons update rest ih =>
    -- the rest is interned when the first binding is known already
    obtain ⟨b, s₁, hintern, hshared⟩ := hs.intern_ends update.path
    obtain ⟨writes, s', hrest, hshared'⟩ := ih hshared
    refine ⟨(b, update.value) :: writes, s', ?_, ?_⟩
    · rw [internAll, List.mapM_cons]
      refine Action.Ends.bind (hintern.bind (Action.pure_ends_self _ _)) ?_
      exact hrest.bind (Action.pure_ends_self _ _)
    · apply hshared'.mono
      intro c hc
      simp only [List.map_cons, List.cons_append, List.mem_cons, List.mem_append] at hc ⊢
      exact or_left_comm.1 hc

theorem keeps_shared_writeDefaults (host : Host σ) (updates : Updates) :
    Action.Keeps (Shared known) (writeDefaults host.recorded updates) := by
  intro s r s' hs h
  rw [writeDefaults_eq] at h
  split at h
  · obtain ⟨writes, s₁, hinterned, hshared⟩ := hs.internAll_ends updates
    rw [Action.Ends, Action.bind_run_ok hinterned] at h
    have hknown : ∀ answer, ∀ b ∈ (Call.set writes answer).bindings, b ∈ writes.map Prod.fst ++ known :=
      fun _ _ hb => List.mem_append_left _ hb
    exact (hshared.call hknown h).mono fun b hb => List.mem_append_right _ hb
  · rw [Action.pure_ends] at h
    exact h.2 ▸ hs

/-- Whatever a parse hands out comes from the interner, whether it succeeds or not. -/
theorem Shared.parseWith {w : Wiring σ} {limit : Nat} {parts : Host.Overrides σ} {source : PathSource}
    {r : Except Error Binding} (hs : Shared known s) (hsource : ∀ b, source = .binding b → b ∈ known ++ s.handed)
    (h : (w.binder.parseWith limit parts.recorded source).Ends s r s') :
    Shared (r.toOption.toList ++ known) s' := by
  by_cases hgiven : ∃ b, source = .binding b
  · obtain ⟨b, rfl⟩ := hgiven
    obtain ⟨rfl, rfl⟩ := parseWith_binding_ends.1 h
    obtain ⟨given, hgave, hknown, hhanded⟩ := hs
    refine ⟨given, hgave, ?_, hhanded⟩
    intro c hc
    rcases List.mem_cons.1 hc with rfl | hc
    · exact (List.mem_append.1 (hsource c rfl)).elim (hknown c) (hhanded c)
    · exact hknown c hc
  · rw [parseWith_eq w limit parts fun b hb => hgiven ⟨b, hb⟩] at h
    rcases Action.bind_ends.1 h with ⟨e, hresolve, rfl⟩ | ⟨found, s₁, hresolve, hconclude⟩
    · exact keeps_shared_resolveSource w _ limit source s _ s' hs hresolve
    · have hresolved := keeps_shared_resolveSource w _ limit source s _ s₁ hs hresolve
      rcases Action.bind_ends.1 hconclude with ⟨e, hwrite, rfl⟩ | ⟨_, s₂, hwrite, hintern⟩
      · exact keeps_shared_writeDefaults _ _ s₁ _ s' hresolved hwrite
      · obtain ⟨b, s₃, hends, hshared⟩ := (keeps_shared_writeDefaults _ _ s₁ _ s₂ hresolved hwrite).intern_ends found.path
        obtain ⟨rfl, rfl⟩ := hintern.unique hends
        exact hshared

/-! ## Runs -/

/-- The bindings of which the request makes use are known, and it drops none that are kept. -/
def Request.Within (known : List Binding) : Request σ → Prop
  | .parse _ _ _ source => ∀ b, source = .binding b → b ∈ known
  | .tree _ => True
  | .parent b => b ∈ known
  | .descend b _ => b ∈ known
  | .clearCaches => False
  | .world _ => True

/-- The binding, if any, that the request gives out when it is served in `s` and leaves `s'` behind. -/
def Request.Answers : Request σ → State (Recorded σ) → Option Binding → State (Recorded σ) → Prop
  | .parse w limit parts source, s, answer, s' =>
    ∃ r, (w.binder.parseWith limit parts.recorded source).Ends s r s' ∧ answer = r.toOption
  | .parent b, s, answer, s' =>
    answer = some (s.interner.parent b).1 ∧ s' = { s with interner := (s.interner.parent b).2 }
  | .descend b below, s, answer, s' =>
    answer = some (s.interner.descend b below).1 ∧ s' = { s with interner := (s.interner.descend b below).2 }
  | request, s, answer, s' => answer = none ∧ request.Leads s s'

/-- The states of a binder with unbounded caches that are not cleared, with the answers that it gave so far. Its own
bindings are those that it answered with and those that it handed to its host. -/
inductive Served : State (Recorded σ) → List Binding → Prop
  | start (world : σ) : Served (State.start .unbounded ⟨world, []⟩) []
  | step {s s' : State (Recorded σ)} {answers : List Binding} {answer : Option Binding} (request : Request σ) :
      Served s answers → request.Within (answers ++ s.handed) → request.Answers s answer s' →
      Served s' (answer.toList ++ answers)

theorem shared_start (world : σ) : Shared [] (State.start .unbounded ⟨world, []⟩) :=
  ⟨[], .start, nofun, nofun⟩

theorem Request.Answers.shared {request : Request σ} {answer : Option Binding} (h : request.Answers s answer s')
    (hs : Shared known s) (hwithin : request.Within (known ++ s.handed)) : Shared (answer.toList ++ known) s' := by
  cases request with
  | parse w limit parts source =>
    obtain ⟨r, hends, rfl⟩ := h
    exact hs.parseWith hwithin hends
  | tree raw =>
    obtain ⟨rfl, r, hends⟩ := h
    exact keeps_shared_readTree raw s r s' hs hends
  | parent b =>
    obtain ⟨rfl, rfl⟩ := h
    exact hs.derive hwithin _
  | descend b below =>
    obtain ⟨rfl, rfl⟩ := h
    exact hs.derive hwithin _
  | clearCaches => exact hwithin.elim
  | world change =>
    obtain ⟨rfl, rfl⟩ := h
    exact hs.of_eq rfl rfl

theorem Request.Answers.leads {request : Request σ} {answer : Option Binding} (h : request.Answers s answer s') :
    request.Leads s s' := by
  cases request with
  | parse w limit parts source =>
    obtain ⟨r, hends, -⟩ := h
    exact ⟨r, hends⟩
  | tree raw => exact h.2
  | parent b => exact h.2
  | descend b below => exact h.2
  | clearCaches => exact h.2
  | world change => exact h.2

theorem Served.reachable {answers : List Binding} (h : Served s answers) : Reachable s := by
  induction h with
  | start world => exact .start .unbounded world
  | step request _ _ hanswers ih => exact .step request ih hanswers.leads

/-- In every run all bindings come from the interner. -/
theorem Served.shared {answers : List Binding} (h : Served s answers) : Shared answers s := by
  induction h with
  | start world => exact shared_start world
  | step request _ hwithin hanswers ih => exact hanswers.shared ih hwithin

/-! ## Identities -/

/-- What can become of the interner of a binder: the binder serves any requests, whatever its caches drop, and the
bindings go on when it is dropped. -/
inductive Outlived : Interner → Prop
  | reached {σ : Type} {s : State (Recorded σ)} : Reachable s → Outlived s.interner
  | dropped {i : Interner} : Outlived i → Outlived i.retire
  | parent {i : Interner} (b : Binding) : Outlived i → Outlived (i.parent b).2
  | descend {i : Interner} (b : Binding) (below : DataPath) : Outlived i → Outlived (i.descend b below).2

theorem Outlived.sound {i : Interner} (h : Outlived i) : i.Sound := by
  induction h with
  | reached hreachable => exact hreachable.sound.interner
  | dropped _ ih => exact ih
  | parent b _ ih => exact ih.derive b _
  | descend b below _ ih => exact ih.derive b _

/-- Bindings are one exactly if their paths are equal: those of an unbounded interner however it is used, also from
within callbacks, and those that a binder answers with or hands to its host in any run. Their paths and texts are right
whatever is dropped, and when the binder is gone as well. -/
theorem same_iff_path_eq_of_served :
    (∀ i given, Interner.Gave i given → i.Identifies given) ∧
    (∀ (s : State (Recorded σ)) answers, Served s answers → s.interner.Identifies (answers ++ s.handed)) ∧
    ∀ i, Outlived i → ∀ (b : Binding) (path below : DataPath),
      ((i.intern path).1.path = path ∧ (i.intern path).1.text = path.text) ∧
      ((i.parent b).1.path = b.path.parent ∧ (i.parent b).1.text = b.path.parent.text) ∧
      ((i.descend b below).1.path = b.path ++ below ∧ (i.descend b below).1.text = (b.path ++ below).text) := by
  refine ⟨fun i given h => h.canonical.identifies, ?_, ?_⟩
  · intro s answers h b hb
    obtain ⟨given, hgave, hknown, hhanded⟩ := h.shared
    have hgiven : ∀ c ∈ answers ++ s.handed, c ∈ given :=
      fun c hc => (List.mem_append.1 hc).elim (hknown c) (hhanded c)
    obtain ⟨hsame, hreturn⟩ := hgave.canonical.identifies b (hgiven b hb)
    exact ⟨fun b' hb' => hsame b' (hgiven b' hb'), hreturn⟩
  · intro i h b path below
    have htext : ∀ {c : Binding} {p : DataPath}, c.path = p → c.path = p ∧ c.text = p.text := by
      intro c p hpath
      exact ⟨hpath, Binding.text_of_path hpath⟩
    exact ⟨htext (h.sound.intern_path path), htext (h.sound.derive_path b _), htext (h.sound.derive_path b _)⟩

/-- On a document without a matching item, the query `items[name=x]` asks its host with the binding that is the parent
of its result. -/
theorem same_iff_path_eq_of_served_item :
    ∃ (s : State (Recorded Value)) (up b asked : Binding), Served s [up, b] ∧ asked ∈ s.handed ∧ Outlived s.interner ∧
      b.path = [.key "items", .index 0] ∧ asked.path = [.key "items"] ∧ up.path = [.key "items"] ∧
      up.same asked = true ∧ up.same b = false := by
  let w := Wiring.ofDocument
  let world : Value := .object [("items", .array [])]
  let s : State (Recorded Value) := .start .unbounded ⟨world, []⟩
  let q := QueryText.itemNamed
  have hraw : q.raw = "items[name=x]" := QueryText.itemNamed_raw
  have hsound : s.Sound := State.sound_start _ _
  obtain ⟨asked, s₁, hresolve, hsound₁, hasked, hhost₁⟩ := q.asksOnce.resolveText_ends w.host 0 hsound fun b hb =>
    Wiring.ofDocument_get hb world
  have hne : (q.found (world.get? q.base)).updates ≠ [] := by decide +kernel
  have hbase : q.base = [.key "items"] := by decide +kernel
  have hfound : (q.found (world.get? q.base)).path = [.key "items", .index 0] := by decide +kernel
  obtain ⟨writes, b, s₂, hconclude, hb, hhost₂, -⟩ := conclude_written w.host hsound₁ rfl hne
  rw [hfound] at hb
  have hends : (w.binder.parseWith 1 Host.Overrides.unchanged.recorded (.text "items[name=x]")).Ends s (.ok b) s₂ :=
    hraw ▸ parseWith_text_ends hresolve hconclude
  let up := (s₂.interner.parent b).1
  let s₃ : State (Recorded Value) := { s₂ with interner := (s₂.interner.parent b).2 }
  let parse : Request Value := .parse w 1 .unchanged (.text "items[name=x]")
  have hserved₂ : Served s₂ [b] := .step parse (.start world) nofun ⟨.ok b, hends, rfl⟩
  have hserved₃ : Served s₃ [up, b] := .step (.parent b) hserved₂ (List.mem_cons_self) ⟨rfl, rfl⟩
  have hreached₂ : Outlived s₂.interner := .reached (.step parse (.start _ _) ⟨_, hends⟩)
  obtain ⟨-, hrun, hpaths⟩ := same_iff_path_eq_of_served (σ := Value)
  obtain ⟨-, ⟨hup, -⟩, -⟩ := hpaths s₂.interner hreached₂ b [] []
  rw [hb] at hup
  have hhanded : asked ∈ s₃.handed := by
    rw [State.handed, show s₃.host = s₂.host from rfl, hhost₂, hhost₁]
    exact List.mem_cons_self
  obtain ⟨hsame, -⟩ := hrun s₃ [up, b] hserved₃ up List.mem_cons_self
  refine ⟨s₃, up, b, asked, hserved₃, hhanded, hreached₂.parent b, hb, hasked.trans hbase, hup, ?_, ?_⟩
  · rw [hsame asked (List.mem_append_right _ hhanded), hup, hasked, hbase]
    decide
  · rw [← Bool.not_eq_true, hsame b (by simp), hup, hb]
    decide

end Binder

end DataBound
