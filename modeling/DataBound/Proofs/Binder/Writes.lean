-- SUMMARY: One parse writes at most once, at its end, and what its resolution asked for.
import DataBound.Proofs.Binder.Query
import DataBound.Proofs.Updates

/-!
# The write discipline of a parse

A parse first resolves its source. On the way the host is only asked for values, however far references, queries and the
texts of values lead. What is to be written is collected, under distinct keys, and goes to the host in one call at the
end, unless the host is read-only, nothing was collected, or the resolution failed.
-/

namespace DataBound.Binder

variable {σ : Type}

/-- What is written for the updates: something, no two writes at paths with the same text, the rest as asked for. -/
structure Transaction (updates : Updates) (writes : List (Binding × Value)) : Prop where
  ne_nil : writes ≠ []
  nodup : (writes.map fun (b, _) => b.text).Nodup
  asked : writes.map (fun (b, value) => (b.path, value)) = updates.map fun update => (update.path, update.value)

/-- How a parse ends, by what its resolution found: the calls that it made and its result. -/
inductive Ending (readOnly : Bool) : Except Error Resolved → List Call → Except Error Binding → Prop where
  | unresolved {e asks} : (∀ c ∈ asks, c.isAsk) → Ending readOnly (.error e) asks (.error e)
  | unwritten {found asks b} :
      (∀ c ∈ asks, c.isAsk) → readOnly = true ∨ found.updates = [] → b.path = found.path →
      Ending readOnly (.ok found) asks (.ok b)
  | refused {found asks writes e} :
      (∀ c ∈ asks, c.isAsk) → readOnly = false → Transaction found.updates writes →
      Ending readOnly (.ok found) (asks ++ [.set writes (.error e)]) (.error e)
  | written {found asks writes b} :
      (∀ c ∈ asks, c.isAsk) → readOnly = false → Transaction found.updates writes → b.path = found.path →
      Ending readOnly (.ok found) (asks ++ [.set writes (.ok ())]) (.ok b)

theorem Ending.path_eq {readOnly : Bool} {found : Resolved} {made : List Call} {b : Binding}
    (h : Ending readOnly (.ok found) made (.ok b)) : b.path = found.path := by
  cases h with
  | unwritten _ _ hpath => exact hpath
  | written _ _ _ hpath => exact hpath

/-! ## Transactions -/

/-- The writes of a call that sets, without the identities of the bindings. -/
def transaction? : Call → Option (List (DataPath × Value))
  | .set writes _ => some (writes.map fun (b, value) => (b.path, value))
  | .get .. | .evaluate .. => none

/-- The transactions among the calls. -/
def transactions (calls : List Call) : List (List (DataPath × Value)) := calls.filterMap transaction?

/-- What is written for the updates, path by path. -/
def writesOf (updates : Updates) : List (DataPath × Value) := updates.map fun update => (update.path, update.value)

/-- One transaction for the updates, and none if there are none. -/
def transactionsOf : Updates → List (List (DataPath × Value))
  | [] => []
  | update :: rest => [writesOf (update :: rest)]

theorem transactions_append (calls more : List Call) :
    transactions (calls ++ more) = transactions calls ++ transactions more := List.filterMap_append

theorem transactions_eq_nil_iff {calls : List Call} : transactions calls = [] ↔ ∀ c ∈ calls, c.isAsk := by
  rw [transactions, List.filterMap_eq_nil_iff]
  refine forall₂_congr fun c _ => ?_
  cases c with
  | get b answer => exact iff_of_true rfl rfl
  | evaluate source answer => exact iff_of_true rfl rfl
  | set writes answer => exact iff_of_false (Option.some_ne_none _) Bool.false_ne_true

theorem transactionsOf_eq_nil_iff {updates : Updates} : transactionsOf updates = [] ↔ updates = [] := by
  cases updates with
  | nil => exact iff_of_true rfl rfl
  | cons update rest => exact iff_of_false (List.cons_ne_nil _ _) (List.cons_ne_nil _ _)

/-- Well-keyed updates are told by what they write. -/
theorem eq_of_writesOf_eq {updates more : Updates} (hupdates : updates.WellKeyed) (hmore : more.WellKeyed)
    (h : writesOf updates = writesOf more) : updates = more := by
  have hof : ∀ {updates : Updates}, updates.WellKeyed →
      (writesOf updates).map (fun write => Update.of write.1 write.2) = updates := by
    intro updates hkeyed
    rw [writesOf, List.map_map]
    refine (List.map_congr_left fun update hmem => ?_).trans (List.map_id updates)
    simp only [Function.comp_apply, Update.of, ← hkeyed.own_key update hmem, id]
  rw [← hof hupdates, h, hof hmore]

theorem eq_of_transactionsOf_eq {updates more : Updates} (hupdates : updates.WellKeyed) (hmore : more.WellKeyed)
    (h : transactionsOf updates = transactionsOf more) : updates = more := by
  cases updates with
  | nil => exact (transactionsOf_eq_nil_iff.1 h.symm).symm
  | cons update updates =>
    cases more with
    | nil => cases h
    | cons other more => exact eq_of_writesOf_eq hupdates hmore (List.singleton_inj.1 h)

/-! ## Asking only -/

/-- Since the calls up to `calls` the host was only asked, and the collected writes are well keyed. -/
structure Asking (calls : List Call) (s : State (Recorded σ)) : Prop where
  sound : s.Sound
  pending : s.pending.WellKeyed
  asks : ∃ asks, s.host.calls = calls ++ asks ∧ ∀ c ∈ asks, c.isAsk

variable {calls : List Call}

theorem Asking.start {s : State (Recorded σ)} (hs : s.Sound) : Asking s.host.calls { s with pending := [] } where
  sound := ⟨hs.trees, hs.interner⟩
  pending := Updates.wellKeyed_nil
  asks := ⟨[], (List.append_nil _).symm, nofun⟩

theorem Asking.of_sound {s s' : State (Recorded σ)} (h : Asking calls s) (hs : s'.Sound)
    (hpending : s'.pending = s.pending) (hhost : s'.host.calls = s.host.calls) : Asking calls s' where
  sound := hs
  pending := hpending ▸ h.pending
  asks := hhost ▸ h.asks

theorem keeps_asking_call {α : Type} {entry : Except Error α → Call} (hentry : ∀ answer, (entry answer).isAsk)
    (callback : Callback σ α) : Action.Keeps (Asking calls) (call (Callback.recorded entry callback)) := by
  intro s r s' hs h
  rw [call_recorded_ends] at h
  obtain ⟨-, rfl⟩ := h
  obtain ⟨asks, hcalls, hasks⟩ := hs.asks
  refine ⟨⟨hs.sound.trees, hs.sound.interner⟩, hs.pending, asks ++ [entry r], ?_, ?_⟩
  · rw [hcalls, List.append_assoc]
  · intro c hc
    rcases List.mem_append.1 hc with hc | hc
    · exact hasks c hc
    · exact List.mem_singleton.1 hc ▸ hentry r

theorem keeps_asking_intern (path : DataPath) :
    Action.Keeps (Asking calls) (intern path : Action (State (Recorded σ)) Binding) := by
  intro s r s' hs h
  have hsound := keeps_sound_intern path s r s' hs.sound h
  rw [intern_ends] at h
  exact hs.of_sound hsound (h.2 ▸ rfl) (h.2 ▸ rfl)

theorem keeps_asking_readTree (raw : String) :
    Action.Keeps (Asking calls) (readTree raw : Action (State (Recorded σ)) (List Node)) := by
  intro s r s' hs h
  obtain ⟨trees, hends, hsound⟩ := hs.sound.readTree_ends raw
  have hs' := (h.unique hends).2
  exact hs.of_sound (hs' ▸ hsound) (hs' ▸ rfl) (hs' ▸ rfl)

theorem keeps_asking_takesShortcut (w : Wiring σ) (raw : String) :
    Action.Keeps (Asking calls) (w.binder.takesShortcut raw) := by
  unfold takesShortcut
  split
  · apply Action.keeps_ofState
    intro s hs
    exact hs.of_sound ⟨hs.sound.trees, hs.sound.interner⟩ rfl (w.skips_calls raw s.host)
  · exact Action.keeps_sequential.pure false

theorem asking_worldly : Inquiry.Worldly (σ := σ) (Action.Keeps (Asking calls)) where
  look := by
    intro s r s' hs h
    exact (Action.get_ends.1 h).2 ▸ hs
  change f := Action.keeps_modify fun _ hs => hs.of_sound ⟨hs.sound.trees, hs.sound.interner⟩ rfl rfl

theorem keeps_asking_primitives (w : Wiring σ) (host : Host σ) :
    Primitives (Action.Keeps (Asking calls)) w.binder host.recorded where
  shortcut raw := keeps_asking_takesShortcut w raw
  tree raw := keeps_asking_readTree raw
  get path := Action.keeps_sequential.bind (keeps_asking_intern path) fun b =>
    keeps_asking_call (fun _ => rfl) (host.get b)
  evaluate source := keeps_asking_call (fun _ => rfl) (host.evaluate source)
  collect updates := Action.keeps_modify fun _ hs =>
    ⟨⟨hs.sound.trees, hs.sound.interner⟩, hs.pending.merge updates, hs.asks⟩
  taps hs := Wiring.tapAll Action.keeps_sequential (.inr asking_worldly) hs

/-- Resolving a text only asks, and the updates that it finds are well keyed. -/
theorem resolveText_asks {w : Wiring σ} {host : Host σ} {limit : Nat} {raw : String} {s s' : State (Recorded σ)}
    {found : Except Error Resolved} (hs : s.Sound)
    (h : (w.binder.resolveText host.recorded limit raw).Ends s found s') :
    Asking s.host.calls s' ∧ ∀ res, found = .ok res → res.updates.WellKeyed := by
  have hprimitives : Primitives (Action.Keeps (Asking s.host.calls)) w.binder host.recorded :=
    keeps_asking_primitives w host
  have hkeeps := hprimitives.normalize_all Action.keeps_sequential limit raw
  rw [resolveText, Action.modify_bind_ends] at h
  rcases Action.bind_ends.1 h with ⟨e, hnormalize, rfl⟩ | ⟨normalized, s₁, hnormalize, h⟩
  · refine ⟨hkeeps _ _ _ (.start hs) hnormalize, ?_⟩
    intro res hres
    cases hres
  · have hasking := hkeeps _ _ _ (.start hs) hnormalize
    rw [Action.get_bind_ends, Action.pure_ends] at h
    obtain ⟨rfl, rfl⟩ := h
    refine ⟨hasking, ?_⟩
    intro res hres
    cases hres
    exact hasking.pending.merge normalized.updates

theorem resolveSource_asks {w : Wiring σ} {host : Host σ} {limit : Nat} {source : PathSource}
    {s s' : State (Recorded σ)} {found : Except Error Resolved} (hs : s.Sound)
    (h : (w.binder.resolveSource host.recorded limit source).Ends s found s') :
    s'.Sound ∧ (∃ asks, s'.host.calls = s.host.calls ++ asks ∧ ∀ c ∈ asks, c.isAsk) ∧
      ∀ res, found = .ok res → res.updates.WellKeyed := by
  cases source with
  | text raw =>
    obtain ⟨hasking, hkeyed⟩ := resolveText_asks hs h
    exact ⟨hasking.sound, hasking.asks, hkeyed⟩
  | segments path =>
    obtain ⟨hasking, hkeyed⟩ := resolveText_asks hs h
    exact ⟨hasking.sound, hasking.asks, hkeyed⟩
  | binding b =>
    obtain ⟨rfl, rfl⟩ := Action.pure_ends.1 h
    refine ⟨hs, ⟨[], (List.append_nil _).symm, nofun⟩, ?_⟩
    intro res hres
    cases hres
    exact Updates.wellKeyed_nil

/-! ## The end of a parse -/

/-- What follows the resolution: writing what was collected, and the binding. -/
def conclude (host : Host σ) (found : Resolved) : Action (State σ) Binding := do
  writeDefaults host found.updates
  intern found.path

theorem conclude_unwritten (host : Host σ) {found : Resolved} {s : State (Recorded σ)} (hs : s.Sound)
    (h : host.readOnly = true ∨ found.updates = []) :
    ∃ b s', (conclude host.recorded found).Ends s (.ok b) s' ∧ s'.host = s.host ∧ b.path = found.path := by
  obtain ⟨b, interner, hintern, -, hpath⟩ := hs.intern_ends found.path
  refine ⟨b, { s with interner }, ?_, rfl, hpath⟩
  have hskip : (!host.recorded.readOnly && !found.updates.isEmpty) = false := by
    rcases h with h | h
    · simp [Host.recorded, h]
    · simp [h]
  rw [conclude, writeDefaults_eq, hskip]
  exact (Action.pure_ends_self () s).bind hintern

theorem writeDefaults_ends {host : Host σ} {updates : Updates} {s : State (Recorded σ)} (hs : s.Sound)
    (hwritable : host.readOnly = false) (hne : updates ≠ []) :
    ∃ writes s', (writeDefaults host.recorded updates).Ends s ((host.set writes).run.run s.host.world).1 s' ∧
      s'.Sound ∧
      s'.host = ⟨((host.set writes).run.run s.host.world).2,
        s.host.calls ++ [.set writes ((host.set writes).run.run s.host.world).1]⟩ ∧
      writes.map (fun (b, value) => (b.path, value)) = updates.map fun update => (update.path, update.value) := by
  obtain ⟨writes, interner, hinterned, hsound, hasked⟩ := hs.internAll_ends updates
  have hwrite : (!host.recorded.readOnly && !updates.isEmpty) = true := by
    simp [Host.recorded, hwritable, hne]
  let outcome := (host.set writes).run.run s.host.world
  let s' : State (Recorded σ) := { s with interner, host := ⟨outcome.2, s.host.calls ++ [.set writes outcome.1]⟩ }
  refine ⟨writes, s', ?_, ⟨hsound.trees, hsound.interner⟩, rfl, hasked⟩
  rw [writeDefaults_eq, hwrite]
  exact hinterned.bind (call_recorded_ends.2 ⟨rfl, rfl⟩)

theorem transaction_of_asked {updates : Updates} {writes : List (Binding × Value)} (hne : updates ≠ [])
    (hkeyed : updates.WellKeyed)
    (hasked : writes.map (fun (b, value) => (b.path, value)) =
      updates.map fun update => (update.path, update.value)) : Transaction updates writes where
  ne_nil := by
    rintro rfl
    exact hne (List.map_eq_nil_iff.1 hasked.symm)
  nodup := by
    -- the keys of the updates are the texts of their paths
    have htexts : (writes.map fun (b, _) => b.text) = updates.keys := by
      have hmapped := congrArg (List.map fun write => DataPath.text write.1) hasked
      rw [List.map_map, List.map_map] at hmapped
      calc (writes.map fun (b, _) => b.text) = writes.map fun (b, _) => b.path.text :=
            List.map_congr_left fun write _ => write.1.text_eq
        _ = updates.map fun update => update.path.text := hmapped
        _ = updates.keys := List.map_congr_left fun update hmem => (hkeyed.own_key update hmem).symm
    rw [htexts]
    exact hkeyed.nodup
  asked := hasked

/-- When there is something to write, the answer of the host decides the result. -/
theorem conclude_written (host : Host σ) {found : Resolved} {s : State (Recorded σ)} (hs : s.Sound)
    (hwritable : host.readOnly = false) (hne : found.updates ≠ []) :
    ∃ writes b s', (conclude host.recorded found).Ends s
        (((host.set writes).run.run s.host.world).1.map fun _ => b) s' ∧
      b.path = found.path ∧
      s'.host = ⟨((host.set writes).run.run s.host.world).2,
        s.host.calls ++ [.set writes ((host.set writes).run.run s.host.world).1]⟩ ∧
      writes.map (fun (b, value) => (b.path, value)) =
        found.updates.map fun update => (update.path, update.value) := by
  obtain ⟨writes, s₁, hwrite, hsound, hhost, hasked⟩ := writeDefaults_ends hs hwritable hne
  obtain ⟨b, interner, hintern, -, hpath⟩ := hsound.intern_ends found.path
  refine ⟨writes, b, ?_⟩
  generalize ((host.set writes).run.run s.host.world).1 = answer at hwrite hhost ⊢
  cases answer with
  | error e => exact ⟨s₁, hwrite.bind_error, hpath, hhost, hasked⟩
  | ok _ => exact ⟨{ s₁ with interner }, hwrite.bind hintern, hpath, hhost, hasked⟩

/-- Whatever the resolution found, the parse comes to an end, in one of the four ways. -/
theorem conclude_ending (host : Host σ) {found : Resolved} {s : State (Recorded σ)} (hs : s.Sound)
    (hkeyed : found.updates.WellKeyed) :
    ∃ r s' made, (conclude host.recorded found).Ends s r s' ∧ s'.host.calls = s.host.calls ++ made ∧
      made.filter Call.isAsk = [] ∧
      ∀ asks, (∀ c ∈ asks, c.isAsk) → Ending host.readOnly (.ok found) (asks ++ made) r := by
  by_cases hquiet : host.readOnly = true ∨ found.updates = []
  · obtain ⟨b, s', hends, hhost, hpath⟩ := conclude_unwritten host hs hquiet
    refine ⟨.ok b, s', [], hends, by rw [hhost, List.append_nil], rfl, ?_⟩
    intro asks hasks
    rw [List.append_nil]
    exact .unwritten hasks hquiet hpath
  · rw [not_or, Bool.not_eq_true] at hquiet
    obtain ⟨hwritable, hne⟩ := hquiet
    obtain ⟨writes, b, s', hends, hpath, hhost, hasked⟩ := conclude_written host hs hwritable hne
    have htransaction := transaction_of_asked hne hkeyed hasked
    refine ⟨_, s', _, hends, congrArg Recorded.calls hhost, rfl, ?_⟩
    intro asks hasks
    cases ((host.set writes).run.run s.host.world).1 with
    | error e => exact .refused hasks hwritable htransaction
    | ok _ => exact .written hasks hwritable htransaction hpath

/-! ## Whole parses -/

theorem normalize_readOnly (binder : Binder σ) (host : Host σ) (flag : Bool) (limit : Nat) :
    binder.normalize { host with readOnly := flag } limit = binder.normalize host limit := by
  induction limit with
  | zero => rfl
  | succ limit ih =>
    funext raw
    simp only [normalize, ih]
    rfl

/-- What a source leads to does not depend on whether anything may be written. -/
theorem resolveSource_readOnly (binder : Binder σ) (host : Host σ) (flag : Bool) (limit : Nat) (source : PathSource) :
    binder.resolveSource { host with readOnly := flag } limit source = binder.resolveSource host limit source := by
  cases source with
  | text raw => simp only [resolveSource, resolveText, normalize_readOnly]
  | segments path => simp only [resolveSource, resolveText, normalize_readOnly]
  | binding b => rfl

theorem parseWith_binding_ends {w : Wiring σ} {limit : Nat} {parts : Host.Overrides (Recorded σ)} {b : Binding}
    {s s' : State (Recorded σ)} {r : Except Error Binding} :
    (w.binder.parseWith limit parts (.binding b)).Ends s r s' ↔ r = .ok b ∧ s' = s := Action.pure_ends

theorem parseWith_eq (w : Wiring σ) (limit : Nat) (parts : Host.Overrides σ) {source : PathSource}
    (hsource : ∀ b, source ≠ .binding b) :
    w.binder.parseWith limit parts.recorded source =
      w.binder.resolveSource (w.host.override parts).recorded limit source >>=
        conclude (w.host.override parts).recorded := by
  cases source with
  | text raw =>
    rw [← Host.override_recorded]
    exact parseText_eq w.binder _ limit raw
  | segments path =>
    rw [← Host.override_recorded]
    exact parseText_eq w.binder _ limit path.text
  | binding b => exact absurd rfl (hsource b)

theorem parseWith_text_ends {w : Wiring σ} {limit : Nat} {parts : Host.Overrides σ} {raw : String} {found : Resolved}
    {s s₁ s' : State (Recorded σ)} {r : Except Error Binding}
    (hresolve : (w.binder.resolveText (w.host.override parts).recorded limit raw).Ends s (.ok found) s₁)
    (hconclude : (conclude (w.host.override parts).recorded found).Ends s₁ r s') :
    (w.binder.parseWith limit parts.recorded (.text raw)).Ends s r s' := by
  have hparsed : ∀ b, PathSource.text raw ≠ .binding b := nofun
  rw [parseWith_eq w limit parts hparsed]
  exact hresolve.bind hconclude

/-- A parse resolves its source, asking only, and ends in one of the four ways; when it is read-only it makes the
same calls but for the write, and gives a binding of the same path. -/
theorem parseWith_writes_last (w : Wiring σ) (limit : Nat) (parts : Host.Overrides σ) (source : PathSource)
    {s s' : State (Recorded σ)} {r : Except Error Binding} (hs : Reachable s)
    (h : (w.binder.parseWith limit parts.recorded source).Ends s r s') :
    ∃ found s₁ made,
      (w.binder.resolveSource (w.host.override parts).recorded limit source).Ends s found s₁ ∧
      s'.host.calls = s.host.calls ++ made ∧
      Ending (w.host.override parts).readOnly found made r ∧
      ∃ r' t,
        (w.binder.parseWith limit { parts with readOnly := some true }.recorded source).Ends s r' t ∧
        t.host.calls = s.host.calls ++ made.filter Call.isAsk ∧
        Ending true found (made.filter Call.isAsk) r' ∧
        ∀ b, r = .ok b → ∃ b', r' = .ok b' ∧ b'.path = b.path := by
  by_cases hsource : ∃ b, source = .binding b
  · -- a binding is handed back as it is
    obtain ⟨b, rfl⟩ := hsource
    rw [parseWith_binding_ends] at h
    obtain ⟨rfl, rfl⟩ := h
    have hending : ∀ readOnly, Ending readOnly (.ok ⟨b.path, []⟩) [] (.ok b) :=
      fun readOnly => .unwritten nofun (.inr rfl) rfl
    refine ⟨.ok ⟨b.path, []⟩, s', [], Action.pure_ends_self _ _, (List.append_nil _).symm, hending _, ?_⟩
    exact ⟨.ok b, s', parseWith_binding_ends.2 ⟨rfl, rfl⟩, (List.append_nil _).symm, hending _,
      fun b' hb' => ⟨b', hb', rfl⟩⟩
  · have hparsed : ∀ b, source ≠ .binding b := fun b hb => hsource ⟨b, hb⟩
    have hreadOnly := resolveSource_readOnly w.binder (w.host.override parts).recorded true limit source
    rw [parseWith_eq w limit parts hparsed] at h
    rw [parseWith_eq w limit _ hparsed]
    rcases Action.bind_ends.1 h with ⟨e, hresolve, rfl⟩ | ⟨found, s₁, hresolve, hconclude⟩
    · obtain ⟨-, ⟨asks, hcalls, hasks⟩, -⟩ := resolveSource_asks hs.sound hresolve
      have hfilter : asks.filter Call.isAsk = asks := List.filter_eq_self.2 hasks
      refine ⟨.error e, s', asks, hresolve, hcalls, .unresolved hasks, .error e, s', ?_, ?_, ?_, nofun⟩
      · exact Action.Ends.bind_error (hreadOnly ▸ hresolve)
      · rw [hfilter, hcalls]
      · rw [hfilter]
        exact .unresolved hasks
    · obtain ⟨hsound, ⟨asks, hcalls, hasks⟩, hnodup⟩ := resolveSource_asks hs.sound hresolve
      have hfilter : asks.filter Call.isAsk = asks := List.filter_eq_self.2 hasks
      -- both parses resolve alike, so they part only in what follows
      obtain ⟨r₁, s₂, made, hends, hmade, hnone, hending⟩ :=
        conclude_ending (w.host.override parts) hsound (hnodup found rfl)
      obtain ⟨rfl, rfl⟩ := hconclude.unique hends
      have hquiet : (w.host.override { parts with readOnly := some true }).readOnly = true ∨ found.updates = [] :=
        .inl rfl
      obtain ⟨b', t, hends', hhost, hpath⟩ := conclude_unwritten _ hsound hquiet
      refine ⟨.ok found, s₁, asks ++ made, hresolve, by rw [hmade, hcalls, List.append_assoc], hending asks hasks,
        .ok b', t, ?_, ?_, ?_, ?_⟩
      · exact Action.Ends.bind (hreadOnly ▸ hresolve) hends'
      · rw [List.filter_append, hnone, List.append_nil, hfilter, hhost, hcalls]
      · rw [List.filter_append, hnone, List.append_nil, hfilter]
        exact .unwritten hasks (.inl rfl) hpath
      · intro b hb
        refine ⟨b', rfl, ?_⟩
        subst hb
        rw [hpath, (hending asks hasks).path_eq]

/-- The query `items[name=x]` on a document without such an item. -/
theorem parseWith_writes_last_item :
    let w := Wiring.ofDocument
    let s : State (Recorded Value) := .start .unbounded ⟨.object [("items", .array [])], []⟩
    Reachable s ∧ ∃ r s',
      (w.binder.parseWith 1 Host.Overrides.unchanged.recorded (.text "items[name=x]")).Ends s r s' ∧
      ∃ found made, s'.host.calls = made ∧ Ending false found made r := by
  intro w s
  let q := QueryText.itemNamed
  have hreachable : Reachable s := .start _ _
  have hraw : q.raw = "items[name=x]" := QueryText.itemNamed_raw
  obtain ⟨b, s₁, hresolve, hsound, -, -⟩ := q.asksOnce.resolveText_ends w.host 0 hreachable.sound fun b hb =>
    Wiring.ofDocument_get hb s.host.world
  have hnodup := (resolveText_asks hreachable.sound hresolve).2 _ rfl
  obtain ⟨r, s', -, hconclude, -⟩ := conclude_ending w.host hsound hnodup
  have hends : (w.binder.parseWith 1 Host.Overrides.unchanged.recorded (.text "items[name=x]")).Ends s r s' :=
    hraw ▸ parseWith_text_ends hresolve hconclude
  obtain ⟨found, _, made, -, hcalls, hending, -⟩ :=
    parseWith_writes_last w 1 .unchanged (.text "items[name=x]") hreachable hends
  exact ⟨hreachable, r, s', hends, found, made, hcalls, hending⟩

end DataBound.Binder
