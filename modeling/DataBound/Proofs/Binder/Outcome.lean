-- SUMMARY: What a text leads to over one document, what its parse gives for that, and when two parses agree.
import DataBound.Proofs.Binder.Shortcut
import DataBound.Proofs.Binder.Defaults
import DataBound.Proofs.Binder.History
import DataBound.Proofs.Binder.Failures

/-!
# Outcomes over a document

Over one document a text leads to one path and one list of updates, whatever was asked for before. The parse then gives
a binding of this path and sets the updates in one transaction; or the text leads to an error, and the parse refuses with
the document as it was. So two parses over equal documents agree if and only if their texts lead to the same.
-/

namespace DataBound

namespace Binder

/-! ## One text over one document -/

/-- Since the calls `calls` a document was asked for values only, and gave what it holds. -/
structure Answering (document : Value) (calls : List Call) (s : State (Recorded Value)) : Prop where
  sound : s.Sound
  world_eq : s.host.world = document
  asks : ∃ made, s.host.calls = calls ++ made ∧ (∀ c ∈ made, c.isAsk) ∧ Wiring.ofDocument.host.Replies document made

section

variable {document : Value} {calls : List Call} {s s' : State (Recorded Value)}

/-- Answers to questions leave the document as it is, so that more answers can follow. -/
theorem replies_append {made more : List Call} (hasks : ∀ c ∈ made, c.isAsk)
    (hmade : Wiring.ofDocument.host.Replies document made) (hmore : Wiring.ofDocument.host.Replies document more) :
    Wiring.ofDocument.host.Replies document (made ++ more) := by
  induction made with
  | nil => exact hmore
  | cons c made ih =>
    have hasks' : ∀ c ∈ made, c.isAsk := fun c hc => hasks c (List.mem_cons_of_mem _ hc)
    cases c with
    | get b answer =>
      intro b' hb'
      obtain ⟨hanswer, hrest⟩ := hmade b' hb'
      exact ⟨hanswer, ih hasks' hrest⟩
    | evaluate source answer => exact ⟨hmade.1, ih hasks' hmade.2⟩
    | set writes answer => exact absurd (hasks _ List.mem_cons_self) Bool.false_ne_true

theorem Answering.start (hs : s.Sound) : Answering s.host.world s.host.calls s :=
  ⟨hs, rfl, [], (List.append_nil _).symm, nofun, trivial⟩

theorem Answering.of_sound (h : Answering document calls s) (hs' : s'.Sound) (hhost : s'.host = s.host) :
    Answering document calls s' :=
  ⟨hs', hhost ▸ h.world_eq, hhost ▸ h.asks⟩

/-- One more answer. -/
theorem Answering.call {c : Call} (h : Answering document calls s) (hs' : s'.Sound)
    (hhost : s'.host = ⟨document, s.host.calls ++ [c]⟩) (hask : c.isAsk)
    (hreplies : Wiring.ofDocument.host.Replies document [c]) : Answering document calls s' := by
  obtain ⟨made, hcalls, hasks, hmade⟩ := h.asks
  refine ⟨hs', congrArg Recorded.world hhost, made ++ [c], ?_, ?_, replies_append hasks hmade hreplies⟩
  · rw [hhost, hcalls, List.append_assoc]
  · exact List.forall_mem_append.2 ⟨hasks, List.forall_mem_singleton.2 hask⟩

theorem keeps_answering_get (path : DataPath) :
    Action.Keeps (Answering document calls)
      (intern path >>= fun b => call (Wiring.ofDocument.host.recorded.get b) : Action _ (Option Value)) := by
  intro s r s' hs h
  have hpath := hs.sound.interner.intern_path path
  obtain ⟨t, hends, hsound, -, hhost⟩ := hs.sound.valueAt_ends (Wiring.ofDocument_get hpath s.host.world)
    (Wiring.ofDocument.binder.normalize Wiring.ofDocument.host.recorded 0)
  obtain ⟨-, rfl⟩ := h.unique hends
  rw [hs.world_eq] at hhost
  refine hs.call hsound hhost rfl fun b hb => ?_
  have hanswer := Wiring.ofDocument_get (hb.trans hpath) document
  rw [hanswer]
  exact ⟨rfl, trivial⟩

theorem keeps_answering_primitives :
    Primitives (Action.Keeps (Answering document calls)) Wiring.ofDocument.binder Wiring.ofDocument.host.recorded where
  shortcut raw := by
    intro s r s' hs h
    obtain ⟨shortcut, hends, -⟩ := takesShortcut_ends Wiring.ofDocument.binder raw s
    obtain ⟨-, rfl⟩ := h.unique hends
    exact hs.of_sound ⟨hs.sound.trees, hs.sound.interner⟩ (lookedAt_ofHost _ raw s.host)
  tree raw := by
    intro s r s' hs h
    obtain ⟨trees, hends, hsound⟩ := hs.sound.readTree_ends raw
    obtain ⟨-, rfl⟩ := h.unique hends
    exact hs.of_sound hsound rfl
  get path := keeps_answering_get path
  evaluate source := by
    intro s r s' hs h
    obtain ⟨rfl, rfl⟩ := call_recorded_ends.1 h
    refine hs.call (c := .evaluate source (.error (.notWired "evaluate"))) ⟨hs.sound.trees, hs.sound.interner⟩ ?_ rfl
      ⟨rfl, trivial⟩
    rw [hs.world_eq]
    rfl
  collect _ := Action.keeps_modify fun s hs => hs.of_sound ⟨hs.sound.trees, hs.sound.interner⟩ rfl
  taps _ _ hmem := nomatch hmem

/-- A text leads to the same from all states over one document, with the same writes asked for on the way. -/
theorem normalize_over_document {limit : Nat} {raw : String} {r : Except Error Resolved} {t : State (Recorded Value)}
    (hs : s.Sound) (h : (Wiring.ofDocument.binder.normalize Wiring.ofDocument.host.recorded limit raw).Ends s r s')
    (ht : t.Sound) (hpending : t.pending = s.pending) (hworld : t.host.world = s.host.world) :
    ∃ t', (Wiring.ofDocument.binder.normalize Wiring.ofDocument.host.recorded limit raw).Ends t r t' ∧
      Answering t.host.world t.host.calls t' ∧ t'.pending = s'.pending := by
  have hkeeps : ∀ calls, Action.Keeps (Answering s.host.world calls)
      (Wiring.ofDocument.binder.normalize Wiring.ofDocument.host.recorded limit raw) :=
    fun calls => keeps_answering_primitives.normalize_all Action.keeps_sequential limit raw
  obtain ⟨made, hcalls, -, hreplies⟩ :=
    (hkeeps s.host.calls s r s' (.start hs) h).asks
  have hmirrored : Mirrored Wiring.ofDocument.host
      (Wiring.ofDocument.binder.normalize Wiring.ofDocument.host.recorded limit raw) :=
    (mirrored_primitives (Wiring.ofHost_pure _)).normalize_all (mirrored_sequential _) limit raw
  obtain ⟨-, made', hcalls', hothers⟩ := hmirrored s r s' hs h
  obtain rfl : made' = made := List.append_cancel_left (hcalls'.symm.trans hcalls)
  rw [← hworld, ← List.append_nil made'] at hreplies
  obtain ⟨t', hends, hfollows⟩ := hothers t [] ht hpending hreplies
  exact ⟨t', hends, hworld ▸ hkeeps t.host.calls t r t' (hworld ▸ .start ht) hends, hfollows.pending⟩

theorem answering_of_resolveText {limit : Nat} {raw : String} {found : Except Error Resolved} (hs : s.Sound)
    (h : (Wiring.ofDocument.binder.resolveText Wiring.ofDocument.host.recorded limit raw).Ends s found s') :
    Answering s.host.world s.host.calls s' := by
  obtain ⟨r, hnormalize, -⟩ := normalize_of_resolveText h
  have hreset : ({ s with pending := [] } : State (Recorded Value)).Sound := ⟨hs.trees, hs.interner⟩
  have hstart := Answering.start hreset
  exact keeps_answering_primitives.normalize_all Action.keeps_sequential limit raw _ r s' hstart hnormalize

end

/-! ## What parses give -/

/-- The text leads to the result over the document of the state. -/
def Leads (limit : Nat) (s : State (Recorded Value)) (raw : String) (found : Except Error Resolved) : Prop :=
  ∃ s', (Wiring.ofDocument.binder.resolveText Wiring.ofDocument.host.recorded limit raw).Ends s found s'

/-- The text is parsed to a binding of the path, and what is asked for is set in one transaction. -/
def Gives (limit : Nat) (s : State (Recorded Value)) (raw : String) (found : Resolved) : Prop :=
  ∃ b s' made, (Wiring.ofDocument.binder.parse limit raw).Ends s (.ok b) s' ∧ b.path = found.path ∧
    s'.host.calls = s.host.calls ++ made ∧ transactions made = transactionsOf found.updates ∧
    s'.host.world = Value.setAll (writesOf found.updates) s.host.world

/-- The parse of the text fails, nothing is set, and the document stays as it is. -/
def Refuses (limit : Nat) (s : State (Recorded Value)) (raw : String) : Prop :=
  ∃ e s' made, (Wiring.ofDocument.binder.parse limit raw).Ends s (.error e) s' ∧
    s'.host.calls = s.host.calls ++ made ∧ transactions made = [] ∧ s'.host.world = s.host.world

/-- Both texts are parsed, with equal paths, equal transactions and equal documents afterwards. -/
def Agree (limit : Nat) (s t : State (Recorded Value)) (one other : String) : Prop :=
  ∃ b s' made b' t' made',
    (Wiring.ofDocument.binder.parse limit one).Ends s (.ok b) s' ∧
    (Wiring.ofDocument.binder.parse limit other).Ends t (.ok b') t' ∧
    s'.host.calls = s.host.calls ++ made ∧ t'.host.calls = t.host.calls ++ made' ∧
    b.path = b'.path ∧ transactions made = transactions made' ∧ s'.host.world = t'.host.world

section

variable {limit : Nat} {raw one other : String} {s t s' : State (Recorded Value)} {found found' : Resolved}

theorem parse_eq_bind (limit : Nat) (raw : String) :
    Wiring.ofDocument.binder.parse limit raw =
      (Wiring.ofDocument.binder.resolveText Wiring.ofDocument.host.recorded limit raw >>=
        conclude Wiring.ofDocument.host.recorded) :=
  parseText_eq _ _ limit raw

theorem leads_of_asksNothing (limit : Nat) {path : DataPath} (ha : AsksNothing raw path) (hs : s.Sound) :
    Leads (limit + 1) s raw (.ok ⟨path, []⟩) := by
  obtain ⟨trees, hends⟩ := ha.resolveText_ends (rfl : Wiring.ofDocument.binder.beforeNode = ∅)
    Wiring.ofDocument.host.recorded limit hs
  exact ⟨_, hends⟩

/-- A text gives what it leads to. -/
theorem gives_of_leads (hs : s.Sound) (h : Leads limit s raw (.ok found)) : Gives limit s raw found := by
  obtain ⟨s₁, hresolve⟩ := h
  obtain ⟨hsound, hworld, asks, hcalls, hasks, -⟩ := answering_of_resolveText hs hresolve
  obtain ⟨b, s', sets, hends, hpath, hset, hcalls', htransactions⟩ := conclude_document_ends found hsound
  refine ⟨b, s', asks ++ sets, parse_eq_bind limit raw ▸ hresolve.bind hends, hpath, ?_, ?_, ?_⟩
  · rw [hcalls', hcalls, List.append_assoc]
  · rw [transactions_append, transactions_eq_nil_iff.2 hasks, List.nil_append, htransactions]
  · rw [hset, hworld]

theorem refuses_of_leads {e : Error} (hs : s.Sound) (h : Leads limit s raw (.error e)) : Refuses limit s raw := by
  obtain ⟨s', hresolve⟩ := h
  obtain ⟨-, hworld, asks, hcalls, hasks, -⟩ := answering_of_resolveText hs hresolve
  exact ⟨e, s', asks, parse_eq_bind limit raw ▸ hresolve.bind_error, hcalls, transactions_eq_nil_iff.2 hasks, hworld⟩

/-- A parse that ends has found where the text leads. -/
theorem leads_of_parse {r : Except Error Binding} (h : (Wiring.ofDocument.binder.parse limit raw).Ends s r s') :
    ∃ found, Leads limit s raw found := by
  rw [parse_eq_bind] at h
  rcases Action.bind_ends.1 h with ⟨e, hresolve, -⟩ | ⟨found, s₁, hresolve, -⟩
  · exact ⟨.error e, s', hresolve⟩
  · exact ⟨.ok found, s₁, hresolve⟩

theorem wellKeyed_of_leads (hs : s.Sound) (h : Leads limit s raw (.ok found)) : found.updates.WellKeyed := by
  obtain ⟨s', hresolve⟩ := h
  exact (resolveText_asks hs hresolve).2 found rfl

/-- Parses over equal documents agree if they give the same. -/
theorem Gives.agree_iff (hone : Gives limit s one found) (hother : Gives limit t other found')
    (hkeyed : found.updates.WellKeyed) (hkeyed' : found'.updates.WellKeyed)
    (hworld : t.host.world = s.host.world) : Agree limit s t one other ↔ found = found' := by
  obtain ⟨b, s', made, hends, hpath, hcalls, hmade, hs'⟩ := hone
  obtain ⟨b', t', made', hends', hpath', hcalls', hmade', ht'⟩ := hother
  constructor
  · rintro ⟨c, s₁, more, c', t₁, more', hs₁, ht₁, hmore, hmore', hbinding, htransactions, -⟩
    obtain ⟨hc, rfl⟩ := hs₁.unique hends
    obtain ⟨hc', rfl⟩ := ht₁.unique hends'
    cases hc
    cases hc'
    obtain rfl := List.append_cancel_left (hmore.symm.trans hcalls)
    obtain rfl := List.append_cancel_left (hmore'.symm.trans hcalls')
    have hupdates := eq_of_transactionsOf_eq hkeyed hkeyed' (hmade.symm.trans (htransactions.trans hmade'))
    have hsame := hpath.symm.trans (hbinding.trans hpath')
    obtain ⟨path, updates⟩ := found
    cases hsame
    cases hupdates
    rfl
  · rintro rfl
    refine ⟨b, s', made, b', t', made', hends, hends', hcalls, hcalls', ?_, hmade.trans hmade'.symm, ?_⟩
    · exact hpath.trans hpath'.symm
    · rw [hs', ht', hworld]

end

end Binder

end DataBound
