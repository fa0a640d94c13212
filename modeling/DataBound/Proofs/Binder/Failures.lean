-- SUMMARY: How a parse fails: what the host fails with comes through, and every error says where it comes from.
import DataBound.Proofs.Binder.Writes
import DataBound.Proofs.Binder.Shortcut

/-!
# Failures of a parse

A resolution is told by the host's answers. Once one of them is an error nothing more is asked or written, and the
resolution fails with an error of the same root cause, however deep in references, queries and the texts of values it
was asked for. Without such an answer it fails only with what it finds by itself. One induction over the limit carries
this through all texts (`truthful_normalize`); a parse adds the write at its end.
-/

namespace DataBound

/-- The error that the host answered with. -/
def Call.failure? : Call → Option Error
  | .get _ (.error e) => some e
  | .evaluate _ (.error e) => some e
  | .set _ (.error e) => some e
  | _ => none

/-- The host can answer the call as it is noted down. -/
def Host.Gives {σ : Type} (host : Host σ) : Call → Prop
  | .get b answer => ∃ world, ((host.get b).run.run world).1 = answer
  | .evaluate source answer => ∃ world, ((host.evaluate source).run.run world).1 = answer
  | .set writes answer => ∃ world, ((host.set writes).run.run world).1 = answer

/-- The text that is parsed; a binding is not. -/
def PathSource.raw? : PathSource → Option String
  | .text raw => some raw
  | .segments path => some path.text
  | .binding _ => none

namespace Binder

variable {σ α β : Type}

/-! ## What the host tells -/

/-- Calls that ask for values and get them. -/
def Answered (asks : List Call) : Prop := ∀ c ∈ asks, c.isAsk ∧ c.failure? = none

theorem Answered.append {asks more : List Call} (h : Answered asks) (hmore : Answered more) : Answered (asks ++ more) :=
  List.forall_mem_append.2 ⟨h, hmore⟩

/-- How something ends that only asks the host, by the calls it makes. A failure of the host comes last and gives the root
    cause of the result; without one the root cause of an error is one that was found. -/
inductive Told (host : Host σ) : List Call → Except Error α → Prop where
  | answered {asks r} : Answered asks → (∀ e, r = .error e → Finds e.rootCause) → Told host asks r
  | failed {asks c e e'} :
      Answered asks → c.isAsk → host.Gives c → c.failure? = some e → e'.rootCause = e.rootCause →
      Told host (asks ++ [c]) (.error e')

variable {host : Host σ}

namespace Told

theorem ok {a : α} {asks : List Call} (h : Answered asks) : Told host asks (.ok a : Except Error α) := .answered h nofun

theorem answered_of_ok {a : α} {made : List Call} (h : Told host made (.ok a : Except Error α)) : Answered made := by
  cases h with
  | answered hasks _ => exact hasks

/-- What comes after answers. -/
theorem append {asks made : List Call} {r : Except Error α} (hasks : Answered asks) (h : Told host made r) :
    Told host (asks ++ made) r := by
  cases h with
  | answered hmade hfinds => exact .answered (hasks.append hmade) hfinds
  | failed hmade hask hgives hfailure hcause =>
    rw [← List.append_assoc]
    exact .failed (hasks.append hmade) hask hgives hfailure hcause

/-- Only the root cause of an error counts. -/
theorem of_rootCause_eq {made : List Call} {e e' : Error} (h : Told host made (.error e : Except Error α))
    (hcause : e'.rootCause = e.rootCause) : Told host made (.error e' : Except Error β) := by
  cases h with
  | answered hmade hfinds =>
    refine .answered hmade fun e₁ he₁ => ?_
    cases he₁
    rw [hcause]
    exact hfinds e rfl
  | failed hmade hask hgives hfailure hcause' => exact .failed hmade hask hgives hfailure (hcause.trans hcause')

end Told

/-! ## Resolving -/

/-- From every sound state the action leaves a sound one and ends as the host tells it. -/
def Truthful (host : Host σ) (x : Action (State (Recorded σ)) α) : Prop :=
  ∀ s r s', s.Sound → x.Ends s r s' → s'.Sound ∧ ∃ made, s'.host.calls = s.host.calls ++ made ∧ Told host made r

theorem truthful_composed : Action.Composed (fun x => Truthful host x) where
  pure a := by
    intro s r s' hs h
    obtain ⟨rfl, rfl⟩ := Action.pure_ends.1 h
    exact ⟨hs, [], (List.append_nil _).symm, .ok nofun⟩
  bind hx hf := by
    intro s r s' hs h
    rcases Action.bind_ends.1 h with ⟨e, hxe, rfl⟩ | ⟨a, s₁, hxa, hfa⟩
    · obtain ⟨hs', made, hcalls, htold⟩ := hx s _ s' hs hxe
      exact ⟨hs', made, hcalls, htold.of_rootCause_eq rfl⟩
    · obtain ⟨hs₁, asks, hasks, htold⟩ := hx s _ s₁ hs hxa
      obtain ⟨hs', made, hmade, htold'⟩ := hf a s₁ r s' hs₁ hfa
      refine ⟨hs', asks ++ made, ?_, htold'.append htold.answered_of_ok⟩
      rw [hmade, hasks, List.append_assoc]
  mapError hchange hx := by
    intro s r s' hs h
    obtain ⟨r₁, hx₁, rfl⟩ := Action.mapError_ends.1 h
    obtain ⟨hs', made, hcalls, htold⟩ := hx s r₁ s' hs hx₁
    refine ⟨hs', made, hcalls, ?_⟩
    cases r₁ with
    | ok a => exact .ok htold.answered_of_ok
    | error e => exact htold.of_rootCause_eq (hchange e)

/-- What makes no calls is truthful if it fails with what is found. -/
theorem truthful_of_silent {x : Action (State (Recorded σ)) α}
    (h : ∀ s r s', s.Sound → x.Ends s r s' →
      s'.Sound ∧ s'.host.calls = s.host.calls ∧ ∀ e, r = .error e → Finds e.rootCause) : Truthful host x := by
  intro s r s' hs hends
  obtain ⟨hs', hcalls, hfinds⟩ := h s r s' hs hends
  exact ⟨hs', [], by rw [hcalls, List.append_nil], .answered nofun hfinds⟩

theorem truthful_throw {e : Error} (h : Finds e.rootCause) : Truthful host (throw e : Action (State (Recorded σ)) α) := by
  apply truthful_of_silent
  intro s r s' hs hends
  obtain ⟨rfl, rfl⟩ := Action.throw_ends.1 hends
  refine ⟨hs, rfl, fun e' he' => ?_⟩
  cases he'
  exact h

theorem truthful_modify {change : State (Recorded σ) → State (Recorded σ)}
    (hsound : ∀ s, s.Sound → (change s).Sound) (hcalls : ∀ s, (change s).host.calls = s.host.calls) :
    Truthful host (modify change : Action (State (Recorded σ)) Unit) := by
  apply truthful_of_silent
  intro s r s' hs hends
  obtain ⟨rfl, rfl⟩ := Action.modify_ends.1 hends
  exact ⟨hsound s hs, hcalls s, nofun⟩

theorem truthful_intern (path : DataPath) : Truthful host (intern path : Action (State (Recorded σ)) Binding) := by
  apply truthful_of_silent
  intro s r s' hs hends
  have hs' := keeps_sound_intern path s r s' hs hends
  obtain ⟨rfl, rfl⟩ := intern_ends.1 hends
  exact ⟨hs', rfl, nofun⟩

theorem truthful_takesShortcut (w : Wiring σ) (raw : String) : Truthful host (w.binder.takesShortcut raw) := by
  unfold takesShortcut
  split
  · apply truthful_of_silent
    intro s r s' hs hends
    obtain ⟨rfl, rfl⟩ := Action.ofState_ends.1 hends
    exact ⟨⟨hs.trees, hs.interner⟩, w.skips_calls raw s.host, nofun⟩
  · exact truthful_composed.pure false

theorem truthful_readTree (raw : String) : Truthful host (readTree raw : Action (State (Recorded σ)) (List Node)) := by
  apply truthful_of_silent
  intro s r s' hs hends
  obtain ⟨trees, hread, hs'⟩ := hs.readTree_ends raw
  obtain ⟨rfl, rfl⟩ := hends.unique hread
  refine ⟨hs', rfl, ?_⟩
  cases hraw : Path.read raw with
  | ok tree => nofun
  | error fault =>
    intro e he
    cases he
    exact .badPath hraw

/-- What comes after reading a text needs to be truthful only for the tree of the text. -/
theorem truthful_readTree_bind {raw : String} {f : List Node → Action (State (Recorded σ)) α}
    (h : ∀ tree, Path.read raw = .ok tree → Truthful host (f tree)) : Truthful host (readTree raw >>= f) := by
  intro s r s' hs hends
  obtain ⟨trees, hread, hs₁⟩ := hs.readTree_ends raw
  cases hraw : Path.read raw with
  | error fault =>
    rw [hraw] at hread
    obtain ⟨rfl, rfl⟩ := hends.unique hread.bind_error
    refine ⟨hs₁, [], (List.append_nil _).symm, .answered nofun fun e he => ?_⟩
    cases he
    exact .badPath hraw
  | ok tree =>
    rw [hraw] at hread
    have hf : (f tree).Ends { s with trees } r s' := (Action.bind_run_ok hread).symm.trans hends
    exact h tree hraw { s with trees } r s' hs₁ hf

/-- A recorded call that asks is truthful, if it is noted down with the host's failure. -/
theorem truthful_call {entry : Except Error α → Call} (hask : ∀ answer, (entry answer).isAsk)
    (hok : ∀ a, (entry (.ok a)).failure? = none) (herror : ∀ e, (entry (.error e)).failure? = some e)
    {callback : Callback σ α} (hgives : ∀ world, host.Gives (entry (callback.run.run world).1)) :
    Truthful host (call (Callback.recorded entry callback)) := by
  intro s r s' hs hends
  obtain ⟨hr, rfl⟩ := call_recorded_ends.1 hends
  refine ⟨⟨hs.trees, hs.interner⟩, [entry r], rfl, ?_⟩
  cases r with
  | ok a => exact .ok (List.forall_mem_singleton.2 ⟨hask _, hok a⟩)
  | error e => exact @Told.failed _ _ _ [] _ _ _ nofun (hask _) (hr ▸ hgives s.host.world) (herror e) rfl

theorem truthful_primitives {w : Wiring σ} (hw : w.taps = ∅) (host : Host σ) :
    Primitives (fun x => Truthful host x) w.binder host.recorded where
  shortcut raw := truthful_takesShortcut w raw
  tree raw := truthful_readTree raw
  get path := truthful_composed.bind (truthful_intern path) fun b =>
    truthful_call (fun _ => rfl) (fun _ => rfl) (fun _ => rfl) fun world => ⟨world, rfl⟩
  evaluate _ := truthful_call (fun _ => rfl) (fun _ => rfl) (fun _ => rfl) fun world => ⟨world, rfl⟩
  collect updates := truthful_modify (fun _ hs => ⟨hs.trees, hs.interner⟩) fun _ => rfl
  taps _ tap hmem := by
    have hnone : w.binder.beforeNode.taps = [] := by simp only [Wiring.binder, hw]; rfl
    rw [hnone] at hmem
    cases hmem

/-- Without taps on nodes a text is normalized as the host tells it, however far the texts of values lead. -/
theorem truthful_normalize {w : Wiring σ} (hw : w.taps = ∅) (host : Host σ) (limit : Nat) :
    ∀ raw, Truthful host (w.binder.normalize host.recorded limit raw) := by
  induction limit with
  | zero =>
    intro raw s r s' hs hends
    exact absurd hends Action.not_exhausted_ends
  | succ limit ih =>
    intro raw
    apply truthful_composed.bind (truthful_takesShortcut w raw)
    intro shortcut
    cases shortcut with
    | true => exact truthful_composed.pure _
    | false =>
      apply truthful_readTree_bind
      intro tree hread
      apply truthful_composed.mapError
      · intro e
        rfl
      · have hs := (truthful_primitives hw host).services_all truthful_composed
          (fun hfinds => truthful_throw hfinds.rootCause) ih
        have hnone : w.binder.beforeNode = ⟨[]⟩ := by simp only [Wiring.binder, hw]; rfl
        rw [hnone, Services.resolve_of_no_taps]
        exact Services.resolveNodes_all truthful_composed hs .empty tree (.inr (Path.wellFormed_of_read hread))

theorem truthful_resolveText {w : Wiring σ} (hw : w.taps = ∅) (host : Host σ) (limit : Nat) (raw : String) :
    Truthful host (w.binder.resolveText host.recorded limit raw) := by
  apply truthful_composed.bind
  · exact truthful_modify (fun _ hs => ⟨hs.trees, hs.interner⟩) fun _ => rfl
  · intro _
    apply truthful_composed.bind (truthful_normalize hw host limit raw)
    intro normalized s r s' hs hends
    rw [Action.get_bind_ends, Action.pure_ends] at hends
    obtain ⟨rfl, rfl⟩ := hends
    exact ⟨hs, [], (List.append_nil _).symm, .ok nofun⟩

/-- What a text leads to is what it is normalized to, with the writes that were asked for on the way. -/
theorem normalize_of_resolveText {w : Wiring σ} {host : Host σ} {limit : Nat} {raw : String} {s s' : State (Recorded σ)}
    {r : Except Error Resolved} (h : (w.binder.resolveText host.recorded limit raw).Ends s r s') :
    ∃ r₁, (w.binder.normalize host.recorded limit raw).Ends { s with pending := [] } r₁ s' ∧
      r = r₁.map fun normalized => ⟨normalized.path, Updates.merge s'.pending normalized.updates⟩ := by
  rw [resolveText, Action.modify_bind_ends] at h
  rcases Action.bind_ends.1 h with ⟨e, hnormalize, rfl⟩ | ⟨normalized, s₁, hnormalize, h⟩
  · exact ⟨.error e, hnormalize, rfl⟩
  · rw [Action.get_bind_ends, Action.pure_ends] at h
    obtain ⟨rfl, rfl⟩ := h
    exact ⟨.ok normalized, hnormalize, rfl⟩

/-! ## Which error it is -/

/-- A text that is no path is refused before anything is asked. -/
theorem normalize_rejected {w : Wiring σ} {host : Host σ} {limit : Nat} {raw : String} {fault : Fault}
    {s s' : State (Recorded σ)} {r : Except Error Resolved} (hs : s.Sound) (hread : Path.read raw = .error fault)
    (h : (w.binder.normalize host.recorded limit raw).Ends s r s') :
    isPlain raw = false ∧ r = .error (.badPath raw fault) ∧ s'.host.calls = s.host.calls := by
  have hplain : isPlain raw = false := by
    rw [← Bool.not_eq_true, isPlain_iff_plainText]
    intro hplain
    have haccepted := Path.read_eq_ok_of_pathText (.items hplain.itemsText)
    rw [hread] at haccepted
    cases haccepted
  cases limit with
  | zero => exact absurd h Action.not_exhausted_ends
  | succ limit =>
    obtain ⟨trees, htree, -⟩ := hs.readTree_ends raw
    rw [hread] at htree
    rw [normalize, takesShortcut, hplain] at h
    obtain ⟨rfl, rfl⟩ := h.unique ((Action.pure_ends_self false s).bind htree.bind_error)
    exact ⟨hplain, rfl, rfl⟩

/-- Whatever else fails is named after the text. -/
theorem normalize_unresolved {w : Wiring σ} {host : Host σ} {limit : Nat} {raw : String} {tree : List Node}
    {s s' : State (Recorded σ)} {e : Error} (hs : s.Sound) (hread : Path.read raw = .ok tree)
    (h : (w.binder.normalize host.recorded limit raw).Ends s (.error e) s') : ∃ cause, e = .unresolvedPath raw cause := by
  cases limit with
  | zero => exact absurd h Action.not_exhausted_ends
  | succ limit =>
    rw [normalize] at h
    rcases Action.bind_ends.1 h with ⟨e', hshortcut, -⟩ | ⟨shortcut, s₁, hshortcut, h⟩
    · unfold takesShortcut at hshortcut
      split at hshortcut
      · cases (Action.ofState_ends.1 hshortcut).1
      · cases (Action.pure_ends.1 hshortcut).1
    · cases shortcut with
      | true => cases (Action.pure_ends.1 h).1
      | false =>
        have hs₁ := keeps_sound_takesShortcut w.binder raw s _ s₁ hs hshortcut
        obtain ⟨trees, htree, -⟩ := hs₁.readTree_ends raw
        rw [hread] at htree
        have hresolve := (Action.bind_run_ok htree).symm.trans h
        obtain ⟨r, -, hr⟩ := Action.mapError_ends.1 hresolve
        cases r with
        | ok found => cases hr
        | error cause =>
          cases hr
          exact ⟨cause, rfl⟩

/-- How a parse accounts for what goes wrong on the way: in asking, in reading the text, in resolving it, in writing. -/
structure Accounted (host : Host σ) (raw : String) (found : Except Error Resolved) (made : List Call)
    (r : Except Error Binding) : Prop where
  /-- A failure to give a value is the last call and has the root cause of the result. -/
  asked : ∀ before c after e, made = before ++ c :: after → c.isAsk → c.failure? = some e →
    Answered before ∧ after = [] ∧ ∃ e', r = .error e' ∧ e'.rootCause = e.rootCause
  /-- A text that is no path is refused before anything is asked. -/
  rejected : ∀ fault, Path.read raw = .error fault →
    isPlain raw = false ∧ made = [] ∧ r = .error (.badPath raw fault)
  /-- A path that does not resolve is named by its text. -/
  unresolved : ∀ tree e, Path.read raw = .ok tree → found = .error e →
    r = .error e ∧ ∃ cause, e = .unresolvedPath raw cause
  /-- A failure to write is the result. -/
  refused : ∀ before writes after e, made = before ++ .set writes (.error e) :: after → after = [] ∧ r = .error e
  /-- Nothing else fails. A resolution fails because of what was found or of what the host failed with. -/
  comes : ∀ e, r = .error e →
    (found = .error e ∧ (Finds e.rootCause ∨
      ∃ asks c e', made = asks ++ [c] ∧ c.isAsk ∧ host.Gives c ∧ c.failure? = some e' ∧
        e'.rootCause = e.rootCause)) ∨
    ∃ asks writes, made = asks ++ [.set writes (.error e)] ∧ host.Gives (.set writes (.error e)) ∧ Answered asks

theorem Answered.not_failed {asks : List Call} (h : Answered asks) {before after : List Call} {c : Call} {e : Error}
    (hfailure : c.failure? = some e) : asks ≠ before ++ c :: after := by
  rintro rfl
  have hnone := (h c (List.mem_append_right _ List.mem_cons_self)).2
  rw [hfailure] at hnone
  cases hnone

/-- After answers only the last call can have failed. -/
theorem Answered.eq_of_failed {asks : List Call} (h : Answered asks) {before after : List Call} {c last : Call}
    {e : Error} (hfailure : c.failure? = some e) (hmade : asks ++ [last] = before ++ c :: after) :
    asks = before ∧ last = c ∧ after = [] := by
  rcases List.eq_nil_or_concat after with rfl | ⟨init, end', rfl⟩
  · obtain ⟨hbefore, hlast⟩ := List.append_inj' hmade rfl
    exact ⟨hbefore, (List.cons.inj hlast).1, rfl⟩
  · rw [List.concat_eq_append, ← List.cons_append, ← List.append_assoc] at hmade
    exact absurd (List.append_inj' hmade rfl).1 (h.not_failed hfailure)

theorem accounted_of_rejected {raw : String} {fault : Fault} (hplain : isPlain raw = false)
    (hread : Path.read raw = .error fault) :
    Accounted host raw (.error (.badPath raw fault)) [] (.error (.badPath raw fault)) where
  asked before c after e hmade := by
    cases before <;> cases hmade
  rejected fault' hread' := by
    obtain rfl := Except.error.inj (hread.symm.trans hread')
    exact ⟨hplain, rfl, rfl⟩
  unresolved tree e hread' := by
    rw [hread] at hread'
    cases hread'
  refused before writes after e hmade := by
    cases before <;> cases hmade
  comes e he := by
    cases he
    exact .inl ⟨rfl, .inl (.badPath hread)⟩

theorem accounted_of_unresolved {raw : String} {tree : List Node} {made : List Call} {cause : Error}
    (hread : Path.read raw = .ok tree) (h : Told host made (.error (.unresolvedPath raw cause) : Except Error Resolved)) :
    Accounted host raw (.error (.unresolvedPath raw cause)) made (.error (.unresolvedPath raw cause)) where
  asked before c after e hmade hask hfailure := by
    cases h with
    | answered hasks _ => exact absurd hmade (hasks.not_failed hfailure)
    | failed hasks _ _ hfailure' hcause =>
      obtain ⟨rfl, rfl, rfl⟩ := hasks.eq_of_failed hfailure hmade
      obtain rfl := Option.some.inj (hfailure'.symm.trans hfailure)
      exact ⟨hasks, rfl, _, rfl, hcause⟩
  rejected fault hread' := by
    rw [hread] at hread'
    cases hread'
  unresolved tree e _ he := by
    cases he
    exact ⟨rfl, cause, rfl⟩
  refused before writes after e hmade := by
    cases h with
    | answered hasks _ => exact absurd hmade (hasks.not_failed rfl)
    | failed hasks hask _ _ _ =>
      obtain ⟨-, rfl, -⟩ := hasks.eq_of_failed (e := e) rfl hmade
      cases hask
  comes e he := by
    cases he
    cases h with
    | answered _ hfinds => exact .inl ⟨rfl, .inl (hfinds _ rfl)⟩
    | failed _ hask hgives hfailure hcause =>
      exact .inl ⟨rfl, .inr ⟨_, _, _, rfl, hask, hgives, hfailure, hcause.symm⟩⟩

/-- What follows a resolution that found something: nothing, or one write. -/
theorem accounted_of_found {raw : String} {tree : List Node} {found : Resolved} {asks : List Call} {b : Binding}
    (hread : Path.read raw = .ok tree) (h : Answered asks) : Accounted host raw (.ok found) asks (.ok b) where
  asked before c after e hmade _ hfailure := absurd hmade (h.not_failed hfailure)
  rejected fault hread' := by
    rw [hread] at hread'
    cases hread'
  unresolved _ _ _ he := nomatch he
  refused before writes after e hmade := absurd hmade (h.not_failed rfl)
  comes _ he := nomatch he

theorem accounted_of_written {raw : String} {tree : List Node} {found : Resolved} {asks : List Call}
    {writes : List (Binding × Value)} {answer : Except Error Unit} {b : Binding} (hread : Path.read raw = .ok tree)
    (h : Answered asks) (hgives : host.Gives (.set writes answer)) :
    Accounted host raw (.ok found) (asks ++ [.set writes answer]) (answer.map fun _ => b) where
  asked before c after e hmade hask hfailure := by
    obtain ⟨-, rfl, -⟩ := h.eq_of_failed hfailure hmade
    cases hask
  rejected fault hread' := by
    rw [hread] at hread'
    cases hread'
  unresolved _ _ _ he := nomatch he
  refused before writes after e hmade := by
    obtain ⟨-, hset, rfl⟩ := h.eq_of_failed (e := e) rfl hmade
    cases hset
    exact ⟨rfl, rfl⟩
  comes e he := by
    cases answer with
    | ok _ => cases he
    | error e' =>
      cases he
      exact .inr ⟨asks, writes, rfl, hgives, h⟩

/-! ## Parses -/

/-- What a binder without taps on nodes finds for a text, and how that accounts for what goes wrong. -/
theorem parseText_accounted {w : Wiring σ} (hw : w.taps = ∅) {host : Host σ} {limit : Nat} {raw : String}
    {s s' : State (Recorded σ)} {r : Except Error Binding} (hs : s.Sound)
    (h : (w.binder.parseText host.recorded limit raw).Ends s r s') :
    ∃ found s₁ made, (w.binder.resolveText host.recorded limit raw).Ends s found s₁ ∧
      s'.host.calls = s.host.calls ++ made ∧ Accounted host raw found made r := by
  have hreset : ({ s with pending := [] } : State (Recorded σ)).Sound := ⟨hs.trees, hs.interner⟩
  rw [parseText_eq] at h
  rcases Action.bind_ends.1 h with ⟨e, hresolve, rfl⟩ | ⟨found, s₁, hresolve, hconclude⟩
  · obtain ⟨r₁, hnormalize, hr₁⟩ := normalize_of_resolveText hresolve
    obtain rfl : r₁ = .error e := by
      cases r₁ with
      | ok _ => cases hr₁
      | error e' =>
        cases hr₁
        rfl
    cases hread : Path.read raw with
    | error fault =>
      obtain ⟨hplain, he, hcalls⟩ := normalize_rejected hreset hread hnormalize
      cases he
      exact ⟨_, s', [], hresolve, by rw [hcalls, List.append_nil], accounted_of_rejected hplain hread⟩
    | ok tree =>
      obtain ⟨cause, rfl⟩ := normalize_unresolved hreset hread hnormalize
      obtain ⟨-, made, hcalls, htold⟩ := truthful_resolveText hw host limit raw s _ s' hs hresolve
      exact ⟨_, s', made, hresolve, hcalls, accounted_of_unresolved hread htold⟩
  · obtain ⟨r₁, hnormalize, hr₁⟩ := normalize_of_resolveText hresolve
    obtain ⟨hs₁, asks, hasks, htold⟩ := truthful_resolveText hw host limit raw s _ s₁ hs hresolve
    have hanswered := htold.answered_of_ok
    cases hread : Path.read raw with
    | error fault =>
      obtain ⟨-, rfl, -⟩ := normalize_rejected hreset hread hnormalize
      cases hr₁
    | ok tree =>
      by_cases hquiet : host.readOnly = true ∨ found.updates = []
      · obtain ⟨b, s₂, hends, hhost, -⟩ := conclude_unwritten host hs₁ hquiet
        obtain ⟨rfl, rfl⟩ := hconclude.unique hends
        exact ⟨_, s₁, asks, hresolve, by rw [hhost, hasks], accounted_of_found hread hanswered⟩
      · rw [not_or, Bool.not_eq_true] at hquiet
        obtain ⟨writes, b, s₂, hends, -, hhost, -⟩ := conclude_written host hs₁ hquiet.1 hquiet.2
        obtain ⟨rfl, rfl⟩ := hconclude.unique hends
        refine ⟨_, s₁, asks ++ [.set writes ((host.set writes).run.run s₁.host.world).1], hresolve, ?_,
          accounted_of_written hread hanswered ⟨_, rfl⟩⟩
        rw [hhost, hasks, List.append_assoc]

/-- A parse of a text or of segments without taps on nodes is one of the text. -/
theorem parseWith_accounted_of_raw {w : Wiring σ} (hw : w.taps = ∅) {limit : Nat} {parts : Host.Overrides σ}
    {source : PathSource} {raw : String} (hsource : source.raw? = some raw) {s s' : State (Recorded σ)}
    {r : Except Error Binding} (hs : s.Sound) (h : (w.binder.parseWith limit parts.recorded source).Ends s r s') :
    ∃ found s₁ made, (w.binder.resolveSource (w.host.override parts).recorded limit source).Ends s found s₁ ∧
      s'.host.calls = s.host.calls ++ made ∧ Accounted (w.host.override parts) raw found made r := by
  cases source with
  | text text =>
    cases hsource
    have hparse : (w.binder.parseText (w.host.override parts).recorded limit raw).Ends s r s' := by
      rw [← Host.override_recorded]
      exact h
    exact parseText_accounted hw hs hparse
  | segments path =>
    cases hsource
    have hparse : (w.binder.parseText (w.host.override parts).recorded limit path.text).Ends s r s' := by
      rw [← Host.override_recorded]
      exact h
    exact parseText_accounted hw hs hparse
  | binding _ => cases hsource

/-- Errors are never swallowed and keep their cause. Whatever text or segments are parsed without taps, with whatever
overrides: a failure of the host to give a value ends the parse with its root cause and is the last call, a text that is
no path is refused with its fault, a path that does not resolve is named in the error, a failure to write is handed on
as it is, and there are no other errors. A binding is handed back without a call. -/
theorem parseWith_accounted (host : Host σ) (limit : Nat) (parts : Host.Overrides σ) (source : PathSource)
    {s s' : State (Recorded σ)} {r : Except Error Binding} (hs : Reachable s)
    (h : ((Wiring.ofHost host).binder.parseWith limit parts.recorded source).Ends s r s') :
    ∃ found s₁ made,
      ((Wiring.ofHost host).binder.resolveSource (host.override parts).recorded limit source).Ends s found s₁ ∧
      s'.host.calls = s.host.calls ++ made ∧
      (∀ raw, source.raw? = some raw → Accounted (host.override parts) raw found made r) ∧
      (source.raw? = none → made = [] ∧ ∃ b, r = .ok b) := by
  cases hsource : source.raw? with
  | some raw =>
    obtain ⟨found, s₁, made, hresolve, hcalls, haccounted⟩ := parseWith_accounted_of_raw rfl hsource hs.sound h
    refine ⟨found, s₁, made, hresolve, hcalls, fun raw' hraw' => ?_, nofun⟩
    cases hraw'
    exact haccounted
  | none =>
    cases source with
    | text _ | segments _ => cases hsource
    | binding b =>
      obtain ⟨rfl, rfl⟩ := parseWith_binding_ends.1 h
      exact ⟨_, _, [], Action.pure_ends_self _ _, (List.append_nil _).symm, nofun, fun _ => ⟨rfl, b, rfl⟩⟩

/-- An expression inside a reference. -/
def nestedExpression : String := "\x7b\x7b`x`\x7d\x7d"

theorem read_nestedExpression : Path.read nestedExpression = .ok [.reference [.expression "x"]] := by
  have hexpression : Path.PartText ['`', 'x', '`'] (.expression "x") :=
    @Path.PartText.expression ['x'] (by decide) (by decide)
  have hinner : Path.PathText ['`', 'x', '`'] [.expression "x"] :=
    .items (.last hexpression.itemText)
  have htext : nestedExpression.toList = ['{', '{', '`', 'x', '`', '}', '}'] := by decide +kernel
  apply Path.read_eq_ok_of_pathText
  rw [htext]
  exact .items (.last (Path.PartText.reference hinner).itemText)

/-- A host that evaluates nothing fails for the expression, and the error says for which reference and which text. -/
theorem nestedExpression_ends :
    let s : State (Recorded Value) := .start .unbounded ⟨.null, []⟩
    ∃ s', (Wiring.ofDocument.binder.parseWith 1 Host.Overrides.unchanged.recorded (.text nestedExpression)).Ends s
      (.error (.unresolvedPath nestedExpression (.unresolvedSegment "x" (.notWired "evaluate")))) s' := by
  intro s
  have hs : s.Sound := State.sound_start _ _
  have hplain : isPlain nestedExpression = false := by decide +kernel
  obtain ⟨trees, htree, -⟩ := hs.readTree_ends nestedExpression
  rw [read_nestedExpression] at htree
  let host := Wiring.ofDocument.binder.host.override Host.Overrides.unchanged.recorded
  let services := services host (Wiring.ofDocument.binder.normalize host 0)
  -- the call fails, and both the reference and the text are left with its failure
  obtain ⟨s', hcall⟩ : ∃ s', (services.evaluate "x").Ends { s with trees } (.error (.notWired "evaluate")) s' :=
    ⟨_, call_ends.2 ⟨rfl, rfl⟩⟩
  have hevaluated : (services.evaluated "x").Ends { s with trees }
      (.error (.unresolvedSegment "x" (.notWired "evaluate"))) s' :=
    Action.mapError_ends.2 ⟨.error (.notWired "evaluate"), hcall.bind_error, rfl⟩
  have hresolve : (services.resolveNodes .empty [.reference [.expression "x"]]).Ends { s with trees }
      (.error (.unresolvedSegment "x" (.notWired "evaluate"))) s' := by
    simp only [Services.resolveNodes, Services.resolveNode]
    exact hevaluated.bind_error.bind_error.bind_error.bind_error
  refine ⟨s', Action.Ends.bind_error (x := Wiring.ofDocument.binder.normalize host 1 nestedExpression) ?_⟩
  rw [normalize, takesShortcut, hplain]
  refine (Action.pure_ends_self false s).bind (htree.bind (Action.mapError_ends.2
    ⟨.error (.unresolvedSegment "x" (.notWired "evaluate")), ?_, rfl⟩))
  change (services.resolve ⟨[]⟩ _).Ends _ _ _
  rw [Services.resolve_of_no_taps]
  exact hresolve

/-- The failure of a host that evaluates nothing comes through a reference. -/
theorem parseWith_accounted_nested :
    let host : Host Value := Wiring.ofDocument.host
    let s : State (Recorded Value) := .start .unbounded ⟨.null, []⟩
    Reachable s ∧ ∃ e s' found made, e.rootCause = .notWired "evaluate" ∧ s'.host.calls = made ∧
      ((Wiring.ofHost host).binder.parseWith 1 Host.Overrides.unchanged.recorded (.text nestedExpression)).Ends s
        (.error e) s' ∧
      Accounted (host.override .unchanged) nestedExpression found made (.error e) := by
  intro host s
  obtain ⟨s', hends⟩ := nestedExpression_ends
  obtain ⟨found, _, made, -, hcalls, haccounted, -⟩ :=
    parseWith_accounted host 1 .unchanged (.text nestedExpression) (.start _ _) hends
  exact ⟨.start _ _, _, s', found, made, rfl, hcalls, hends, haccounted nestedExpression rfl⟩

/-! ## Nodes without a text -/

/-- The error comes from asking a node for a text that it does not have. -/
def IsUnsupported (e : Error) : Prop := ∃ kindName, e.rootCause = .unsupportedNode kindName

theorem not_isUnsupported_of_finds {e : Error} (h : Finds e.rootCause) : ¬ IsUnsupported e := by
  rintro ⟨kindName, hcause⟩
  rw [hcause] at h
  cases h

/-- An error of a parse that accounts for it is the host's, if it comes from a node without a text. -/
theorem Accounted.exists_of_isUnsupported {host : Host σ} {raw : String} {found : Except Error Resolved}
    {made : List Call} {e : Error} (h : Accounted host raw found made (.error e)) (he : IsUnsupported e) :
    ∃ c e', host.Gives c ∧ c.failure? = some e' ∧ IsUnsupported e' := by
  rcases h.comes e rfl with ⟨-, hfinds | ⟨_, c, e', -, -, hgives, hfailure, hcause⟩⟩ | ⟨_, writes, -, hgives, -⟩
  · exact absurd he (not_isUnsupported_of_finds hfinds)
  · refine ⟨c, e', hgives, hfailure, ?_⟩
    rw [IsUnsupported, hcause]
    exact he
  · exact ⟨_, e, hgives, rfl, he⟩

/-- Trees that are read have the shape that resolving asks for: at every depth only literals, references and expressions
stand in queries and among joined parts, joined parts are two or more without neighbouring names, and no text is empty. So
without taps on nodes no parse fails because a node has no text, unless the host fails in this way itself. The trees that
the parse leaves behind, those of the texts of values among them, have the shape, too. -/
theorem parseWith_supported :
    (∀ raw tree, Path.read raw = .ok tree → ∀ node ∈ tree, node.WellFormed) ∧
    ∀ {σ : Type} (w : Wiring σ) (limit : Nat) (parts : Host.Overrides σ) (source : PathSource)
      (s s' : State (Recorded σ)) (r : Except Error Binding),
      w.taps = ∅ → (∀ c e, (w.host.override parts).Gives c → c.failure? = some e → ¬ IsUnsupported e) → Reachable s →
      (w.binder.parseWith limit parts.recorded source).Ends s r s' →
      (∀ e, r = .error e → ¬ IsUnsupported e) ∧
        ∀ raw tree, s'.trees.get? raw = some tree → ∀ node ∈ tree, node.WellFormed := by
  refine ⟨fun _ _ => Path.wellFormed_of_read, ?_⟩
  intro σ w limit parts source s s' r hw hhost hs h
  constructor
  · rintro e rfl he
    cases hsource : source.raw? with
    | some raw =>
      obtain ⟨found, s₁, made, -, -, haccounted⟩ := parseWith_accounted_of_raw hw hsource hs.sound h
      obtain ⟨c, e', hgives, hfailure, he'⟩ := haccounted.exists_of_isUnsupported he
      exact hhost c e' hgives hfailure he'
    | none =>
      cases source with
      | text _ | segments _ => cases hsource
      | binding b => cases (parseWith_binding_ends.1 h).1
  · intro raw tree hkept
    have hs' : Reachable s' := .step (.parse w limit parts source) hs ⟨r, h⟩
    exact Path.wellFormed_of_read (hs'.sound.trees raw tree hkept)

/-- A host that only knows a document never fails in this way, and a failing parse does not either. -/
theorem parseWith_supported_nested :
    let w := Wiring.ofDocument
    let s : State (Recorded Value) := .start .unbounded ⟨.null, []⟩
    (∀ node ∈ [Node.reference [.expression "x"]], node.WellFormed) ∧
    w.taps = ∅ ∧ (∀ c e, (w.host.override .unchanged).Gives c → c.failure? = some e → ¬ IsUnsupported e) ∧
    Reachable s ∧ ∃ e s',
      (w.binder.parseWith 1 Host.Overrides.unchanged.recorded (.text nestedExpression)).Ends s (.error e) s' ∧
      ¬ IsUnsupported e := by
  intro w s
  have hhost : ∀ c e, (w.host.override .unchanged).Gives c → c.failure? = some e → ¬ IsUnsupported e := by
    rintro c e hgives hfailure ⟨kindName, hcause⟩
    cases c with
    | get b answer =>
      obtain ⟨world, rfl⟩ := hgives
      cases hfailure
    | evaluate source answer =>
      obtain ⟨world, rfl⟩ := hgives
      cases hfailure
      cases hcause
    | set writes answer =>
      obtain ⟨world, rfl⟩ := hgives
      cases hfailure
  obtain ⟨s', hends⟩ := nestedExpression_ends
  refine ⟨parseWith_supported.1 _ _ read_nestedExpression, rfl, hhost, .start _ _, _, s', hends, ?_⟩
  exact (parseWith_supported.2 w 1 .unchanged _ s s' _ rfl hhost (.start _ _) hends).1 _ rfl

end Binder

end DataBound
