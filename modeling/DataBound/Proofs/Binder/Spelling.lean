-- SUMMARY: Every data path can be written as a path text and parsed back, with brackets or with dots.
import DataBound.Proofs.Binder.Shortcut

/-!
# Spelling a data path

A data path is written as its first segment with a bracket behind it for each other one, in which an index stands as it
is and a key between quotes. If its keys are names that spell no index it can also be written with dots. The grammar, or
the shortcut, leads from both spellings to the segments themselves without asking for anything, and so both spellings
have one binding as long as nothing is dropped.
-/

namespace DataBound

/-! ## Segments -/

namespace Segment

/-- An index, or a key that is a name and spells no index. -/
def IsDotted : Segment → Prop
  | .index _ => True
  | .key name => Path.IsName name ∧ index? name = none

/-- An index, or a key that stands between quotes as one segment. -/
def IsQuotable : Segment → Prop
  | .index _ => True
  | .key name => name.toList ≠ [] ∧ (∀ c ∈ name.toList, ¬ Path.isQuote c) ∧ '.' ∉ name.toList

instance : DecidablePred IsDotted
  | .index _ => .isTrue trivial
  | .key name => inferInstanceAs (Decidable (Path.IsName name ∧ index? name = none))

instance : DecidablePred IsQuotable
  | .index _ => .isTrue trivial
  | .key name =>
    decidable_of_iff (name.toList ≠ [] ∧ (name.toList.all fun c => !Path.isQuote c) = true ∧ '.' ∉ name.toList) (by
      simp [IsQuotable])

/-- The segment between brackets: an index as it is, a key between quotes. -/
def bracket : Segment → List Char
  | .index position => '[' :: ((index position).text.toList ++ [']'])
  | .key name => '[' :: '\'' :: (name.toList ++ ['\'', ']'])

/-- What is read between the brackets. -/
def node : Segment → Node
  | .index position => .literal (index position).text false
  | .key name => .literal name true

variable {s : Segment} {path : DataPath}

theorem isName_text_index (position : Int64) : Path.IsName (index position).text := by
  refine ⟨Text.intRepr_ne_nil _, fun c hc => ?_⟩
  have hothers : [' ', '"', '\'', '(', ')', '*', '.', '=', '[', ']', '`', '{', '}'].all
      fun d => !d.isDigit && d != '-' := by decide
  rw [Path.isNameChar, Bool.not_eq_true', List.contains_eq_mem, decide_eq_false_iff_not]
  intro hmem
  have hother := List.all_eq_true.1 hothers c hmem
  rcases Text.of_mem_intRepr hc with hdigit | rfl
  · rw [hdigit] at hother
    cases hother
  · cases hother

theorem IsDotted.isName (h : s.IsDotted) : Path.IsName s.text := by
  cases s with
  | index position => exact isName_text_index position
  | key name => exact h.1

theorem IsDotted.rereads (h : s.IsDotted) : s.Rereads := by
  cases s with
  | index position => exact rereads_index position
  | key name => exact rereads_key h.2 h.1.1 (QueryText.not_mem_name h.1.2)

theorem IsQuotable.bracketText (h : s.IsQuotable) : Path.BracketText s.bracket s.node := by
  cases s with
  | index position =>
    have hbracket := Path.BracketText.operand 0 0 (.part (isName_text_index position).partText)
    simpa [Path.spaces, bracket, node] using hbracket
  | key name =>
    have hquote : Path.isQuote '\'' := by decide
    have hquoted := Path.OperandText.quoted hquote h.1 h.2.1
    rw [String.ofList_toList] at hquoted
    have hbracket := Path.BracketText.operand 0 0 hquoted
    simpa [Path.spaces, bracket, node] using hbracket

theorem bracketsText (h : ∀ s ∈ path, s.IsQuotable) : Path.BracketsText (path.flatMap bracket) (path.map node) := by
  induction path with
  | nil => exact .nil
  | cons s path ih =>
    rw [List.flatMap_cons, List.map_cons]
    exact .cons (h s List.mem_cons_self).bracketText (ih fun t ht => h t (List.mem_cons_of_mem _ ht))

variable {σ : Type} (services : Services σ)

/-- A bracket leads to its segment; without quotes its text is read back, with quotes it is a key. -/
theorem IsQuotable.resolveNode (h : s.IsQuotable) (r : Resolved) : services.resolveNode r s.node = pure (r.push s) := by
  cases s with
  | index position =>
    have hsegments : Resolved.segmentsOf (index position).text true = [.index position] := by
      rw [QueryText.segmentsOf_of_not_mem (rereads_index position).not_mem, if_pos rfl, ofText_text_index]
    rw [node, Services.resolveNode, Resolved.append, Bool.not_false, hsegments, Resolved.push]
  | key name =>
    have hsegments : Resolved.segmentsOf name false = [.key name] := QueryText.segmentsOf_of_not_mem h.2.2 false
    rw [node, Services.resolveNode, Resolved.append, Bool.not_true, hsegments, Resolved.push]

theorem resolveNodes_brackets (h : ∀ s ∈ path, s.IsQuotable) (r : Resolved) :
    services.resolveNodes r (path.map node) = pure { r with path := r.path ++ path } := by
  induction path generalizing r with
  | nil => rw [List.map_nil, Services.resolveNodes, List.append_nil]
  | cons s path ih =>
    rw [List.map_cons, Services.resolveNodes, (h s List.mem_cons_self).resolveNode, pure_bind,
      ih fun t ht => h t (List.mem_cons_of_mem _ ht), Resolved.push, List.append_assoc, List.singleton_append]

end Segment

namespace DataPath

/-- The path with its first segment as it is and every other one between brackets. -/
def bracketed : DataPath → String
  | [] => ""
  | first :: rest => String.ofList (first.text.toList ++ rest.flatMap Segment.bracket)

end DataPath

namespace Binder

open DataPath

variable {first : Segment} {rest : DataPath}

/-! ## Both spellings ask for nothing -/

theorem itemText_bracketed (hfirst : first.IsDotted) (hrest : ∀ s ∈ rest, s.IsQuotable) :
    Path.ItemText (bracketed (first :: rest)).toList (.literal first.text false :: rest.map Segment.node) := by
  rw [bracketed, String.toList_ofList]
  exact QueryText.itemText_name hfirst.isName (Segment.bracketsText hrest)

theorem asksNothing_bracketed (hfirst : first.IsDotted) (hrest : ∀ s ∈ rest, s.IsQuotable) :
    AsksNothing (bracketed (first :: rest)) (first :: rest) where
  split hplain := by
    cases rest with
    | nil =>
      have hself : bracketed [first] = text [first] := by
        rw [text_singleton, bracketed, List.flatMap_nil, List.append_nil, String.ofList_toList]
      rw [hself]
      exact ofText_text fun s hs => List.mem_singleton.1 hs ▸ hfirst.rereads
    | cons s rest =>
      have hbracket : '[' ∈ (bracketed (first :: s :: rest)).toList := by
        rw [bracketed, String.toList_ofList, List.flatMap_cons]
        apply List.mem_append_right
        apply List.mem_append_left
        cases s <;> exact List.mem_cons_self
      rw [not_isPlain_of_mem hbracket] at hplain
      cases hplain
  resolves := by
    refine ⟨_, Path.read_eq_ok_of_pathText (.items (.last (itemText_bracketed hfirst hrest))), fun services => ?_⟩
    have hname := QueryText.resolveNodes_names services (List.forall_mem_singleton.2 hfirst.isName.2) .empty
      (rest.map Segment.node)
    rw [List.map_singleton, List.map_singleton, hfirst.rereads.ofText_text, List.singleton_append] at hname
    rw [hname, Segment.resolveNodes_brackets services hrest]
    rfl

theorem asksNothing_dotted {path : DataPath} (hne : path ≠ []) (h : ∀ s ∈ path, s.IsDotted) :
    AsksNothing path.text path := by
  have hnames : path.map Segment.text ≠ [] := fun hnil => hne (List.map_eq_nil_iff.1 hnil)
  have hasks := asksNothing_names hnames (List.forall_mem_map.2 fun s hs => (h s hs).isName)
  have hread : (path.map Segment.text).map Segment.ofText = path := by
    rw [List.map_map]
    exact (List.map_congr_left fun s hs => (h s hs).rereads.ofText_text).trans (List.map_id path)
  rwa [hread, List.map_map] at hasks

/-! ## Bindings that stay -/

variable {σ α : Type} {b : Binding}

/-- The binder drops nothing, and keeps the binding for its path. -/
def State.Holds (b : Binding) (s : State σ) : Prop := s.interner.Holds b

theorem keeps_holds_intern (path : DataPath) : Action.Keeps (State.Holds b) (intern path : Action (State σ) Binding) :=
  Action.keeps_ofState fun _ hs => Interner.Holds.intern hs path

theorem keeps_holds_call (callback : Callback σ α) : Action.Keeps (State.Holds b) (call callback) := by
  intro s r s' hs h
  rw [call_ends] at h
  obtain ⟨-, rfl⟩ := h
  exact hs

theorem keeps_holds_takesShortcut (binder : Binder σ) (raw : String) :
    Action.Keeps (State.Holds b) (binder.takesShortcut raw) := by
  unfold takesShortcut
  split
  · exact Action.keeps_ofState fun _ hs => hs
  · exact Action.keeps_sequential.pure false

theorem holds_worldly : Inquiry.Worldly (σ := σ) (Action.Keeps (State.Holds b)) where
  look := by
    intro s r s' hs h
    exact (Action.get_ends.1 h).2 ▸ hs
  change f := Action.keeps_modify fun _ hs => hs

theorem keeps_holds_steps (w : Wiring σ) (host : Host (Recorded σ)) :
    Steps (Action.Keeps (State.Holds b)) w.binder host where
  shortcut raw := keeps_holds_takesShortcut w.binder raw
  tree raw := keeps_readTree (fun _ _ hs => hs) raw
  get path := Action.keeps_sequential.bind (keeps_holds_intern path) fun b => keeps_holds_call (host.get b)
  evaluate source := keeps_holds_call (host.evaluate source)
  collect _ := Action.keeps_modify fun _ hs => hs
  taps hs := Wiring.tapAll Action.keeps_sequential (.inr holds_worldly) hs
  reset := Action.keeps_modify fun _ hs => hs
  look := holds_worldly.look
  intern path := keeps_holds_intern path
  set writes := keeps_holds_call (host.set writes)

/-- Only clearing the caches takes a binding away. -/
theorem Request.Leads.holds {request : Request σ} {s s' : State (Recorded σ)} (h : request.Leads s s')
    (hclear : request ≠ .clearCaches) (hs : s.Holds b) : s'.Holds b := by
  have hP := Action.keeps_sequential (σ := State (Recorded σ)) (I := State.Holds b)
  cases request with
  | parse w limit parts source =>
    obtain ⟨r, hends⟩ := h
    cases source with
    | text raw => exact (keeps_holds_steps w _).parseText_all hP limit raw s r s' hs hends
    | segments path => exact (keeps_holds_steps w _).parseText_all hP limit path.text s r s' hs hends
    | binding other => exact (Action.pure_ends.1 hends).2 ▸ hs
  | tree raw =>
    obtain ⟨r, hends⟩ := h
    exact keeps_readTree (fun _ _ hs => hs) raw s r s' hs hends
  | parent other => exact h ▸ Interner.Holds.derive hs other _
  | descend other below => exact h ▸ Interner.Holds.derive hs other _
  | clearCaches => exact absurd rfl hclear
  | world change => exact h ▸ hs

/-- Requests lead from one state to the other, and none of them clears the caches. -/
inductive Onward (s : State (Recorded σ)) : State (Recorded σ) → Prop
  | refl : Onward s s
  | step {t t' : State (Recorded σ)} (request : Request σ) :
      Onward s t → request ≠ .clearCaches → request.Leads t t' → Onward s t'

theorem Onward.holds {s t : State (Recorded σ)} (h : Onward s t) (hs : s.Holds b) : t.Holds b := by
  induction h with
  | refl => exact hs
  | step request _ hclear hleads ih => exact hleads.holds hclear ih

theorem Onward.sound {s t : State (Recorded σ)} (h : Onward s t) (hs : s.Sound) : t.Sound := by
  induction h with
  | refl => exact hs
  | step request _ _ hleads ih => exact hleads.sound ih

/-! ## Parsing -/

/-- Texts that ask for nothing and lead to one path have one binding, as long as nothing is dropped. -/
theorem AsksNothing.parse_same {one other : String} {path : DataPath} (hone : AsksNothing one path)
    (hother : AsksNothing other path) (host : Host σ) (skips : Hook (String → StateM σ (Option Bool))) (limit : Nat)
    (parts : Host.Overrides σ) {s s' t : State (Recorded σ)} (hs : s.Sound)
    (hunbounded : s.interner.cache.strategy = .unbounded)
    (hends : ((withSkips host skips).binder.parseWith (limit + 1) parts.recorded (.text one)).Ends s (.ok b) s')
    (honward : Onward s' t) :
    ∃ t', ((withSkips host skips).binder.parseWith (limit + 1) parts.recorded (.text other)).Ends t (.ok b) t' := by
  obtain ⟨trees, world, hfirst⟩ := hone.parse_ends host skips limit parts hs
  obtain ⟨hb, rfl⟩ := hends.unique hfirst
  cases hb
  have hsound : t.Sound := honward.sound (keeps_sound_parseText (withSkips host skips) _ _ _ _ _ _ hs hfirst)
  have hholds := honward.holds (hs.interner.holds_intern hunbounded path)
  obtain ⟨trees', world', hsecond⟩ := hother.parse_ends host skips limit parts hsound
  have hkept : t.interner.intern path = ((s.interner.intern path).1, t.interner) := by
    have hintern := Interner.Holds.intern_eq hholds
    rwa [hs.interner.intern_path] at hintern
  rw [hkept] at hsecond
  exact ⟨_, hsecond⟩

/-- Every path can be written and read back. Without taps on nodes, from every state, the spelling of a path with
brackets is parsed to a binding of exactly that path, and nothing is asked of the host; so is its dotted text, if no key
needs quotes. If nothing is dropped, both spellings have one binding from the first parse of either on. -/
theorem parse_spellings (host : Host σ) (skips : Hook (String → StateM σ (Option Bool))) (limit : Nat)
    (parts : Host.Overrides σ) (hfirst : first.IsDotted) (hrest : ∀ s ∈ rest, s.IsQuotable)
    {s : State (Recorded σ)} (hs : Reachable s) :
    let path : DataPath := first :: rest
    let parse : String → Action (State (Recorded σ)) Binding :=
      fun raw => (withSkips host skips).binder.parseWith (limit + 1) parts.recorded (.text raw)
    (∃ b s', (parse path.bracketed).Ends s (.ok b) s' ∧ b.path = path ∧ s'.host.calls = s.host.calls) ∧
    ((∀ s ∈ rest, s.IsDotted) →
      (∃ b s', (parse path.text).Ends s (.ok b) s' ∧ b.path = path ∧ s'.host.calls = s.host.calls) ∧
      (s.interner.cache.strategy = .unbounded →
        ∀ one ∈ [path.bracketed, path.text], ∀ b s', (parse one).Ends s (.ok b) s' → ∀ t, Onward s' t →
          ∀ other ∈ [path.bracketed, path.text], ∃ t', (parse other).Ends t (.ok b) t')) := by
  intro path parse
  have hbracketed : AsksNothing path.bracketed path := asksNothing_bracketed hfirst hrest
  refine ⟨hbracketed.parse_path host skips limit parts hs.sound, fun hdots => ?_⟩
  have hdotted : AsksNothing path.text path :=
    asksNothing_dotted (List.cons_ne_nil _ _) (List.forall_mem_cons.2 ⟨hfirst, hdots⟩)
  refine ⟨hdotted.parse_path host skips limit parts hs.sound, ?_⟩
  have hspelled : ∀ raw ∈ [path.bracketed, path.text], AsksNothing raw path :=
    List.forall_mem_cons.2 ⟨hbracketed, List.forall_mem_singleton.2 hdotted⟩
  intro hunbounded one hone b s' hends t honward other hother
  exact (hspelled one hone).parse_same (hspelled other hother) host skips limit parts hs.sound hunbounded hends honward

/-- A position, a key of digits and a key with characters of the grammar; and a path whose keys are names. -/
theorem parse_spellings_item :
    let s : State (Recorded Value) := .start .unbounded ⟨.null, []⟩
    let parse : String → Action (State (Recorded Value)) Binding :=
      fun raw => (withSkips Wiring.ofDocument.host ∅).binder.parseWith 1 Host.Overrides.unchanged.recorded (.text raw)
    (∃ b s', (parse "0['7']['a] b\x7b']").Ends s (.ok b) s' ∧ b.path = [.index 0, .key "7", .key "a] b\x7b"] ∧
      s'.host.calls = []) ∧
    ∃ b s' t', (parse "foo[-2]['bär']").Ends s (.ok b) s' ∧ b.path = [.key "foo", .index (-2), .key "bär"] ∧
      (parse "foo.-2.bär").Ends s' (.ok b) t' := by
  intro s parse
  have hs : Reachable s := .start _ _
  constructor
  · have hquotable : ∀ s ∈ [Segment.key "7", .key "a] b\x7b"], s.IsQuotable := by decide +kernel
    have hraw : bracketed [.index 0, .key "7", .key "a] b\x7b"] = "0['7']['a] b\x7b']" := by decide +kernel
    have hfirst : (Segment.index 0).IsDotted := trivial
    obtain ⟨hone, -⟩ := parse_spellings Wiring.ofDocument.host ∅ 0 .unchanged hfirst hquotable hs
    rwa [hraw] at hone
  · have hfirst : (Segment.key "foo").IsDotted := by decide +kernel
    have hquotable : ∀ s ∈ [Segment.index (-2), .key "bär"], s.IsQuotable := by decide +kernel
    have hdots : ∀ s ∈ [Segment.index (-2), .key "bär"], s.IsDotted := by decide +kernel
    have hraw : bracketed [.key "foo", .index (-2), .key "bär"] = "foo[-2]['bär']" := by decide +kernel
    have htext : text [.key "foo", .index (-2), .key "bär"] = "foo.-2.bär" := by decide +kernel
    obtain ⟨⟨b, s', hends, hpath, -⟩, hmore⟩ := parse_spellings Wiring.ofDocument.host ∅ 0 .unchanged hfirst hquotable hs
    obtain ⟨-, hsame⟩ := hmore hdots
    rw [hraw] at hends hsame
    rw [htext] at hsame
    obtain ⟨t', hends'⟩ := hsame rfl _ List.mem_cons_self b s' hends s' .refl _ (List.mem_cons_of_mem _ List.mem_cons_self)
    exact ⟨b, s', t', hends, hpath, hends'⟩

end Binder

end DataBound
