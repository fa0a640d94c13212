-- SUMMARY: A plain dotted text has one binding, whether it is split at its dots or read by the grammar.
import DataBound.Proofs.Binder.Identity
import DataBound.Proofs.DataPath

/-!
# The shortcut of plain texts

A text of plain words with single dots between them is split at its dots, unless a tap asks for the grammar. Both ways
lead to the same segments: to the grammar every word is a name, and a name without quotes is an index if it spells one.
Nothing is asked of the host and nothing is recorded in either way, so the two ways leave different trees behind and
agree in everything else, down to the identity of the binding. What is used of plain texts for this is said by
`AsksNothing`, and holds of other spellings of a path as well.
-/

namespace DataBound

namespace Binder

/-- The tree of the text leads to the path without asking for anything, and so do its pieces if it is plain. -/
structure AsksNothing (raw : String) (path : DataPath) : Prop where
  split : isPlain raw = true → DataPath.ofText raw = path
  resolves : ∃ tree, Path.read raw = .ok tree ∧ ∀ {σ : Type} (services : Services σ),
    services.resolveNodes .empty tree = pure ⟨path, []⟩

/-- Names with dots between them lead to their segments. -/
theorem asksNothing_names {names : List String} (hne : names ≠ []) (hnames : ∀ name ∈ names, Path.IsName name) :
    AsksNothing (String.ofList (List.intercalate ['.'] (names.map String.toList))) (names.map Segment.ofText) where
  split _ := by
    have hempty : names ≠ [""] := fun hsingle => (hnames "" (hsingle ▸ List.mem_cons_self)).1 rfl
    exact DataPath.ofText_join hne hempty fun name hname => QueryText.not_mem_name (hnames name hname).2
  resolves := by
    have hitems := QueryText.itemsText_dotted hne hnames .nil
    rw [List.append_nil, ← String.toList_ofList (l := List.intercalate ['.'] (names.map String.toList))] at hitems
    refine ⟨_, Path.read_eq_ok_of_pathText (.items hitems), fun services => ?_⟩
    exact QueryText.resolveNodes_names services (fun name hname => (hnames name hname).2) .empty []

/-! ## Plain texts -/

/-- Words of plain characters with single dots between them. -/
inductive PlainText : List Char → Prop where
  | word {cs} : cs ≠ [] → (∀ c ∈ cs, isPlainChar c) → PlainText cs
  | dot {cs rest} : cs ≠ [] → (∀ c ∈ cs, isPlainChar c) → PlainText rest → PlainText (cs ++ '.' :: rest)

theorem not_mem_of_plain {cs : List Char} (h : ∀ c ∈ cs, isPlainChar c) : '.' ∉ cs :=
  fun hmem => absurd (h '.' hmem) (by decide)

theorem plainText_join {words : List (List Char)} (hne : words ≠ [])
    (h : ∀ word ∈ words, word ≠ [] ∧ ∀ c ∈ word, isPlainChar c) : PlainText (List.intercalate ['.'] words) := by
  induction words with
  | nil => exact absurd rfl hne
  | cons word more ih =>
    obtain ⟨hword, hchars⟩ := h word List.mem_cons_self
    cases more with
    | nil =>
      rw [List.intercalate_singleton]
      exact .word hword hchars
    | cons next more =>
      rw [Text.intercalate_cons '.' word (List.cons_ne_nil _ _)]
      exact .dot hword hchars (ih (List.cons_ne_nil _ _) fun other hmem => h other (List.mem_cons_of_mem _ hmem))

/-- The taps are asked about the plain texts and no others. -/
theorem isPlain_iff_plainText (raw : String) : isPlain raw = true ↔ PlainText raw.toList := by
  have hwords : isPlain raw = true ↔
      ∀ word ∈ List.splitOn '.' raw.toList, word ≠ [] ∧ ∀ c ∈ word, isPlainChar c := by
    simp [isPlain, List.all_eq_true]
  rw [hwords]
  constructor
  · intro h
    have hjoined := plainText_join (List.splitOn_ne_nil _ _) h
    rwa [List.intercalate_splitOn] at hjoined
  · generalize raw.toList = cs
    intro h
    induction h with
    | word hne hchars =>
      rw [List.splitOn_eq_singleton (not_mem_of_plain hchars)]
      exact List.forall_mem_singleton.2 ⟨hne, hchars⟩
    | dot hne hchars _ ih =>
      rw [List.splitOn_append_cons_self_of_not_mem (not_mem_of_plain hchars)]
      exact List.forall_mem_cons.2 ⟨⟨hne, hchars⟩, ih⟩

/-! ## Reading -/

/-- The nodes of a plain text: a name for each word. -/
def names (cs : List Char) : List Node :=
  ((List.splitOn '.' cs).map String.ofList).map fun name => .literal name false

theorem isNameChar_of_plain {c : Char} (h : isPlainChar c) : Path.isNameChar c := by
  have hothers : [' ', '"', '\'', '(', ')', '*', '.', '=', '[', ']', '`', '{', '}'].all fun d => !isPlainChar d := by
    decide
  rw [Path.isNameChar, Bool.not_eq_true', List.contains_eq_mem, decide_eq_false_iff_not]
  intro hmem
  have hother := List.all_eq_true.1 hothers c hmem
  rw [h] at hother
  cases hother

theorem isName_of_plain {cs : List Char} (hne : cs ≠ []) (h : ∀ c ∈ cs, isPlainChar c) :
    Path.IsName (String.ofList cs) := by
  rw [Path.IsName, String.toList_ofList]
  exact ⟨hne, fun c hc => isNameChar_of_plain (h c hc)⟩

theorem itemText_of_plain {cs : List Char} (hne : cs ≠ []) (h : ∀ c ∈ cs, isPlainChar c) :
    Path.ItemText cs [.literal (String.ofList cs) false] := by
  have hitem := QueryText.itemText_name (isName_of_plain hne h) .nil
  rwa [String.toList_ofList, List.append_nil] at hitem

theorem PlainText.itemsText {cs : List Char} (h : PlainText cs) : Path.ItemsText cs (names cs) := by
  induction h with
  | word hne hchars =>
    rw [names, List.splitOn_eq_singleton (not_mem_of_plain hchars)]
    exact .last (itemText_of_plain hne hchars)
  | dot hne hchars _ ih =>
    rw [names, List.splitOn_append_cons_self_of_not_mem (not_mem_of_plain hchars)]
    exact .cons (itemText_of_plain hne hchars) ih

theorem PlainText.ne_nil {cs : List Char} (h : PlainText cs) : cs ≠ [] := by
  cases h with
  | word hne _ => exact hne
  | dot _ _ _ => exact List.append_ne_nil_of_right_ne_nil _ (List.cons_ne_nil _ _)

theorem PlainText.ofText_eq {raw : String} (h : PlainText raw.toList) :
    DataPath.ofText raw = ((List.splitOn '.' raw.toList).map String.ofList).map Segment.ofText := by
  have hne : raw.isEmpty = false := by
    rw [Bool.eq_false_iff, ne_eq, String.isEmpty_iff]
    rintro rfl
    exact h.ne_nil rfl
  rw [DataPath.ofText, hne, List.map_map]
  rfl

/-- The grammar and the splitting at dots give the same segments. -/
theorem PlainText.resolveNodes {σ : Type} {raw : String} (h : PlainText raw.toList) (services : Services σ) :
    services.resolveNodes .empty (names raw.toList) = pure ⟨DataPath.ofText raw, []⟩ := by
  have hchars : ∀ name ∈ (List.splitOn '.' raw.toList).map String.ofList, ∀ c ∈ name.toList, Path.isNameChar c := by
    intro name hname c hc
    obtain ⟨piece, hpiece, rfl⟩ := List.mem_map.1 hname
    rw [String.toList_ofList] at hc
    have hplain := (isPlain_iff_plainText raw).2 h
    rw [isPlain, List.all_eq_true] at hplain
    have hword := hplain piece hpiece
    rw [Bool.and_eq_true, List.all_eq_true] at hword
    exact isNameChar_of_plain (hword.2 c hc)
  have hresolve := QueryText.resolveNodes_names services hchars .empty []
  rw [List.append_nil, Services.resolveNodes] at hresolve
  rw [names, hresolve, h.ofText_eq]
  rfl

theorem PlainText.asksNothing {raw : String} (h : PlainText raw.toList) : AsksNothing raw (.ofText raw) where
  split _ := rfl
  resolves := ⟨names raw.toList, Path.read_eq_ok_of_pathText (.items h.itemsText), fun services => h.resolveNodes services⟩

/-! ## Normalizing -/

variable {σ : Type} {raw : String} {path : DataPath}

/-- The world after the taps were asked about a plain text. -/
def asked (binder : Binder σ) (raw : String) (world : σ) : σ :=
  ((binder.skipShortcut.bail fun tap => tap.ask raw).run world).2

/-- The world after a text was looked at: the taps are asked about it if it is plain. -/
def lookedAt (binder : Binder σ) (raw : String) (world : σ) : σ :=
  if isPlain raw then binder.asked raw world else world

theorem lookedAt_of_plain (binder : Binder σ) (hraw : PlainText raw.toList) (world : σ) :
    binder.lookedAt raw world = binder.asked raw world := if_pos ((isPlain_iff_plainText raw).2 hraw)

theorem lookedAt_ofHost (host : Host σ) (raw : String) (world : Recorded σ) :
    (Wiring.ofHost host).binder.lookedAt raw world = world := by
  unfold lookedAt
  split <;> rfl

theorem takesShortcut_ends (binder : Binder σ) (raw : String) (s : State σ) :
    ∃ shortcut, (binder.takesShortcut raw).Ends s (.ok shortcut) { s with host := binder.lookedAt raw s.host } ∧
      (shortcut = true → isPlain raw = true) := by
  unfold takesShortcut lookedAt
  split
  · rename_i hplain
    exact ⟨_, Action.ofState_ends.2 ⟨rfl, rfl⟩, fun _ => hplain⟩
  · exact ⟨false, Action.pure_ends_self _ _, nofun⟩

/-- Without taps on nodes a text that asks for nothing leads to its path, whatever the other taps answer. -/
theorem AsksNothing.normalize_ends (ha : AsksNothing raw path) {binder : Binder σ} (hnode : binder.beforeNode = ∅)
    (host : Host σ) (limit : Nat) {s : State σ} (hs : s.Sound) :
    ∃ trees, (binder.normalize host (limit + 1) raw).Ends s (.ok ⟨path, []⟩)
        { s with trees, host := binder.lookedAt raw s.host } ∧
      ({ s with trees, host := binder.lookedAt raw s.host } : State σ).Sound := by
  obtain ⟨shortcut, hshortcut, hplain⟩ := takesShortcut_ends binder raw s
  cases shortcut with
  | true =>
    rw [← ha.split (hplain rfl)]
    exact ⟨s.trees, hshortcut.bind (Action.pure_ends_self _ _), hs.trees, hs.interner⟩
  | false =>
    have hsound : ({ s with host := binder.lookedAt raw s.host } : State σ).Sound := ⟨hs.trees, hs.interner⟩
    obtain ⟨tree, hread, hresolves⟩ := ha.resolves
    obtain ⟨trees, htree, hkept⟩ := hsound.readTree_ends raw
    rw [hread] at htree
    refine ⟨trees, hshortcut.bind (htree.bind ?_), hkept⟩
    refine Action.mapError_ends.2 ⟨.ok ⟨path, []⟩, ?_, rfl⟩
    rw [hnode]
    change ((services host _).resolve ⟨[]⟩ tree).Ends _ _ _
    rw [Services.resolve_of_no_taps, hresolves]
    exact Action.pure_ends_self _ _

theorem AsksNothing.resolveText_ends (ha : AsksNothing raw path) {binder : Binder σ} (hnode : binder.beforeNode = ∅)
    (host : Host σ) (limit : Nat) {s : State σ} (hs : s.Sound) :
    ∃ trees, (binder.resolveText host (limit + 1) raw).Ends s (.ok ⟨path, []⟩)
      { s with trees, pending := [], host := binder.lookedAt raw s.host } := by
  have hreset : ({ s with pending := [] } : State σ).Sound := ⟨hs.trees, hs.interner⟩
  obtain ⟨trees, hnormalize, -⟩ := ha.normalize_ends hnode host limit hreset
  exact ⟨trees, resolveText_ends_of_normalize hnormalize⟩

theorem AsksNothing.parseText_ends (ha : AsksNothing raw path) {binder : Binder σ} (hnode : binder.beforeNode = ∅)
    (host : Host σ) (limit : Nat) {s : State σ} (hs : s.Sound) :
    ∃ trees, (binder.parseText host (limit + 1) raw).Ends s (.ok (s.interner.intern path).1)
      ⟨trees, (s.interner.intern path).2, [], binder.lookedAt raw s.host⟩ := by
  obtain ⟨trees, hresolve⟩ := ha.resolveText_ends hnode host limit hs
  refine ⟨trees, ?_⟩
  rw [parseText_eq]
  refine hresolve.bind ?_
  have hskip : (!host.readOnly && !([] : Updates).isEmpty) = false := by simp
  rw [writeDefaults_eq, hskip]
  exact (Action.pure_ends_self () _).bind (intern_ends.2 ⟨rfl, rfl⟩)

theorem resolveText_plain_ends {binder : Binder σ} (hnode : binder.beforeNode = ∅) (host : Host σ) (limit : Nat)
    (hraw : PlainText raw.toList) {s : State σ} (hs : s.Sound) :
    ∃ trees, (binder.resolveText host (limit + 1) raw).Ends s (.ok ⟨.ofText raw, []⟩)
      { s with trees, pending := [], host := binder.asked raw s.host } := by
  rw [← lookedAt_of_plain binder hraw]
  exact hraw.asksNothing.resolveText_ends hnode host limit hs

/-- Without taps on nodes a plain text has the binding of its own segments. -/
theorem parseText_plain_ends {binder : Binder σ} (hnode : binder.beforeNode = ∅) (host : Host σ) (limit : Nat)
    (hraw : PlainText raw.toList) {s : State σ} (hs : s.Sound) :
    ∃ trees, (binder.parseText host (limit + 1) raw).Ends s (.ok (s.interner.intern (.ofText raw)).1)
      ⟨trees, (s.interner.intern (.ofText raw)).2, [], binder.asked raw s.host⟩ := by
  rw [← lookedAt_of_plain binder hraw]
  exact hraw.asksNothing.parseText_ends hnode host limit hs

/-! ## Parsing -/

/-- The wiring of a host with taps that can turn plain texts away from the shortcut, and no others. -/
def withSkips (host : Host σ) (skips : Hook (String → StateM σ (Option Bool))) : Wiring σ := ⟨host, skips, ∅⟩

theorem AsksNothing.parse_ends (ha : AsksNothing raw path) (host : Host σ)
    (skips : Hook (String → StateM σ (Option Bool))) (limit : Nat) (parts : Host.Overrides σ)
    {s : State (Recorded σ)} (hs : s.Sound) :
    ∃ trees world,
      ((withSkips host skips).binder.parseWith (limit + 1) parts.recorded (.text raw)).Ends s
        (.ok (s.interner.intern path).1)
        ⟨trees, (s.interner.intern path).2, [], ⟨world, s.host.calls⟩⟩ := by
  let w := withSkips host skips
  have hcalls : (w.binder.lookedAt raw s.host).calls = s.host.calls := by
    unfold lookedAt
    split
    · exact w.skips_calls raw s.host
    · rfl
  obtain ⟨trees, hends⟩ := ha.parseText_ends (rfl : w.binder.beforeNode = ∅) (w.binder.host.override parts.recorded)
    limit hs
  refine ⟨trees, (w.binder.lookedAt raw s.host).world, ?_⟩
  rw [← hcalls]
  exact hends

theorem AsksNothing.parse_path {raw : String} {path : DataPath} (ha : AsksNothing raw path) (host : Host σ)
    (skips : Hook (String → StateM σ (Option Bool))) (limit : Nat) (parts : Host.Overrides σ)
    {s : State (Recorded σ)} (hs : s.Sound) :
    ∃ b s', ((withSkips host skips).binder.parseWith (limit + 1) parts.recorded (.text raw)).Ends s (.ok b) s' ∧
      b.path = path ∧ s'.host.calls = s.host.calls := by
  obtain ⟨trees, world, hends⟩ := ha.parse_ends host skips limit parts hs
  exact ⟨_, _, hends, hs.interner.intern_path path, rfl⟩

theorem parse_plain_ends (host : Host σ) (skips : Hook (String → StateM σ (Option Bool))) (limit : Nat)
    (parts : Host.Overrides σ) (hraw : PlainText raw.toList) {s : State (Recorded σ)} (hs : s.Sound) :
    ∃ trees world,
      ((withSkips host skips).binder.parseWith (limit + 1) parts.recorded (.text raw)).Ends s
        (.ok (s.interner.intern (.ofText raw)).1)
        ⟨trees, (s.interner.intern (.ofText raw)).2, [], ⟨world, s.host.calls⟩⟩ :=
  hraw.asksNothing.parse_ends host skips limit parts hs

/-- The shortcut agrees with the grammar. From every state, a plain text is parsed to one binding of its own segments,
whatever the taps answer that can turn it away from the shortcut: nothing is asked of the host, no write is recorded or
made, and the bindings that are kept afterwards are the same. In a run with unbounded caches this is the very binding
that was given out for this path before, whichever way it was parsed then. -/
theorem parse_plain_either_way (host : Host σ) (limit : Nat) (parts : Host.Overrides σ) (hraw : PlainText raw.toList) :
    (∀ s, Reachable s → ∃ b interner, b.path = .ofText raw ∧ ∀ skips,
      (∃ s', ((withSkips host skips).binder.resolveText (host.override parts).recorded (limit + 1) raw).Ends s
        (.ok ⟨.ofText raw, []⟩) s') ∧
      ∃ trees world,
        ((withSkips host skips).binder.parseWith (limit + 1) parts.recorded (.text raw)).Ends s (.ok b)
          ⟨trees, interner, [], ⟨world, s.host.calls⟩⟩) ∧
    ∀ s answers, Served s answers → ∀ given ∈ answers ++ s.handed, given.path = .ofText raw → ∀ skips,
      ∃ b s', ((withSkips host skips).binder.parseWith (limit + 1) parts.recorded (.text raw)).Ends s (.ok b) s' ∧
        b.same given = true := by
  constructor
  · intro s hs
    refine ⟨_, (s.interner.intern (.ofText raw)).2, hs.sound.interner.intern_path (.ofText raw), ?_⟩
    intro skips
    obtain ⟨trees, hresolve⟩ := resolveText_plain_ends (rfl : (withSkips host skips).binder.beforeNode = ∅)
      (host.override parts).recorded limit hraw hs.sound
    exact ⟨⟨_, hresolve⟩, parse_plain_ends host skips limit parts hraw hs.sound⟩
  · intro s answers hserved given hgiven hpath skips
    have hsound := hserved.reachable.sound
    obtain ⟨trees, world, hends⟩ := parse_plain_ends host skips limit parts hraw hsound
    refine ⟨_, _, hends, ?_⟩
    -- the run goes on with this parse, and all bindings of a run come from one interner
    have hnext := Served.step (.parse (withSkips host skips) (limit + 1) parts (.text raw)) hserved nofun
      ⟨_, hends, rfl⟩
    obtain ⟨known, hgave, hanswers, hhanded⟩ := hnext.shared
    have hknown : given ∈ known := by
      rcases List.mem_append.1 hgiven with h | h
      · exact hanswers given (List.mem_cons_of_mem _ h)
      · exact hhanded given h
    rw [hgave.canonical.same_iff (hanswers _ List.mem_cons_self) hknown, hpath, hsound.interner.intern_path]

/-- In `foo.01.-2.99999999999999999999` there are two positions and two names, also to the grammar. -/
theorem parse_plain_either_way_item :
    let host : Host Value := .ofDocument id fun document _ => document
    let raw := "foo.01.-2.99999999999999999999"
    let s : State (Recorded Value) := .start .unbounded ⟨.null, []⟩
    let grammar : Hook (String → StateM Value (Option Bool)) := Hook.empty.tap "grammar" fun _ => pure (some true)
    ∃ b interner, b.path = [.key "foo", .index 1, .index (-2), .key "99999999999999999999"] ∧
      (∃ trees world, ((withSkips host ∅).binder.parseWith 1 Host.Overrides.unchanged.recorded (.text raw)).Ends s (.ok b)
        ⟨trees, interner, [], ⟨world, []⟩⟩) ∧
      ∃ trees world, ((withSkips host grammar).binder.parseWith 1 Host.Overrides.unchanged.recorded (.text raw)).Ends s
        (.ok b) ⟨trees, interner, [], ⟨world, []⟩⟩ := by
  intro host raw s grammar
  have hraw : PlainText raw.toList := (isPlain_iff_plainText raw).1 (by decide +kernel)
  have hsegments : DataPath.ofText raw = [.key "foo", .index 1, .index (-2), .key "99999999999999999999"] := by
    decide +kernel
  obtain ⟨hone, -⟩ := parse_plain_either_way host 0 .unchanged hraw
  obtain ⟨b, interner, hpath, hends⟩ := hone s (.start _ _)
  exact ⟨b, interner, hpath.trans hsegments, (hends ∅).2, (hends grammar).2⟩

end Binder

end DataBound
