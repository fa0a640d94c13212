-- SUMMARY: Texts with one query below a dotted path: their trees, and how they are normalized.
import DataBound.Proofs.Binder.Reachable
import DataBound.Proofs.Path.Reading
import DataBound.Proofs.Text.Pieces

/-!
# Queries below a dotted path

A `QueryText` is a path text such as `a.b[key='value']`: names with dots between them, then one query whose key and
wanted value are written out. Normalizing it asks the host once, for the value below which the query searches.
-/

namespace DataBound

/-- The text can stand as a name in a path. -/
def Path.IsName (name : String) : Prop := name.toList ≠ [] ∧ ∀ c ∈ name.toList, isNameChar c

instance (name : String) : Decidable (Path.IsName name) :=
  decidable_of_iff (name.toList ≠ [] ∧ name.toList.all Path.isNameChar = true) (by
    rw [Path.IsName, List.all_eq_true])

theorem Path.IsName.partText {name : String} (h : IsName name) : PartText name.toList (.literal name false) := by
  have hpart := PartText.name h.1 h.2
  rwa [String.ofList_toList] at hpart

/-- A text with a character of another kind is read by the grammar. -/
theorem Binder.not_isPlain_of_char {raw : String} {c : Char} (h : c ∈ raw.toList) (hdot : c ≠ '.')
    (hc : isPlainChar c = false) : isPlain raw = false := by
  obtain ⟨piece, hpiece, hmem⟩ := Text.exists_mem_splitOn h hdot
  rw [isPlain, List.all_eq_false]
  refine ⟨piece, hpiece, ?_⟩
  rw [Bool.and_eq_true, not_and, List.all_eq_true]
  intro _ hall
  exact Bool.eq_false_iff.1 hc (hall c hmem)

theorem Binder.not_isPlain_of_mem {raw : String} (h : '[' ∈ raw.toList) : isPlain raw = false :=
  not_isPlain_of_char h (by decide) (by decide)

/-- A text that is not plain is normalized by resolving its tree, whether that is read or kept from before. -/
theorem Binder.normalize_read_ends {σ : Type} {binder : Binder σ} (hnode : binder.beforeNode = ∅) (host : Host σ)
    (limit : Nat) {raw : String} {tree : List Node} (hplain : isPlain raw = false) (hread : Path.read raw = .ok tree)
    {s : State σ} (hs : s.Sound) :
    ∃ trees, ({ s with trees } : State σ).Sound ∧ ∀ {r s'}, (binder.normalize host (limit + 1) raw).Ends s r s' ↔
      ∃ found, ((services host (binder.normalize host limit)).resolveNodes .empty tree).Ends { s with trees } found s' ∧
        r = found.mapError (.unresolvedPath raw) := by
  obtain ⟨trees, htree, hsound⟩ := hs.readTree_ends raw
  rw [hread] at htree
  refine ⟨trees, hsound, ?_⟩
  intro r s'
  rw [normalize, takesShortcut, hplain]
  refine (Action.pure_ends_self false s).bind_iff.trans (htree.bind_iff.trans (Action.mapError_ends.trans ?_))
  rw [hnode]
  change (∃ found, ((services host _).resolve ⟨[]⟩ tree).Ends _ found _ ∧ _) ↔ _
  rw [Services.resolve_of_no_taps]

/-- The host is asked with the binding of the path. -/
theorem Binder.State.Sound.ask_ends {σ : Type} {host : Host σ} {s : State σ} (hs : s.Sound) {path : DataPath}
    {answer : Except Error (Option Value)} {world : σ}
    (hget : (host.get (s.interner.intern path).1).run.run s.host = (answer, world))
    (normalize : String → Action (State σ) Resolved) :
    ∃ s', ((services host normalize).valueAt path).Ends s answer s' ∧ s'.Sound ∧ s'.pending = s.pending ∧
      s'.host = world := by
  refine ⟨{ s with interner := (s.interner.intern path).2, host := world }, ?_, ⟨hs.trees, hs.interner.intern path⟩,
    rfl, rfl⟩
  refine (Binder.intern_ends.2 ⟨rfl, rfl⟩ : (intern path).Ends s _ _).bind (call_ends.2 ⟨?_, ?_⟩)
  · exact congrArg Prod.fst hget.symm
  · exact congrArg (State.mk s.trees (s.interner.intern path).2 s.pending) (congrArg Prod.snd hget.symm)

theorem Host.recorded_get_run {σ : Type} {host : Host σ} {b : Binding} {s : Recorded σ}
    {answer : Except Error (Option Value)} {world : σ} (h : (host.get b).run.run s.world = (answer, world)) :
    (host.recorded.get b).run.run s = (answer, ⟨world, s.calls ++ [.get b answer]⟩) := by
  have hrun : (host.recorded.get b).run.run s = (((host.get b).run.run s.world).1,
      ⟨((host.get b).run.run s.world).2, s.calls ++ [.get b ((host.get b).run.run s.world).1]⟩) := rfl
  rw [hrun, h]

/-- The answer of a recorded host is noted down. -/
theorem Binder.State.Sound.valueAt_ends {σ : Type} {host : Host σ} {s : State (Recorded σ)} (hs : s.Sound)
    {path : DataPath} {answer : Except Error (Option Value)} {world : σ}
    (hget : (host.get (s.interner.intern path).1).run.run s.host.world = (answer, world))
    (normalize : String → Action (State (Recorded σ)) Resolved) :
    ∃ s', ((services host.recorded normalize).valueAt path).Ends s answer s' ∧ s'.Sound ∧ s'.pending = s.pending ∧
      s'.host = ⟨world, s.host.calls ++ [.get (s.interner.intern path).1 answer]⟩ :=
  hs.ask_ends (Host.recorded_get_run hget) normalize

/-! ## Texts that ask for one value -/

/-- Resolving the tree of the text asks for the value at `base` and goes on to `lead` from there. -/
structure AsksOnce (raw : String) (base : DataPath) (lead : Option Value → Resolved) : Prop where
  not_plain : Binder.isPlain raw = false
  resolves : ∃ tree, Path.read raw = .ok tree ∧ ∀ {σ : Type} (services : Services σ),
    services.resolveNodes .empty tree = do
      let target ← services.valueAt base
      pure (lead target)
  merge_lead (target : Option Value) : Updates.merge [] (lead target).updates = (lead target).updates

namespace AsksOnce

variable {σ : Type} {raw : String} {base : DataPath} {lead : Option Value → Resolved} {host : Host σ}
  {target : Option Value}

theorem normalize_ends (ha : AsksOnce raw base lead) {binder : Binder σ} (hnode : binder.beforeNode = ∅)
    (host : Host σ) (limit : Nat) {s : Binder.State σ} (hs : s.Sound) {world : Binding → σ}
    (hget : ∀ b, b.path = base → (host.get b).run.run s.host = (.ok target, world b)) :
    ∃ b s', (binder.normalize host (limit + 1) raw).Ends s (.ok (lead target)) s' ∧ s'.Sound ∧
      s'.pending = s.pending ∧ b.path = base ∧ s'.host = world b := by
  obtain ⟨tree, hread, hresolves⟩ := ha.resolves
  obtain ⟨trees, hsound, hnormalize⟩ := Binder.normalize_read_ends hnode host limit ha.not_plain hread hs
  have hpath := hsound.interner.intern_path base
  obtain ⟨s', hvalue, hsound', hpending, hhost⟩ := hsound.ask_ends (hget _ hpath) (binder.normalize host limit)
  have hlead := hvalue.bind (f := fun target => pure (lead target)) (Action.pure_ends_self _ _)
  rw [← hresolves] at hlead
  exact ⟨_, s', hnormalize.2 ⟨_, hlead, rfl⟩, hsound', hpending, hpath, hhost⟩

/-- What the text leads to, asked with a binding of its base. -/
theorem lead_ends (ha : AsksOnce raw base lead) {binder : Binder σ} (hnode : binder.beforeNode = ∅) (host : Host σ)
    (limit : Nat) {s : Binder.State σ} (hs : s.Sound) {world : Binding → σ}
    (hget : ∀ b, b.path = base → (host.get b).run.run s.host = (.ok target, world b)) :
    ∃ b s', (binder.resolveText host (limit + 1) raw).Ends s (.ok (lead target)) s' ∧ s'.Sound ∧ b.path = base ∧
      s'.host = world b := by
  have hreset : ({ s with pending := [] } : Binder.State σ).Sound := ⟨hs.trees, hs.interner⟩
  obtain ⟨b, s', hnormalize, hsound, hpending, hpath, hhost⟩ := ha.normalize_ends hnode host limit hreset hget
  have hresolve := Binder.resolveText_ends_of_normalize hnormalize
  rw [hpending] at hresolve
  change (Binder.resolveText _ _ _ _).Ends s (.ok ⟨(lead target).path, Updates.merge [] (lead target).updates⟩) s' at hresolve
  rw [ha.merge_lead] at hresolve
  exact ⟨b, s', hresolve, hsound, hpath, hhost⟩

/-- Over a recorded host the one question is noted down. -/
theorem resolveText_ends (ha : AsksOnce raw base lead) (w : Host σ) (limit : Nat) {world : σ}
    {s : Binder.State (Recorded σ)} (hs : s.Sound)
    (hget : ∀ b, b.path = base → (host.get b).run.run s.host.world = (.ok target, world)) :
    ∃ b s', ((Wiring.ofHost w).binder.resolveText host.recorded (limit + 1) raw).Ends s (.ok (lead target)) s' ∧
      s'.Sound ∧ b.path = base ∧ s'.host = ⟨world, s.host.calls ++ [.get b (.ok target)]⟩ :=
  ha.lead_ends (rfl : (Wiring.ofHost w).binder.beforeNode = ∅) host.recorded limit hs fun b hb =>
    Host.recorded_get_run (hget b hb)

end AsksOnce

/-! ## Query texts -/

/-- Two paths with a dot between them are one path. -/
theorem Path.ItemsText.append {cs ds : List Char} {nodes more : List Node} (hmore : Path.ItemsText ds more) :
    Path.ItemsText cs nodes → Path.ItemsText (cs ++ '.' :: ds) (nodes ++ more)
  | .last h => .cons h hmore
  | .cons h hrest => by
    rw [List.append_assoc, List.append_assoc, List.cons_append]
    exact .cons h (hmore.append hrest)

/-- A query below names, with the spelling of its key and of what it wants. -/
structure QueryText where
  names : List String
  key : String
  quoted : Bool
  wanted : Option (String × Bool)
  keyText : List Char
  wantedText : List Char
  ne_nil : names ≠ []
  isName : ∀ name ∈ names, Path.IsName name
  key_spelled : Path.OperandText keyText (.literal key quoted)
  wanted_spelled : Path.WantedText wantedText (wanted.map fun (text, quoted) => .literal text quoted)

namespace QueryText

variable (q : QueryText)

/-- The bracket. -/
def bracket : List Char := '[' :: (q.keyText ++ '=' :: (q.wantedText ++ [']']))

/-- The text. -/
def raw : String := String.ofList (List.intercalate ['.'] (q.names.map String.toList) ++ q.bracket)

/-- The text that is wanted. -/
def wanted? : Option String := q.wanted.map Prod.fst

/-- The node of the query. -/
def node : Node := .query (.literal q.key q.quoted) (q.wanted.map fun (text, quoted) => .literal text quoted)

/-- The tree of the text. -/
def tree : List Node := q.names.map (fun name => .literal name false) ++ [q.node]

/-- The path below which the query searches. -/
def base : DataPath := q.names.map Segment.ofText

/-- The query `name[key=wanted]` without quotes. -/
def ofNames (name key wanted : String) (hname : Path.IsName name) (hkey : Path.IsName key)
    (hwanted : Path.IsName wanted) : QueryText where
  names := [name]
  key := key
  quoted := false
  wanted := some (wanted, false)
  keyText := key.toList
  wantedText := wanted.toList
  ne_nil := List.cons_ne_nil _ _
  isName _ hmem := List.mem_singleton.1 hmem ▸ hname
  key_spelled := .part hkey.partText
  wanted_spelled := .operand (.part hwanted.partText)

/-- The query for the item of a name. -/
def itemNamed : QueryText :=
  ofNames "items" "name" "x" (by decide +kernel) (by decide +kernel) (by decide +kernel)

theorem itemNamed_raw : itemNamed.raw = "items[name=x]" := by decide +kernel

/-! ## Reading -/

theorem bracket_spelled : Path.BracketText q.bracket q.node := by
  have h := Path.BracketText.query 0 0 0 0 0 q.key_spelled q.wanted_spelled
  simpa [Path.spaces, bracket, node] using h

/-- A name with brackets is one item. -/
theorem itemText_name {name : String} {ds : List Char} {selected : List Node} (hname : Path.IsName name)
    (hselected : Path.BracketsText ds selected) : Path.ItemText (name.toList ++ ds) (.literal name false :: selected) := by
  have hparts : Path.PartsText name.toList [.literal name false] := by
    have h := Path.PartsText.cons hname.partText .nil
    rwa [List.append_nil] at h
  exact .mk hparts (List.cons_ne_nil _ _) (List.isChain_singleton _) hselected

/-- Names with dots between them, and brackets behind the last one. -/
theorem itemsText_dotted {names : List String} (hne : names ≠ [])
    (hnames : ∀ name ∈ names, Path.IsName name) {ds : List Char} {selected : List Node}
    (hselected : Path.BracketsText ds selected) :
    Path.ItemsText (List.intercalate ['.'] (names.map String.toList) ++ ds)
      (names.map (fun name => .literal name false) ++ selected) := by
  induction names with
  | nil => exact absurd rfl hne
  | cons name rest ih =>
    have hname := hnames name List.mem_cons_self
    cases rest with
    | nil =>
      rw [List.map_singleton, List.intercalate_singleton]
      exact .last (itemText_name hname hselected)
    | cons next rest =>
      have hrest := ih (List.cons_ne_nil _ _) fun other hmem => hnames other (List.mem_cons_of_mem _ hmem)
      have hfirst := itemText_name hname .nil
      rw [List.append_nil] at hfirst
      have h := Path.ItemsText.cons hfirst hrest
      rwa [List.map_cons, List.map_cons, Text.intercalate_cons '.' _ (List.cons_ne_nil _ _), List.append_assoc]

theorem itemsText_tree : Path.ItemsText q.raw.toList q.tree := by
  have hbrackets : Path.BracketsText q.bracket [q.node] := by
    have h := Path.BracketsText.cons q.bracket_spelled .nil
    rwa [List.append_nil] at h
  rw [raw, String.toList_ofList]
  exact itemsText_dotted q.ne_nil q.isName hbrackets

theorem read_raw : Path.read q.raw = .ok q.tree := Path.read_eq_ok_of_pathText (.items q.itemsText_tree)

theorem not_isPlain : Binder.isPlain q.raw = false := by
  apply Binder.not_isPlain_of_mem
  rw [raw, String.toList_ofList, bracket]
  exact List.mem_append_right _ List.mem_cons_self

theorem not_mem_name {cs : List Char} (h : ∀ c ∈ cs, Path.isNameChar c) : '.' ∉ cs :=
  fun hmem => absurd (h '.' hmem) (by decide)

theorem not_mem_of_operandText {cs : List Char} {key : String} (h : Path.OperandText cs (.literal key false)) :
    '.' ∉ key.toList := by
  cases h with
  | part hpart =>
    cases hpart with
    | name _ hchars =>
      rw [String.toList_ofList]
      exact not_mem_name hchars

/-- A key without quotes is one piece. -/
theorem not_mem_key (h : q.quoted = false) : '.' ∉ q.key.toList := by
  have hspelled := q.key_spelled
  rw [h] at hspelled
  exact not_mem_of_operandText hspelled

/-! ## Resolving -/

theorem segmentsOf_of_not_mem {text : String} (h : '.' ∉ text.toList) (coerced : Bool) :
    Resolved.segmentsOf text coerced = [if coerced then Segment.ofText text else .key text] := by
  simp [Resolved.segmentsOf, List.splitOn_eq_singleton h]

variable {σ : Type} (services : Services σ)

theorem resolveNodes_names {names : List String} (hnames : ∀ name ∈ names, ∀ c ∈ name.toList, Path.isNameChar c)
    (r : Resolved) (rest : List Node) :
    services.resolveNodes r (names.map (fun name => .literal name false) ++ rest) =
      services.resolveNodes { r with path := r.path ++ names.map Segment.ofText } rest := by
  induction names generalizing r with
  | nil => simp
  | cons name names ih =>
    have hdot : '.' ∉ name.toList := not_mem_name (hnames name List.mem_cons_self)
    have hsegments : Resolved.segmentsOf name true = [.ofText name] := segmentsOf_of_not_mem hdot true
    rw [List.map_cons, List.cons_append, Services.resolveNodes, Services.resolveNode, pure_bind,
      ih fun other hmem => hnames other (List.mem_cons_of_mem _ hmem)]
    simp [Resolved.append, hsegments]

/-- Resolving the tree asks for one value, and selects among its elements. -/
theorem resolveNodes_tree :
    services.resolveNodes .empty q.tree = (do
      let target ← services.valueAt q.base
      pure (Resolved.select ⟨q.base, []⟩ (Resolved.elements target) q.key q.quoted q.wanted?)) := by
  rw [tree, resolveNodes_names services fun name hmem => (q.isName name hmem).2]
  simp only [Resolved.empty, List.nil_append, node, Services.resolveNodes, Services.resolveNode, Services.nodeText,
    pure_bind, bind_pure, Node.isQuoted]
  apply bind_congr
  intro target
  unfold wanted?
  cases q.wanted with
  | none => simp only [Option.map_none, Services.wantedText, pure_bind, base]
  | some wanted => simp only [Option.map_some, Services.wantedText, Services.nodeText, pure_bind, base]

/-! ## Normalizing -/

/-- What the query leads to when the value below which it searches is `target`. -/
def found (target : Option Value) : Resolved :=
  Resolved.select ⟨q.base, []⟩ (Resolved.elements target) q.key q.quoted q.wanted?

theorem merge_found (target : Option Value) : Updates.merge [] (q.found target).updates = (q.found target).updates := by
  unfold found Resolved.select
  cases findElement? (Resolved.elements target) q.key q.wanted? with
  | some i => rfl
  | none => rfl

theorem asksOnce : AsksOnce q.raw q.base q.found where
  not_plain := q.not_isPlain
  resolves := ⟨q.tree, q.read_raw, fun services => q.resolveNodes_tree services⟩
  merge_lead := q.merge_found

end QueryText

end DataBound
