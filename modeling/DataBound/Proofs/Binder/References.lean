-- SUMMARY: A query by reference is the query by the text of the path that the referenced text leads to.
import DataBound.Proofs.Binder.Following
import DataBound.Proofs.Binder.Spelling
import DataBound.Proofs.Binder.Records
import DataBound.Proofs.Binder.Outcome

/-!
# Queries by reference

In `p[k={{r}}]` the text at `r` is not compared as it stands: it is a path text itself, and the query wants the text of
the path that it leads to. So `01` looks for `1`, a text with queries inside brings their defaults along, and a text that
is no path, or leads nowhere, fails the parse. Exactly if both texts name one position and ask for the same writes is the
query by reference the query with the text spelled out; texts that are the dotted text of a path always do.
-/

namespace DataBound

/-! ## Query texts -/

/-- A query below names that wants the value at a path of names. -/
structure ReferenceQuery where
  names : List String
  key : String
  reference : List String
  ne_nil : names ≠ []
  isName : ∀ name ∈ names, Path.IsName name
  isName_key : Path.IsName key
  reference_ne_nil : reference ≠ []
  isName_reference : ∀ name ∈ reference, Path.IsName name

namespace ReferenceQuery

open Binder

variable (q : ReferenceQuery)

/-- The text of the query with what it wants spelled in some way. -/
def spelled (wanted : List Char) : String :=
  String.ofList (List.intercalate ['.'] (q.names.map String.toList) ++ '[' :: (q.key.toList ++ '=' :: (wanted ++ [']'])))

/-- The text of the reference. -/
def referenceText : String := String.ofList (List.intercalate ['.'] (q.reference.map String.toList))

/-- The text, `p[k={{r}}]`. -/
def raw : String := q.spelled (referTo q.referenceText)

/-- The text of the query for a value that is spelled out, `p[k='v']`. -/
def literal (v : String) : String := q.spelled ('\'' :: (v.toList ++ ['\'']))

/-- The path below which the query searches. -/
def base : DataPath := q.names.map Segment.ofText

/-- The path of the reference. -/
def target : DataPath := q.reference.map Segment.ofText

/-- What a query for the text leads to: the first element whose field is loosely equal to the text, or else the position
after the last one, where the text is written to the field. -/
def found (items : List Value) (wanted : String) : Resolved :=
  match findElement? items q.key (some wanted) with
  | some i => ⟨q.base ++ [.ofPosition i], []⟩
  | none => ⟨q.base ++ [.ofPosition items.length],
    [.of (q.base ++ [.ofPosition items.length, .ofText q.key]) (.string wanted)]⟩

/-- What the query leads to if the referenced text leads to `inner`: the text of that path is wanted, and the writes come
after those that are asked for on the way. -/
def led (items : List Value) (inner : Resolved) : Resolved :=
  ⟨(q.found items inner.path.text).path, Updates.merge inner.updates (q.found items inner.path.text).updates⟩

theorem select_eq (items : List Value) (wanted : String) :
    Resolved.select ⟨q.base, []⟩ items q.key false (some wanted) = q.found items wanted := by
  have hkey : Resolved.segmentsOf q.key true = [.ofText q.key] :=
    QueryText.segmentsOf_of_not_mem (QueryText.not_mem_name q.isName_key.2) true
  unfold Resolved.select found
  cases findElement? items q.key (some wanted) with
  | some i => rfl
  | none =>
    simp only [Resolved.push, Resolved.append, Bool.not_false, hkey, Updates.insert, List.append_assoc]
    rfl

theorem led_of_no_updates (items : List Value) (path : DataPath) : q.led items ⟨path, []⟩ = q.found items path.text := by
  unfold led found
  cases findElement? items q.key (some path.text) with
  | some i => rfl
  | none => rfl

theorem wellKeyed_found (items : List Value) (wanted : String) : (q.found items wanted).updates.WellKeyed := by
  unfold found
  cases findElement? items q.key (some wanted) with
  | some i => exact Updates.wellKeyed_nil
  | none => exact Updates.wellKeyed_nil.insert _ _

theorem wellKeyed_led (items : List Value) {inner : Resolved} (h : inner.updates.WellKeyed) :
    (q.led items inner).updates.WellKeyed := h.merge _

/-! ## The query with the text spelled out -/

section

variable {v : String} (hv : v.toList ≠ [] ∧ ∀ c ∈ v.toList, ¬ Path.isQuote c)

include hv

/-- The query for the value. -/
def query : QueryText where
  names := q.names
  key := q.key
  quoted := false
  wanted := some (v, true)
  keyText := q.key.toList
  wantedText := '\'' :: (v.toList ++ ['\''])
  ne_nil := q.ne_nil
  isName := q.isName
  key_spelled := .part q.isName_key.partText
  wanted_spelled := by
    have hquote : Path.isQuote '\'' := by decide
    have h := Path.WantedText.operand (Path.OperandText.quoted hquote hv.1 hv.2)
    rwa [String.ofList_toList] at h

theorem gives_literal {limit : Nat} {s : State (Recorded Value)} {items : List Value} (hs : s.Sound)
    (hitems : s.host.world.get? q.base = some (.array items)) :
    Gives (limit + 1) s (q.literal v) (q.found items v) := by
  obtain ⟨asked, s', hends, -⟩ := (q.query hv).asksOnce.resolveText_ends Wiring.ofDocument.host limit hs fun b hb =>
    Wiring.ofDocument_get hb s.host.world
  have hlead : (q.query hv).found (s.host.world.get? (q.query hv).base) = q.found items v := by
    rw [← q.select_eq]
    exact congrArg (Resolved.select ⟨q.base, []⟩ · q.key false (some v)) (congrArg Resolved.elements hitems)
  rw [hlead] at hends
  exact gives_of_leads hs ⟨s', hends⟩

end

/-! ## The query by reference -/

theorem not_isPlain : isPlain q.raw = false := by
  apply not_isPlain_of_mem
  rw [raw, spelled, String.toList_ofList]
  exact List.mem_append_right _ List.mem_cons_self

/-- The query asks for the value below which it searches, and then for the one that it wants. -/
theorem exists_tree : ∃ tree, Path.read q.raw = .ok tree ∧ ∀ {σ : Type} (services : Services σ),
    services.resolveNodes .empty tree = (do
      let items ← services.valueAt q.base
      let wanted ← services.followed q.target
      pure (Resolved.select ⟨q.base, []⟩ (Resolved.elements items) q.key false (some wanted))) := by
  have hasks : AsksNothing q.referenceText q.target := asksNothing_names q.reference_ne_nil q.isName_reference
  obtain ⟨node, hpart, hnode⟩ := hasks.refersTo
  let bracket := '[' :: (q.key.toList ++ '=' :: (referTo q.referenceText ++ [']']))
  have hbracket : Path.BracketText bracket (.query (.literal q.key false) (some node)) := by
    have h := Path.BracketText.query 0 0 0 0 0 (.part q.isName_key.partText) (.operand (.part hpart))
    simpa [Path.spaces, bracket] using h
  have hbrackets := Path.BracketsText.cons hbracket .nil
  rw [List.append_nil] at hbrackets
  have hitems := QueryText.itemsText_dotted q.ne_nil q.isName hbrackets
  have hraw : q.raw.toList = List.intercalate ['.'] (q.names.map String.toList) ++ bracket := String.toList_ofList
  rw [← hraw] at hitems
  refine ⟨_, Path.read_eq_ok_of_pathText (.items hitems), fun services => ?_⟩
  rw [QueryText.resolveNodes_names services fun name hmem => (q.isName name hmem).2]
  simp only [Resolved.empty, List.nil_append, Services.resolveNodes, Services.resolveNode, Services.nodeText,
    Services.wantedText, hnode.nodeText, pure_bind, bind_pure, bind_assoc, Node.isQuoted]
  rfl

section

variable {q} {limit : Nat} {s s' : State (Recorded Value)} {items : List Value} {v : String} (hs : s.Sound)
  (hitems : s.host.world.get? q.base = some (.array items)) (hvalue : s.host.world.get? q.target = some (.string v))

include hs hitems hvalue

/-- The query ends as the text of the referenced value does. -/
theorem normalize_ends_iff (limit : Nat) :
    ∃ s₂, s₂.Sound ∧ s₂.pending = s.pending ∧ s₂.host.world = s.host.world ∧
      ∀ {r s'}, (Wiring.ofDocument.binder.normalize Wiring.ofDocument.host.recorded (limit + 1) q.raw).Ends s r s' ↔
        ∃ text, ((services Wiring.ofDocument.host.recorded
            (Wiring.ofDocument.binder.normalize Wiring.ofDocument.host.recorded limit)).textOf (some (.string v))).Ends
            s₂ text s' ∧
          r = ((text.mapError (.unresolvedSegment q.target.text)).map (q.found items)).mapError
            (.unresolvedPath q.raw) := by
  obtain ⟨tree, hread, hresolves⟩ := q.exists_tree
  obtain ⟨trees, hsound, hnormalize⟩ := normalize_read_ends (rfl : Wiring.ofDocument.binder.beforeNode = ∅)
    Wiring.ofDocument.host.recorded limit q.not_isPlain hread hs
  let normalize := Wiring.ofDocument.binder.normalize Wiring.ofDocument.host.recorded limit
  obtain ⟨s₁, hbase, hsound₁, hpending₁, hhost₁⟩ :=
    hsound.valueAt_ends (Wiring.ofDocument_get (hsound.interner.intern_path q.base) s.host.world) normalize
  have hworld₁ : s₁.host.world = s.host.world := by rw [hhost₁]
  obtain ⟨s₂, htarget, hsound₂, hpending₂, hhost₂⟩ :=
    hsound₁.valueAt_ends (Wiring.ofDocument_get (hsound₁.interner.intern_path q.target) s₁.host.world) normalize
  rw [hitems] at hbase
  rw [hworld₁, hvalue] at htarget
  refine ⟨s₂, hsound₂, hpending₂.trans hpending₁, by rw [hhost₂, hworld₁], ?_⟩
  intro r s'
  rw [hnormalize, hresolves]
  constructor
  · rintro ⟨found, hends, rfl⟩
    have hselect := hbase.bind_iff.1 hends
    obtain ⟨wanted, hfollowed, rfl⟩ := Action.bind_pure_ends.1 hselect
    obtain ⟨text, htext, rfl⟩ := (followed_ends_iff htarget).1 hfollowed
    refine ⟨text, htext, ?_⟩
    rw [← funext (q.select_eq items)]
    rfl
  · rintro ⟨text, htext, rfl⟩
    have hfollowed := (followed_ends_iff htarget).2 ⟨text, htext, rfl⟩
    refine ⟨_, hbase.bind_iff.2 (Action.bind_pure_ends.2 ⟨_, hfollowed, rfl⟩), ?_⟩
    rw [← funext (q.select_eq items)]
    rfl

/-- Where the referenced text leads to a path with a text, there is where the query leads; else it leads nowhere. -/
theorem leads_raw {found : Except Error Resolved} (h : Leads limit s v found) :
    (∀ inner, found = .ok inner → inner.path.text ≠ "" → Leads (limit + 1) s q.raw (.ok (q.led items inner))) ∧
    ((∀ inner, found = .ok inner → inner.path.text = "") → ∃ e, Leads (limit + 1) s q.raw (.error e)) := by
  have hreset : ({ s with pending := [] } : State (Recorded Value)).Sound := ⟨hs.trees, hs.interner⟩
  obtain ⟨s₁, hresolve⟩ := h
  obtain ⟨r, hinner, rfl⟩ := normalize_of_resolveText hresolve
  obtain ⟨s₂, hsound, hpending, hworld, hiff⟩ := normalize_ends_iff hreset hitems hvalue limit
  -- the value is normalized after two answers, and leads where it leads from the start
  obtain ⟨t, hnormalize, -, hcollected⟩ := normalize_over_document hreset hinner hsound hpending hworld
  cases r with
  | error e =>
    have hends := hiff.2 ⟨_, (textOf_ends_iff rfl).2 (.inl ⟨e, hnormalize, rfl⟩), rfl⟩
    exact ⟨nofun, fun _ => ⟨_, _, resolveText_ends_of_normalize hends⟩⟩
  | ok normalized =>
    have hends := resolveText_ends_of_normalize
      (hiff.2 ⟨_, (textOf_ends_iff rfl).2 (.inr ⟨normalized, t, hnormalize, rfl, rfl⟩), rfl⟩)
    rw [hcollected] at hends
    constructor
    · rintro _ ⟨⟩ hne
      rw [if_neg hne] at hends
      exact ⟨_, hends⟩
    · intro hempty
      rw [if_pos (hempty _ rfl)] at hends
      exact ⟨_, _, hends⟩

/-- If the query leads anywhere, so does the referenced text. -/
theorem exists_leads_of_raw {found : Except Error Resolved} (h : Leads (limit + 1) s q.raw found) :
    ∃ inner, Leads limit s v inner := by
  have hreset : ({ s with pending := [] } : State (Recorded Value)).Sound := ⟨hs.trees, hs.interner⟩
  obtain ⟨s', hresolve⟩ := h
  obtain ⟨r, hends, -⟩ := normalize_of_resolveText hresolve
  obtain ⟨s₂, hsound, hpending, hworld, hiff⟩ := normalize_ends_iff hreset hitems hvalue limit
  obtain ⟨text, htext, -⟩ := hiff.1 hends
  have hinner : ∃ r s₁, (Wiring.ofDocument.binder.normalize Wiring.ofDocument.host.recorded limit v).Ends s₂ r s₁ := by
    rcases (textOf_ends_iff rfl).1 htext with ⟨e, hnormalize, -⟩ | ⟨normalized, s₁, hnormalize, -⟩
    · exact ⟨_, _, hnormalize⟩
    · exact ⟨_, _, hnormalize⟩
  obtain ⟨r₁, s₁, hnormalize⟩ := hinner
  obtain ⟨t, hfirst, -⟩ := normalize_over_document hsound hnormalize hreset hpending.symm hworld.symm
  exact ⟨_, _, resolveText_ends_of_normalize hfirst⟩

/-- The query by reference and the one with the text spelled out agree where they lead to the same. -/
theorem agree_raw_iff {t : State (Recorded Value)} (hv : v.toList ≠ [] ∧ ∀ c ∈ v.toList, ¬ Path.isQuote c)
    (ht : t.Sound) (hworld : t.host.world = s.host.world) (limit : Nat) :
    Agree (limit + 1) s t q.raw (q.literal v) ↔
      ∃ inner, Leads limit s v (.ok inner) ∧ inner.path.text ≠ "" ∧ q.led items inner = q.found items v := by
  have hliteral : Gives (limit + 1) t (q.literal v) (q.found items v) := q.gives_literal hv ht (hworld ▸ hitems)
  have hgives : ∀ inner, Leads limit s v (.ok inner) → inner.path.text ≠ "" →
      Gives (limit + 1) s q.raw (q.led items inner) := fun inner hinner hne =>
    gives_of_leads hs ((leads_raw hs hitems hvalue hinner).1 inner rfl hne)
  have hagree : ∀ inner, Leads limit s v (.ok inner) → inner.path.text ≠ "" →
      (Agree (limit + 1) s t q.raw (q.literal v) ↔ q.led items inner = q.found items v) := fun inner hinner hne =>
    (hgives inner hinner hne).agree_iff hliteral (q.wellKeyed_led items (wellKeyed_of_leads hs hinner))
      (q.wellKeyed_found items v) hworld
  constructor
  · intro h
    have ⟨b, s', _, _, _, _, hends, _⟩ := h
    obtain ⟨lead, hlead⟩ := leads_of_parse hends
    obtain ⟨found, hfound⟩ := exists_leads_of_raw hs hitems hvalue hlead
    by_cases hempty : ∀ inner, found = .ok inner → inner.path.text = ""
    · -- the parse would fail
      obtain ⟨e, herror⟩ := (leads_raw hs hitems hvalue hfound).2 hempty
      obtain ⟨e', s₁, made, hfails, -⟩ := refuses_of_leads hs herror
      cases (hends.unique hfails).1
    · push Not at hempty
      obtain ⟨inner, rfl, hne⟩ := hempty
      exact ⟨inner, hfound, hne, (hagree inner hfound hne).1 h⟩
  · rintro ⟨inner, hinner, hne, hsame⟩
    exact (hagree inner hinner hne).2 hsame

end

/-! ## Parsing -/

/-- A query by reference is the query by the text of the path that the referenced text leads to. Over every document
with an array where the query searches and with a text where it refers to: if that text leads to a path with a text, the
query gives what the text of that path is found at, and its writes come after those that are asked for on the way. If the
referenced text leads nowhere the parse fails, and the document stays. The parse agrees with that of the query with
the referenced text spelled out, over an equal document, exactly if both texts name one position and ask for the same
writes; they do for every dotted text of a path. -/
theorem parse_by_reference (limit : Nat) {s t : State (Recorded Value)} {items : List Value} {v : String}
    (hs : Reachable s) (ht : Reachable t) (hworld : t.host.world = s.host.world)
    (hitems : s.host.world.get? q.base = some (.array items)) (hvalue : s.host.world.get? q.target = some (.string v))
    (hv : v.toList ≠ [] ∧ ∀ c ∈ v.toList, ¬ Path.isQuote c) :
    (∀ inner, Leads (limit + 1) s v (.ok inner) → inner.path.text ≠ "" → Gives (limit + 2) s q.raw (q.led items inner)) ∧
    (∀ found, Leads (limit + 1) s v found → (∀ inner, found = .ok inner → inner.path.text = "") →
      Refuses (limit + 2) s q.raw) ∧
    (Agree (limit + 2) s t q.raw (q.literal v) ↔
      ∃ inner, Leads (limit + 1) s v (.ok inner) ∧ inner.path.text ≠ "" ∧ q.led items inner = q.found items v) ∧
    ∀ path : DataPath, path ≠ [] → (∀ segment ∈ path, segment.IsDotted) → v = path.text →
      Agree (limit + 2) s t q.raw (q.literal v) := by
  have hagree := agree_raw_iff hs.sound hitems hvalue hv ht.sound hworld (limit + 1)
  refine ⟨?_, ?_, hagree, ?_⟩
  · intro inner hinner hne
    exact gives_of_leads hs.sound ((leads_raw hs.sound hitems hvalue hinner).1 inner rfl hne)
  · intro found hfound hempty
    obtain ⟨e, herror⟩ := (leads_raw hs.sound hitems hvalue hfound).2 hempty
    exact refuses_of_leads hs.sound herror
  · rintro path hpath hdotted rfl
    have hrereads : ∀ segment ∈ path, segment.Rereads := fun segment hmem => (hdotted segment hmem).rereads
    have hinner := leads_of_asksNothing limit (asksNothing_dotted hpath hdotted) hs.sound
    refine hagree.2 ⟨⟨path, []⟩, hinner, ?_, q.led_of_no_updates items path⟩
    exact fun htext => hpath ((DataPath.text_eq_empty_iff hrereads).1 htext)

/-- The query `items[id=\x7b\x7bref\x7d\x7d]`. -/
def itemReferred : ReferenceQuery where
  names := ["items"]
  key := "id"
  reference := ["ref"]
  ne_nil := List.cons_ne_nil _ _
  isName := by decide +kernel
  isName_key := by decide +kernel
  reference_ne_nil := List.cons_ne_nil _ _
  isName_reference := by decide +kernel

theorem itemReferred_raw : itemReferred.raw = "items[id=\x7b\x7bref\x7d\x7d]" := by decide +kernel

/-- The element with the name that is referred to. -/
theorem parse_by_reference_item :
    let s : State (Recorded Value) :=
      .start .unbounded ⟨.object [("items", .array [.object [("id", .string "x")]]), ("ref", .string "x")], []⟩
    Agree 2 s s "items[id=\x7b\x7bref\x7d\x7d]" "items[id='x']" := by
  intro s
  have hs : Reachable s := .start _ _
  have hliteral : itemReferred.literal "x" = "items[id='x']" := by decide +kernel
  have hdotted : ∀ segment ∈ [Segment.key "x"], segment.IsDotted := by decide +kernel
  have hv : "x".toList ≠ [] ∧ ∀ c ∈ "x".toList, ¬ Path.isQuote c := RecordText.unquoted_of_all (by decide +kernel)
  obtain ⟨-, -, -, hagree⟩ := itemReferred.parse_by_reference 0 hs hs rfl (by rfl) (by rfl) hv
  rw [← itemReferred_raw, ← hliteral]
  exact hagree [.key "x"] (List.cons_ne_nil _ _) hdotted (by decide +kernel)

/-- The text `01` leads to the position 1, and so the query by reference wants the text `1`: it passes over the element
that has the very text that is referred to. -/
theorem parse_by_reference_zero :
    let s : State (Recorded Value) :=
      .start .unbounded ⟨.object [("items", .array [.object [("id", .string "01")]]), ("ref", .string "01")], []⟩
    Gives 2 s "items[id=\x7b\x7bref\x7d\x7d]"
      ⟨[.key "items", .index 1], [.of [.key "items", .index 1, .key "id"] (.string "1")]⟩ ∧
    Gives 2 s "items[id='01']" ⟨[.key "items", .index 0], []⟩ ∧
    ¬ Agree 2 s s "items[id=\x7b\x7bref\x7d\x7d]" "items[id='01']" := by
  intro s
  let q := itemReferred
  have hs : s.Sound := State.sound_start _ _
  have hbase : q.base = [.key "items"] := by decide +kernel
  have hkey : Segment.ofText q.key = .key "id" := by decide +kernel
  have hliteral : q.literal "01" = "items[id='01']" := by decide +kernel
  let items : List Value := [.object [("id", .string "01")]]
  have hitems : s.host.world.get? q.base = some (.array items) := by rfl
  have hplain : PlainText "01".toList := (isPlain_iff_plainText "01").1 (by decide +kernel)
  have hinner := leads_of_asksNothing 0 hplain.asksNothing hs
  have hpath : DataPath.ofText "01" = [.index 1] := by decide +kernel
  have htext : DataPath.text [.index 1] = "1" := by decide +kernel
  have hmiss : findElement? items q.key (some "1") = none := by decide +kernel
  have hhit : findElement? items q.key (some "01") = some 0 := by decide +kernel
  have hled : q.led items ⟨[.index 1], []⟩ =
      ⟨[.key "items", .index 1], [.of [.key "items", .index 1, .key "id"] (.string "1")]⟩ := by
    rw [led_of_no_updates, htext, found, hmiss, hbase, hkey]
    rfl
  have hfound : q.found items "01" = ⟨[.key "items", .index 0], []⟩ := by
    rw [found, hhit, hbase]
    rfl
  rw [hpath] at hinner
  have hreferred : Gives 2 s q.raw (q.led items ⟨[.index 1], []⟩) :=
    gives_of_leads hs ((leads_raw hs hitems (by rfl) hinner).1 _ rfl (by decide +kernel))
  have hspelled : Gives 2 s (q.literal "01") (q.found items "01") :=
    q.gives_literal (RecordText.unquoted_of_all (by decide +kernel)) hs hitems
  rw [hled] at hreferred
  rw [hfound] at hspelled
  rw [← itemReferred_raw, ← hliteral]
  refine ⟨hreferred, hspelled, ?_⟩
  have hkeyed : ∀ path value, Updates.WellKeyed [.of path value] := fun path value =>
    Updates.wellKeyed_nil.insert path value
  rw [hreferred.agree_iff hspelled (hkeyed _ _) Updates.wellKeyed_nil rfl]
  exact fun h => List.cons_ne_nil _ _ (congrArg Resolved.updates h)

end ReferenceQuery

end DataBound
