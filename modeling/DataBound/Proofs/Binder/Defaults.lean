-- SUMMARY: When the element that a query creates is one that the query finds again.
import DataBound.Proofs.Binder.Writes
import DataBound.Proofs.Document

/-!
# Query defaults

A query that finds no element has one created after the last. The key is the name of a field where the query searches,
but a dotted text below the new position where it is created: a key that spells an index makes an array, and a
quoted key with dots an object inside an object. For such keys the same query creates one more element each time.
-/

namespace DataBound

namespace Value

/-- The items that a query below the path searches, if there is a place to create more of them. -/
def Searched (document : Value) (path : DataPath) (items : List Value) : Prop :=
  document.get? path = some (.array items) ∨
    items = [] ∧ (document.get? path = none ∨ document.get? path = some .null) ∧
      ∃ below, below ≠ [] ∧ document.Walks (path ++ below)

variable {document : Value} {path : DataPath} {items : List Value}

theorem Searched.walks (h : document.Searched path items) : document.Walks path := by
  rcases h with h | ⟨-, -, below, -, h⟩
  · exact walks_of_get? h
  · exact walks_of_append h

theorem Searched.elements_eq (h : document.Searched path items) :
    Resolved.elements (document.get? path) = items := by
  rcases h with h | ⟨rfl, h | h, -⟩
  · rw [h, Resolved.elements]
  · rw [h]
    rfl
  · rw [h]
    rfl

theorem position?_ofPosition {n : Nat} (h : n < 0x8000_0000_0000_0000) : (Segment.ofPosition n).position? = some n := by
  simp [Segment.ofPosition, Segment.position?, Int64.toInt_ofNat_of_lt h]

theorem set_array_end (hlen : items.length < 0x8000_0000_0000_0000) (rest : DataPath) (new : Value) :
    set (Segment.ofPosition items.length :: rest) new (.array items) = .array (items ++ [set rest new .null]) := by
  have hpadded : padded items (items.length + 1) = items ++ [.null] := by
    simp [padded]
  have hmodify : (items ++ [null]).modify items.length (set rest new) = items ++ [set rest new .null] :=
    List.modifyTailIdx_add (List.modifyHead (set rest new)) 0 items [null]
  rw [set]
  simp only [isNull, Bool.false_eq_true, if_false, position?_ofPosition hlen, hpadded, hmodify]

/-- A write at the position after the last element makes one more element. -/
theorem Searched.set (h : document.Searched path items) (hlen : items.length < 0x8000_0000_0000_0000) (rest : DataPath)
    (new : Value) :
    (Value.set (path ++ Segment.ofPosition items.length :: rest) new document).get? path =
      some (.array (items ++ [Value.set rest new .null])) := by
  rw [get?_set_append h.walks, ← set_array_end hlen rest new]
  rcases h with h | ⟨rfl, h | h, -⟩
  · rw [h, Option.getD_some]
  · rw [h]
    rfl
  · rw [h]
    rfl

end Value

/-! ## Parses over a document -/

open Binder

theorem conclude_document_ends (found : Resolved) {s : State (Recorded Value)} (hs : s.Sound) :
    ∃ b s' sets, (conclude Wiring.ofDocument.host.recorded found).Ends s (.ok b) s' ∧ b.path = found.path ∧
      s'.host.world = Value.setAll (writesOf found.updates) s.host.world ∧
      s'.host.calls = s.host.calls ++ sets ∧ transactions sets = transactionsOf found.updates := by
  by_cases hnone : found.updates = []
  · obtain ⟨b, s', hends, hhost, hpath⟩ := conclude_unwritten Wiring.ofDocument.host hs (.inr hnone)
    refine ⟨b, s', [], hends, hpath, ?_, by rw [hhost, List.append_nil], (transactionsOf_eq_nil_iff.2 hnone).symm⟩
    rw [hhost, hnone]
    rfl
  · obtain ⟨writes, b, s', hends, hpath, hhost, hasked⟩ := conclude_written Wiring.ofDocument.host hs rfl hnone
    obtain ⟨update, rest, hupdates⟩ := List.exists_cons_of_ne_nil hnone
    refine ⟨b, s', [.set writes (.ok ())], hends, hpath, ?_, congrArg Recorded.calls hhost, ?_⟩
    · rw [writesOf, ← hasked]
      exact congrArg Recorded.world hhost
    · rw [hupdates, transactionsOf, ← hupdates, writesOf, ← hasked]
      rfl

/-- A parse over a document of a text that asks once gives a binding, and writes if something is to be created. -/
theorem AsksOnce.parse_ends {raw : String} {base : DataPath} {lead : Option Value → Resolved}
    (ha : AsksOnce raw base lead) (limit : Nat) {s : State (Recorded Value)} (hs : s.Sound) :
    ∃ b s' made, (Wiring.ofDocument.binder.parse (limit + 1) raw).Ends s (.ok b) s' ∧ s'.Sound ∧
      b.path = (lead (s.host.world.get? base)).path ∧
      s'.host.world = Value.setAll ((lead (s.host.world.get? base)).updates.map fun update =>
        (update.path, update.value)) s.host.world ∧
      s'.host.calls = s.host.calls ++ made ∧
      ((∀ c ∈ made, c.isAsk) ↔ (lead (s.host.world.get? base)).updates = []) := by
  obtain ⟨asked, s₁, hresolve, hsound, -, hhost⟩ := ha.resolveText_ends Wiring.ofDocument.host limit hs fun b hb =>
    Wiring.ofDocument_get hb s.host.world
  obtain ⟨b, s', sets, hconclude, hpath, hworld, hcalls, hsets⟩ :=
    conclude_document_ends (lead (s.host.world.get? base)) hsound
  have hends : (Wiring.ofDocument.binder.parse (limit + 1) raw).Ends s (.ok b) s' := by
    change (Wiring.ofDocument.binder.parseWith _ Host.Overrides.unchanged.recorded (.text raw)).Ends s _ s'
    exact parseWith_text_ends hresolve hconclude
  have hsound' : s'.Sound := keeps_sound_parseText Wiring.ofDocument _ (limit + 1) raw s _ s' hs hends
  rw [hhost] at hworld hcalls
  refine ⟨b, s', _, hends, hsound', hpath, hworld, by rw [hcalls, List.append_assoc], ?_⟩
  have hasks : ∀ c ∈ [Call.get asked (.ok (s.host.world.get? base))], c.isAsk := List.forall_mem_singleton.2 rfl
  rw [← transactions_eq_nil_iff, transactions_append, transactions_eq_nil_iff.2 hasks, List.nil_append, hsets,
    transactionsOf_eq_nil_iff]

namespace QueryText

variable (q : QueryText)

/-! ## The created element -/

/-- The key is a name that spells no index, or quoted without a dot; with a dot only if nothing is wanted. -/
def KeyStands : Prop :=
  (q.quoted = false ∧ Segment.index? q.key = none) ∨ (q.quoted = true ∧ ('.' ∉ q.key.toList ∨ q.wanted = none))

/-- The value that is written. -/
def default : Value :=
  match q.wanted? with
  | some text => .string text
  | none => .null

/-- The element that a query creates. -/
def created : Value := Value.set (Resolved.segmentsOf q.key !q.quoted) q.default .null

theorem matchesQuery_field (key : String) (wanted : Option String) :
    Value.matchesQuery key wanted
      (.object [(key, match wanted with | some text => .string text | none => .null)]) = true := by
  cases wanted with
  | none => simp [Value.matchesQuery, Fields.find?, Value.isNull]
  | some text => simp [Value.matchesQuery, Fields.find?, Value.looseEq]

theorem matchesQuery_other {key field : String} (hne : field ≠ key) (value : Value) (wanted : Option String) :
    Value.matchesQuery key wanted (.object [(field, value)]) = wanted.isNone := by
  cases wanted with
  | none => simp [Value.matchesQuery, Fields.find?, hne]
  | some text => simp [Value.matchesQuery, Fields.find?, hne]

theorem matchesQuery_index (position : Int64) (new : Value) (key : String) (wanted : Option String) :
    (Value.set [.index position] new .null).matchesQuery key wanted = false := by
  simp only [Value.set, Value.isNull, if_true, Value.containerFor]
  cases (Segment.index position).position? with
  | none => rfl
  | some i => rfl

/-- The created element matches the query for the keys that stand, and for no others. -/
theorem matchesQuery_created : q.created.matchesQuery q.key q.wanted? = true ↔ q.KeyStands := by
  have hfield : q.created = .object [(q.key, q.default)] → q.created.matchesQuery q.key q.wanted? = true := by
    intro hcreated
    rw [hcreated]
    exact matchesQuery_field q.key q.wanted?
  cases hquoted : q.quoted with
  | false =>
    have hsegments := segmentsOf_of_not_mem (q.not_mem_key hquoted) true
    have hstands : q.KeyStands ↔ Segment.index? q.key = none := by
      simp [KeyStands, hquoted]
    rw [hstands]
    cases hindex : Segment.index? q.key with
    | none =>
      refine iff_of_true (hfield ?_) rfl
      rw [created, hquoted, Bool.not_false, hsegments, if_pos rfl, Segment.ofText, hindex]
      rfl
    | some position =>
      -- the created element is an array, and a query selects objects only
      refine iff_of_false ?_ (by simp)
      rw [created, hquoted, Bool.not_false, hsegments, if_pos rfl, Segment.ofText, hindex, matchesQuery_index]
      exact Bool.false_ne_true
  | true =>
    have hstands : q.KeyStands ↔ '.' ∉ q.key.toList ∨ q.wanted = none := by
      simp [KeyStands, hquoted]
    rw [hstands]
    by_cases hdot : '.' ∈ q.key.toList
    · -- the created object has its one field under the first piece, which is not the key
      obtain ⟨piece, next, more, hpieces, hpiece⟩ := Text.splitOn_of_mem hdot
      have hne : String.ofList piece ≠ q.key := by
        rintro heq
        rw [← heq, String.toList_ofList] at hdot
        exact hpiece hdot
      have hsegments : Resolved.segmentsOf q.key false =
          .key (String.ofList piece) :: (next :: more).map fun piece => .key (String.ofList piece) := by
        simp [Resolved.segmentsOf, hpieces]
      rw [created, hquoted, Bool.not_true, hsegments]
      change Value.matchesQuery q.key q.wanted? (.object [(String.ofList piece, _)]) = true ↔ _
      rw [matchesQuery_other hne, wanted?, Option.isNone_map, Option.isNone_iff_eq_none]
      simp [hdot]
    · refine iff_of_true (hfield ?_) (.inl hdot)
      rw [created, hquoted, Bool.not_true, segmentsOf_of_not_mem hdot]
      rfl

/-! ## What the query leads to -/

variable {target : Option Value}

theorem found_of_hit {i : Nat} (h : findElement? (Resolved.elements target) q.key q.wanted? = some i) :
    q.found target = ⟨q.base ++ [.ofPosition i], []⟩ := by
  unfold found Resolved.select
  rw [h]
  rfl

theorem found_of_miss (h : findElement? (Resolved.elements target) q.key q.wanted? = none) :
    q.found target = ⟨q.base ++ [.ofPosition (Resolved.elements target).length],
      [.of (q.base ++ .ofPosition (Resolved.elements target).length :: Resolved.segmentsOf q.key !q.quoted)
        q.default]⟩ := by
  unfold found Resolved.select
  rw [h]
  simp only [Resolved.push, Resolved.append, Updates.insert, List.append_assoc, List.singleton_append]
  rfl

/-! ## Two parses -/

theorem findElement?_created {items : List Value} (h : findElement? items q.key q.wanted? = none) :
    findElement? (items ++ [q.created]) q.key q.wanted? =
      if q.created.matchesQuery q.key q.wanted? then some items.length else none := by
  unfold findElement? at h ⊢
  rw [List.findIdx?_append, h, Option.none_or, List.findIdx?_singleton]
  split
  · simp
  · rfl

/-- A query that finds nothing has an element created for it. Parsed again it leads to that element if its key stands,
and else it has one more element created. -/
theorem parse_again_ends (limit : Nat) {s : State (Recorded Value)} {items : List Value} (hs : s.Sound)
    (hitems : s.host.world.Searched q.base items) (hlen : items.length < 0x8000_0000_0000_0000)
    (hmiss : findElement? items q.key q.wanted? = none) :
    ∃ b₁ s₁ b₂ s₂ made,
      (Wiring.ofDocument.binder.parse (limit + 1) q.raw).Ends s (.ok b₁) s₁ ∧
      (Wiring.ofDocument.binder.parse (limit + 1) q.raw).Ends s₁ (.ok b₂) s₂ ∧
      s₂.host.calls = s₁.host.calls ++ made ∧
      b₁.path = q.base ++ [.ofPosition items.length] ∧
      (q.KeyStands → b₂.path = b₁.path ∧ (∀ c ∈ made, c.isAsk) ∧ s₂.host.world = s₁.host.world) ∧
      (¬ q.KeyStands → b₂.path = q.base ++ [.ofPosition (items.length + 1)] ∧ ¬ ∀ c ∈ made, c.isAsk) := by
  obtain ⟨b₁, s₁, made₁, hends₁, hsound, hpath₁, hworld₁, -, -⟩ := q.asksOnce.parse_ends limit hs
  obtain ⟨b₂, s₂, made₂, hends₂, -, hpath₂, hworld₂, hcalls₂, hmade₂⟩ := q.asksOnce.parse_ends limit hsound
  have hfound := q.found_of_miss (hitems.elements_eq.symm ▸ hmiss)
  rw [hitems.elements_eq] at hfound
  rw [hfound] at hpath₁ hworld₁
  have htarget : s₁.host.world.get? q.base = some (.array (items ++ [q.created])) := by
    rw [hworld₁]
    exact hitems.set hlen _ _
  have helements : Resolved.elements (s₁.host.world.get? q.base) = items ++ [q.created] := by
    rw [htarget]
    rfl
  -- the second parse searches the old items, none of which matches, and then the created one
  have hagain := q.findElement?_created hmiss
  refine ⟨b₁, s₁, b₂, s₂, made₂, hends₁, hends₂, hcalls₂, hpath₁, ?_, ?_⟩
  · intro hstands
    rw [if_pos (q.matchesQuery_created.2 hstands)] at hagain
    have hfound₂ := q.found_of_hit (helements.symm ▸ hagain)
    rw [hfound₂] at hpath₂ hworld₂ hmade₂
    exact ⟨hpath₂.trans hpath₁.symm, hmade₂.2 rfl, hworld₂⟩
  · intro hstands
    rw [if_neg fun h => hstands (q.matchesQuery_created.1 h)] at hagain
    have hfound₂ := q.found_of_miss (helements.symm ▸ hagain)
    rw [helements, List.length_append, List.length_singleton] at hfound₂
    rw [hfound₂] at hpath₂ hmade₂
    refine ⟨hpath₂, fun hasks => ?_⟩
    exact List.cons_ne_nil _ _ (hmade₂.1 hasks)

/-- Parsing a query twice gives the same path, writes nothing the second time and leaves the document as it is exactly
when the query finds an element at once or its key stands. -/
theorem parse_twice_iff (limit : Nat) {s : State (Recorded Value)} {items : List Value} (hs : Reachable s)
    (hitems : s.host.world.Searched q.base items) (hlen : items.length < 0x8000_0000_0000_0000) :
    ∃ b₁ s₁ b₂ s₂ made,
      (Wiring.ofDocument.binder.parse (limit + 1) q.raw).Ends s (.ok b₁) s₁ ∧
      (Wiring.ofDocument.binder.parse (limit + 1) q.raw).Ends s₁ (.ok b₂) s₂ ∧
      s₂.host.calls = s₁.host.calls ++ made ∧
      (b₂.path = b₁.path ∧ (∀ c ∈ made, c.isAsk) ∧ s₂.host.world = s₁.host.world ↔
        findElement? items q.key q.wanted? ≠ none ∨ q.KeyStands) := by
  cases hfind : findElement? items q.key q.wanted? with
  | some i =>
    obtain ⟨b₁, s₁, made₁, hends₁, hsound, hpath₁, hworld₁, -, -⟩ := q.asksOnce.parse_ends limit hs.sound
    obtain ⟨b₂, s₂, made₂, hends₂, -, hpath₂, hworld₂, hcalls₂, hmade₂⟩ := q.asksOnce.parse_ends limit hsound
    have hfound := q.found_of_hit (hitems.elements_eq.symm ▸ hfind)
    rw [hfound] at hpath₁ hworld₁
    have hsame : s₁.host.world = s.host.world := hworld₁
    rw [hsame, hfound] at hpath₂ hworld₂ hmade₂
    refine ⟨b₁, s₁, b₂, s₂, made₂, hends₁, hends₂, hcalls₂, iff_of_true ?_ (.inl (by simp))⟩
    exact ⟨hpath₂.trans hpath₁.symm, hmade₂.2 rfl, hworld₂.trans hsame.symm⟩
  | none =>
    obtain ⟨b₁, s₁, b₂, s₂, made, hends₁, hends₂, hcalls, -, hstands, hgrows⟩ :=
      q.parse_again_ends limit hs.sound hitems hlen hfind
    refine ⟨b₁, s₁, b₂, s₂, made, hends₁, hends₂, hcalls, ?_⟩
    constructor
    · rintro ⟨-, hasks, -⟩
      by_cases h : q.KeyStands
      · exact .inr h
      · exact absurd hasks (hgrows h).2
    · rintro (h | h)
      · exact absurd rfl h
      · exact hstands h

/-- The query `items[name=x]` on a document without items. -/
theorem parse_twice_iff_item :
    let s : State (Recorded Value) := .start .unbounded ⟨.object [], []⟩
    Reachable s ∧ s.host.world.Searched [.key "items"] [] ∧ ([] : List Value).length < 0x8000_0000_0000_0000 ∧
      ∃ b₁ s₁ b₂ s₂ made,
        (Wiring.ofDocument.binder.parse 1 "items[name=x]").Ends s (.ok b₁) s₁ ∧
        (Wiring.ofDocument.binder.parse 1 "items[name=x]").Ends s₁ (.ok b₂) s₂ ∧
        s₂.host.calls = s₁.host.calls ++ made ∧
        b₂.path = b₁.path ∧ (∀ c ∈ made, c.isAsk) ∧ s₂.host.world = s₁.host.world := by
  intro s
  let q := itemNamed
  have hraw : q.raw = "items[name=x]" := itemNamed_raw
  have hreachable : Reachable s := .start _ _
  have hbase : q.base = [.key "items"] := by decide +kernel
  have hitems : s.host.world.Searched q.base [] := by
    rw [hbase]
    exact .inr ⟨rfl, .inl rfl, [.key "below"], List.cons_ne_nil _ _, .null, rfl, .null, rfl, trivial⟩
  obtain ⟨b₁, s₁, b₂, s₂, made, hends₁, hends₂, hcalls, hiff⟩ :=
    q.parse_twice_iff 0 hreachable hitems (by decide)
  have hstands : q.KeyStands := .inl ⟨rfl, by decide +kernel⟩
  rw [hraw] at hends₁ hends₂
  exact ⟨hreachable, hbase ▸ hitems, by decide, b₁, s₁, b₂, s₂, made, hends₁, hends₂, hcalls, hiff.2 (.inr hstands)⟩

/-- The key of `items[0=x]` spells an index: every parse of it creates one more element. -/
theorem parse_again_index :
    let s : State (Recorded Value) := .start .unbounded ⟨.object [("items", .array [])], []⟩
    ∃ b₁ s₁ b₂ s₂ made,
      (Wiring.ofDocument.binder.parse 1 "items[0=x]").Ends s (.ok b₁) s₁ ∧
      (Wiring.ofDocument.binder.parse 1 "items[0=x]").Ends s₁ (.ok b₂) s₂ ∧
      s₂.host.calls = s₁.host.calls ++ made ∧
      b₁.path = [.key "items", .index 0] ∧ b₂.path = [.key "items", .index 1] ∧ ¬ ∀ c ∈ made, c.isAsk := by
  intro s
  let q := ofNames "items" "0" "x" (by decide +kernel) (by decide +kernel) (by decide +kernel)
  have hraw : q.raw = "items[0=x]" := by decide +kernel
  have hbase : q.base = [.key "items"] := by decide +kernel
  have hitems : s.host.world.Searched q.base [] := by
    rw [hbase]
    exact .inl rfl
  obtain ⟨b₁, s₁, b₂, s₂, made, hends₁, hends₂, hcalls, hpath₁, -, hgrows⟩ :=
    q.parse_again_ends 0 (State.sound_start _ _) hitems (by decide) rfl
  have hindex : Segment.index? q.key ≠ none := by decide +kernel
  have hstands : ¬ q.KeyStands := by
    rintro (⟨-, h⟩ | ⟨h, -⟩)
    · exact hindex h
    · exact absurd h Bool.false_ne_true
  obtain ⟨hpath₂, hwrites⟩ := hgrows hstands
  rw [hraw] at hends₁ hends₂
  rw [hbase] at hpath₁ hpath₂
  exact ⟨b₁, s₁, b₂, s₂, made, hends₁, hends₂, hcalls, hpath₁, hpath₂, hwrites⟩

end QueryText

end DataBound
