-- SUMMARY: What the transaction of a parse writes for the queries that found no element on the way.
import DataBound.Proofs.Binder.Defaults
import DataBound.Proofs.Resolution.Misses

/-!
# Query defaults of a parse

A parse may miss many queries: in its own text, in nested references, and in the texts of values that are normalized on
the way. All of them end up in one transaction, which is keyed by the dotted text of the paths. A query whose path has
a text of its own gets its value written at that path. Where several have the same text, as two queries do that miss in
the same array with the same key, there is one write for all of them.
-/

namespace DataBound.Binder

variable {σ : Type}

/-! ## Parses with notes -/

/-- The services of a host, given how a text is normalized with notes. -/
def noting (host : Host σ) (normalize : String → Action (State σ) (Resolved × Noted)) : Noting (State σ) where
  valueAt := fun path => do
    let b ← intern path
    call (host.get b)
  evaluate := fun source => call (host.evaluate source)
  textOf := fun value => do
    let some value := value | throw .undefined
    let text ← MonadExcept.ofExcept value.pathText
    let (normalized, noted) ← normalize text
    modify fun s => { s with pending := Updates.merge s.pending normalized.updates }
    let joined := normalized.path.text
    if joined.isEmpty then throw .emptyReference
    pure (joined, noted.all)

/-- The normalization of a text, without taps on nodes. -/
def noteNormalize (binder : Binder σ) (host : Host σ) : (limit : Nat) → String → Action (State σ) (Resolved × Noted)
  | 0, _ => Action.exhausted
  | limit + 1, raw => do
    if ← binder.takesShortcut raw then pure (⟨.ofText raw, []⟩, .nothing)
    else
      let tree ← readTree raw
      Action.mapError (.unresolvedPath raw)
        ((noting host (binder.noteNormalize host limit)).resolveNodes .empty tree)

/-- What a text leads to, and all misses on the way. -/
def noteText (binder : Binder σ) (host : Host σ) (limit : Nat) (raw : String) :
    Action (State σ) (Resolved × List Miss) := do
  modify fun s => { s with pending := [] }
  let (normalized, noted) ← binder.noteNormalize host limit raw
  let s ← get
  pure (⟨normalized.path, Updates.merge s.pending normalized.updates⟩, noted.all)

/-- What a source leads to, and all misses on the way. -/
def noteSource (binder : Binder σ) (host : Host σ) (limit : Nat) : PathSource → Action (State σ) (Resolved × List Miss)
  | .text raw => binder.noteText host limit raw
  | .segments path => binder.noteText host limit path.text
  | .binding b => pure (⟨b.path, []⟩, [])

/-! ## Without the notes -/

variable {binder : Binder σ} {host : Host σ}

theorem noting_services {noted : String → Action (State σ) (Resolved × Noted)}
    {normalize : String → Action (State σ) Resolved} (h : ∀ raw, (noted raw).Annotates (normalize raw)) :
    (noting host noted).services = services host normalize := by
  have htext : (fun value => Prod.fst <$> (noting host noted).textOf value) = (services host normalize).textOf := by
    funext value
    cases value with
    | none => rfl
    | some value =>
      refine Action.annotates_bind fun text => ?_
      refine (h text).bind fun normalized noted => ?_
      refine Action.annotates_bind fun _ => ?_
      dsimp only
      split
      · exact Action.annotates_bind fun _ => Action.annotates_pure _ _
      · exact Action.annotates_pure _ _
  rw [Noting.services, htext]
  rfl

theorem noteNormalize_annotates (hno : binder.beforeNode.taps = []) (limit : Nat) :
    ∀ raw, (binder.noteNormalize host limit raw).Annotates (binder.normalize host limit raw) := by
  induction limit with
  | zero =>
    intro raw
    rfl
  | succ limit ih =>
    intro raw
    refine Action.annotates_bind fun shortcut => ?_
    cases shortcut with
    | true => exact Action.annotates_pure _ _
    | false =>
      refine Action.annotates_bind fun tree => .mapError ?_
      -- the texts of values are normalized at the smaller limit
      have hnodes := (noting host (binder.noteNormalize host limit)).resolveNodes_annotates .empty tree
      rw [noting_services ih, ← Services.resolve_of_no_taps] at hnodes
      have htaps : binder.beforeNode = ⟨[]⟩ := congrArg Hook.mk hno
      rw [htaps]
      exact hnodes

/-- Without the notes, `noteSource` is the resolution of a parse. -/
theorem noteSource_annotates (hno : binder.beforeNode.taps = []) (limit : Nat) (source : PathSource) :
    (binder.noteSource host limit source).Annotates (binder.resolveSource host limit source) := by
  have htext : ∀ raw, (binder.noteText host limit raw).Annotates (binder.resolveText host limit raw) := by
    intro raw
    refine Action.annotates_bind fun _ => ?_
    refine (noteNormalize_annotates hno limit raw).bind fun normalized noted => ?_
    exact Action.annotates_bind fun s => Action.annotates_pure _ _
  cases source with
  | text raw => exact htext raw
  | segments path => exact htext path.text
  | binding b => exact Action.annotates_pure _ _

/-! ## Updates from the notes -/

theorem keeps_pending_takesShortcut (binder : Binder σ) (raw : String) (updates : Updates) :
    Action.Keeps (fun s => s.pending = updates) (binder.takesShortcut raw) := by
  unfold takesShortcut
  split
  · exact Action.keeps_ofState fun _ hs => hs
  · exact Action.keeps_sequential.pure false

theorem noting_collects {noted : String → Action (State σ) (Resolved × Noted)}
    (h : ∀ raw {s s' : State σ} {normalized notes}, (noted raw).Ends s (.ok (normalized, notes)) s' →
      Noting.Gathered State.pending [] s normalized.updates s' notes) :
    (noting host noted).Collects State.pending where
  valueAt path s s' value hends := by
    obtain ⟨b, s₁, hintern, hcall⟩ := Action.bind_ends_ok.1 hends
    rw [(call_ends.1 hcall).2, (intern_ends.1 hintern).2]
  evaluate source s s' value hends := by
    rw [(call_ends.1 hends).2]
  textOf value s s' text texts hends := by
    cases value with
    | none => exact nomatch (Action.throw_ends.1 hends).1
    | some value =>
      obtain ⟨raw, s₁, hraw, hrest⟩ := Action.bind_ends_ok.1 hends
      have hs₁ : s₁ = s := by
        cases hpath : value.pathText with
        | error e =>
          rw [hpath] at hraw
          exact nomatch (Action.throw_ends.1 hraw).1
        | ok found =>
          rw [hpath] at hraw
          exact (Action.pure_ends.1 hraw).2
      obtain ⟨⟨normalized, notes⟩, s₂, hnormalized, hlast⟩ := Action.bind_ends_ok.1 hrest
      rw [Action.modify_bind_ends] at hlast
      dsimp only at hlast
      split at hlast
      · exact nomatch (Action.throw_bind_ends.1 hlast).1
      · obtain ⟨heq, rfl⟩ := Action.pure_ends.1 hlast
        cases heq
        obtain ⟨hown, htexts⟩ := h raw hnormalized
        dsimp only
        rw [hown, htexts, Updates.merge_merge_nil, Noted.all, Miss.merge_writes_append, hs₁]

/-- The updates of a normalized text are the writes for its own misses, and those for the misses of the texts of values
are pending. -/
theorem noteNormalize_gathered (limit : Nat) :
    ∀ raw {s s' : State σ} {normalized noted}, (binder.noteNormalize host limit raw).Ends s (.ok (normalized, noted)) s' →
      Noting.Gathered State.pending [] s normalized.updates s' noted := by
  induction limit with
  | zero => exact fun raw _ _ _ _ hends => (Action.not_exhausted_ends hends).elim
  | succ limit ih =>
    intro raw s s' normalized noted hends
    obtain ⟨shortcut, s₁, hshortcut, hends⟩ := Action.bind_ends_ok.1 hends
    have hs₁ : s₁.pending = s.pending := keeps_pending_takesShortcut binder raw _ s _ s₁ rfl hshortcut
    cases shortcut with
    | true =>
      obtain ⟨heq, rfl⟩ := Action.pure_ends.1 hends
      cases heq
      exact ⟨rfl, hs₁⟩
    | false =>
      obtain ⟨tree, s₂, htree, hends⟩ := Action.bind_ends_ok.1 hends
      have hkeeps : Action.Keeps (fun t => t.pending = s₁.pending) (readTree raw : Action (State σ) (List Node)) :=
        keeps_readTree (fun _ _ h => h) raw
      have hs₂ : s₂.pending = s₁.pending := hkeeps s₁ _ s₂ rfl htree
      have hnodes := (noting_collects ih).resolveNodes .empty tree (Action.mapError_ends_ok.1 hends)
      exact ⟨hnodes.own, by rw [hnodes.texts, hs₂, hs₁]⟩

/-- What a source asks to be written are the writes for its misses, one after the other. -/
theorem noteSource_updates {limit : Nat} {source : PathSource} {s s' : State σ} {found : Resolved}
    {misses : List Miss} (h : (binder.noteSource host limit source).Ends s (.ok (found, misses)) s') :
    found.updates = Updates.merge [] (Miss.writes misses) := by
  have htext : ∀ {raw}, (binder.noteText host limit raw).Ends s (.ok (found, misses)) s' →
      found.updates = Updates.merge [] (Miss.writes misses) := by
    intro raw hends
    rw [noteText, Action.modify_bind_ends] at hends
    obtain ⟨⟨normalized, noted⟩, s₁, hnormalized, hends⟩ := Action.bind_ends_ok.1 hends
    rw [Action.get_bind_ends] at hends
    obtain ⟨heq, rfl⟩ := Action.pure_ends.1 hends
    cases heq
    obtain ⟨hown, htexts⟩ := noteNormalize_gathered limit raw hnormalized
    dsimp only at hown htexts ⊢
    rw [hown, htexts, Updates.merge_merge_nil, Noted.all, Miss.merge_writes_append]
  cases source with
  | text raw => exact htext h
  | segments path => exact htext h
  | binding b =>
    obtain ⟨heq, -⟩ := Action.pure_ends.1 h
    cases heq
    rfl

/-! ## Two misses

A parse in which two queries miss, one in the text and one in the text of a value, and ask for a write at one place. -/

/-- Asking a document for a value gives it and leaves all but the interner as it is. -/
theorem noting_valueAt_ends {s : State (Recorded Value)} (hs : s.Sound) (path : DataPath)
    (normalize : String → Action (State (Recorded Value)) (Resolved × Noted)) :
    ∃ s', ((noting Wiring.ofDocument.host.recorded normalize).valueAt path).Ends s
        (.ok (s.host.world.get? path)) s' ∧ s'.Sound ∧ s'.host.world = s.host.world := by
  obtain ⟨b, interner, hintern, hsound, hpath⟩ := hs.intern_ends path
  have hanswer := Wiring.ofDocument_get hpath s.host.world
  refine ⟨_, hintern.bind (call_recorded_ends.2 ⟨?_, rfl⟩), ⟨hsound.trees, hsound.interner⟩, ?_⟩
  · rw [hanswer]
  · exact congrArg Prod.snd hanswer

/-- A text with a bracket is normalized by resolving its tree. -/
theorem noteNormalize_ends (binder : Binder σ) (host : Host σ) {s : State σ} {raw : String} {tree : List Node} (hs : s.Sound)
    (hbracket : '[' ∈ raw.toList) (hread : Path.read raw = .ok tree) (limit : Nat) :
    ∃ trees, ({ s with trees } : State σ).Sound ∧ ∀ {found s'},
      ((noting host (binder.noteNormalize host limit)).resolveNodes .empty tree).Ends { s with trees } (.ok found) s' →
      (binder.noteNormalize host (limit + 1) raw).Ends s (.ok found) s' := by
  obtain ⟨trees, htree, hsound⟩ := hs.readTree_ends raw
  rw [hread] at htree
  refine ⟨trees, hsound, fun hends => ?_⟩
  rw [noteNormalize, takesShortcut, not_isPlain_of_mem hbracket]
  exact (Action.pure_ends_self false s).bind (htree.bind (Action.mapError_ends_ok.2 hends))

/-- Resolving `name[key=wanted]`, with more to come. -/
theorem resolveNodes_query (n : Noting σ) (name key wanted : String) (rest : List Node) :
    n.resolveNodes .empty (.literal name false :: .query (.literal key false) (some (.literal wanted false)) :: rest) =
      (do
        let base := Resolved.segmentsOf name true
        let target ← n.valueAt base
        let items := Resolved.elements target
        let (r, noted) ← n.resolveNodes (Resolved.select ⟨base, []⟩ items key false (some wanted)) rest
        pure (r, .ofOwn (Miss.ofQuery base items key false (some wanted)) ++ noted)) := by
  simp [Noting.resolveNodes, Noting.resolveNode, Noting.nodeText, Noting.wantedText, Resolved.append, Resolved.empty,
    Node.isQuoted]

/-- Resolving a reference to a name, with nothing to come. -/
theorem resolveNodes_reference (n : Noting σ) (r : Resolved) (name : String) :
    n.resolveNodes r [.reference [.literal name false]] = (do
      let (text, texts) ← n.followed (Resolved.segmentsOf name true)
      pure (r.append text true, .ofTexts texts)) := by
  simp [Noting.resolveNodes, Noting.resolveNode, Resolved.append, Resolved.empty]

/-- The item `a` that both of two queries miss in `items`. -/
def missedItem (wanted : String) : Miss := ⟨[.key "items"], [], "a", false, some wanted, rfl⟩

theorem missedItem_ends {s : State (Recorded Value)} (hs : s.Sound)
    (hitems : s.host.world.get? [.key "items"] = some (.array [])) (wanted : String) (rest : List Node)
    (normalize : String → Action (State (Recorded Value)) (Resolved × Noted)) :
    ∃ s₁, s₁.Sound ∧ s₁.host.world = s.host.world ∧ ∀ {r noted s'},
      ((noting Wiring.ofDocument.host.recorded normalize).resolveNodes
        ⟨[.key "items", .index 0], [(missedItem wanted).update]⟩ rest).Ends s₁ (.ok (r, noted)) s' →
      ((noting Wiring.ofDocument.host.recorded normalize).resolveNodes .empty
        (.literal "items" false :: .query (.literal "a" false) (some (.literal wanted false)) :: rest)).Ends s
          (.ok (r, .ofOwn [missedItem wanted] ++ noted)) s' := by
  obtain ⟨s₁, hasked, hsound, hworld⟩ := noting_valueAt_ends hs [.key "items"] normalize
  rw [hitems] at hasked
  refine ⟨s₁, hsound, hworld, fun {r noted s'} hrest => ?_⟩
  have hbase : Resolved.segmentsOf "items" true = [.key "items"] := by decide +kernel
  have hselect : Resolved.select ⟨[.key "items"], []⟩ [] "a" false (some wanted) =
      ⟨[.key "items", .index 0], [(missedItem wanted).update]⟩ := by rfl
  rw [resolveNodes_query, hbase]
  refine hasked.bind (Action.Ends.bind (a := (r, noted)) ?_ (Action.pure_ends_self _ _))
  rw [Resolved.elements, hselect]
  exact hrest

/-- The text of the value `items[a=y]` is that of the position after the items, where `y` is missed. -/
theorem textOf_item_ends {s : State (Recorded Value)} (hs : s.Sound)
    (hitems : s.host.world.get? [.key "items"] = some (.array [])) (limit : Nat) :
    ∃ s', ((noting Wiring.ofDocument.host.recorded
        (Wiring.ofDocument.binder.noteNormalize Wiring.ofDocument.host.recorded (limit + 1))).textOf
          (some (.string "items[a=y]"))).Ends s (.ok ("items.0", [missedItem "y"])) s' := by
  let q := QueryText.ofNames "items" "a" "y" (by decide +kernel) (by decide +kernel) (by decide +kernel)
  have hread : Path.read "items[a=y]" = .ok q.tree := by
    have hraw : q.raw = "items[a=y]" := by decide +kernel
    exact hraw ▸ q.read_raw
  have htext : DataPath.text [.key "items", .index 0] = "items.0" := by decide +kernel
  obtain ⟨trees, hsound, hnormalize⟩ := noteNormalize_ends Wiring.ofDocument.binder Wiring.ofDocument.host.recorded hs
    (by decide) hread limit
  obtain ⟨s₁, -, -, hrun⟩ := missedItem_ends hsound hitems "y" []
    (Wiring.ofDocument.binder.noteNormalize Wiring.ofDocument.host.recorded limit)
  have hnormalized := hnormalize (hrun (by
    rw [Noting.resolveNodes]
    exact Action.pure_ends_self _ s₁))
  refine ⟨{ s₁ with pending := Updates.merge s₁.pending [(missedItem "y").update] },
    (Action.pure_ends_self "items[a=y]" s).bind (hnormalized.bind ?_)⟩
  rw [Action.modify_bind_ends]
  dsimp only
  rw [htext]
  exact Action.pure_ends.2 ⟨rfl, rfl⟩

theorem merge_pair {path other : DataPath} (h : path.text = other.text) (value new : Value) :
    Updates.merge [] [.of path value, .of other new] = [.of path new] := by
  change Updates.insert [.of path value] other new = _
  rw [Updates.insert, Update.of_key, if_pos h]
  rfl

/-- The text `items[a=x].{{ref}}`, in which both queries miss if `ref` leads to `items[a=y]`. -/
def twoQueries : String := "items[a=x].\x7b\x7bref\x7d\x7d"

/-- No items, and the reference to a text with a query of its own. -/
def twoQueriesStart : State (Recorded Value) :=
  .start .unbounded ⟨.object [("items", .array []), ("ref", .string "items[a=y]")], []⟩

theorem parse_twoQueries_ends :
    let w := Wiring.ofDocument
    ∃ b s' found s₁ writes,
      (w.binder.parseWith 2 Host.Overrides.unchanged.recorded (.text twoQueries)).Ends twoQueriesStart (.ok b) s' ∧
      (w.binder.noteSource w.host.recorded 2 (.text twoQueries)).Ends twoQueriesStart
        (.ok (found, [missedItem "y", missedItem "x"])) s₁ ∧
      s'.host.calls = s₁.host.calls ++ [.set writes (.ok ())] ∧
      writes.map (fun (b, value) => (b.path, value)) = [((missedItem "y").path, (missedItem "x").value)] := by
  intro w
  let outer := QueryText.ofNames "items" "a" "x" (by decide +kernel) (by decide +kernel) (by decide +kernel)
  have hread : Path.read twoQueries = .ok (outer.tree ++ [.reference [.literal "ref" false]]) := by
    have href : Path.ItemText "ref".toList [.literal "ref" false] := by
      have hitem := QueryText.itemText_name (by decide +kernel : Path.IsName "ref") .nil
      rwa [List.append_nil] at hitem
    have hparts := Path.PartsText.cons (.reference (.items (.last href))) .nil
    have hitem : Path.ItemText _ _ := .mk hparts (List.cons_ne_nil _ _) (List.isChain_singleton _) .nil
    have hraw : twoQueries.toList = outer.raw.toList ++ '.' :: ('{' :: '{' :: ("ref".toList ++ ['}', '}']) ++ [] ++ []) := by
      decide +kernel
    apply Path.read_eq_ok_of_pathText
    rw [hraw]
    exact .items (.append (.last hitem) outer.itemsText_tree)
  let normalize := w.binder.noteNormalize w.host.recorded 1
  -- the outer query misses, and then the inner one, in an array that has nothing written to it yet
  obtain ⟨trees, hsound, hnormalize⟩ := noteNormalize_ends w.binder w.host.recorded
    (State.sound_start _ _ : twoQueriesStart.Sound) (by decide +kernel) hread 1
  obtain ⟨s₁, hsound₁, hworld₁, hrun⟩ :=
    missedItem_ends hsound rfl "x" [.reference [.literal "ref" false]] normalize
  obtain ⟨s₂, hvalue, hsound₂, hworld₂⟩ := noting_valueAt_ends hsound₁ [.key "ref"] normalize
  rw [hworld₁] at hvalue hworld₂
  obtain ⟨s₃, htext⟩ := textOf_item_ends hsound₂ (by rw [hworld₂]; rfl) 0
  have href : Resolved.segmentsOf "ref" true = [.key "ref"] := by decide +kernel
  have hreference := hrun (by
    rw [resolveNodes_reference, href]
    exact (Action.mapError_ends_ok.2 (hvalue.bind htext)).bind (Action.pure_ends_self _ _))
  obtain ⟨found, hnoted⟩ : ∃ found, (w.binder.noteSource w.host.recorded 2 (.text twoQueries)).Ends twoQueriesStart
      (.ok (found, [missedItem "y", missedItem "x"])) s₃ :=
    ⟨⟨_, _⟩, Action.modify_bind_ends.2 ((hnormalize hreference).bind
      (Action.get_bind_ends.2 (Action.pure_ends.2 ⟨rfl, rfl⟩)))⟩
  have hupdates : found.updates = [.of (missedItem "y").path (missedItem "x").value] := by
    rw [noteSource_updates hnoted]
    exact merge_pair rfl _ _
  -- the host is asked to write what is left of both
  have hresolve := (noteSource_annotates rfl 2 (.text twoQueries)).ends_ok.2 ⟨_, hnoted⟩
  obtain ⟨hsound₃, -, -⟩ := resolveSource_asks (State.sound_start _ _) hresolve
  obtain ⟨writes, b, s', hends, -, hhost, hasked⟩ :=
    conclude_written w.host hsound₃ rfl (hupdates ▸ List.cons_ne_nil _ _)
  rw [hupdates] at hasked
  exact ⟨b, s', found, s₃, writes, parseWith_text_ends hresolve hends, hnoted, congrArg Recorded.calls hhost, hasked⟩

/-! ## Transactions -/

/-- For misses of one parse the transaction has one write for each text of their paths. The first miss with the text
gives the path and the last gives the value, and where the misses with the text agree, the write is what they ask for. -/
structure Settles (misses : List Miss) (writes : List (Binding × Value)) : Prop where
  nodup : (writes.map fun (b, _) => b.text).Nodup
  written : ∀ miss ∈ misses, ∃ b value, (b, value) ∈ writes ∧ b.text = miss.path.text
  first : ∀ b value, (b, value) ∈ writes →
    ∃ miss, misses.find? (fun miss => miss.path.text = b.text) = some miss ∧ b.path = miss.path
  last : ∀ b value, (b, value) ∈ writes →
    ∃ miss, misses.reverse.find? (fun miss => miss.path.text = b.text) = some miss ∧ value = miss.value
  kept : ∀ miss ∈ misses,
    (∀ other ∈ misses, other.path.text = miss.path.text → other.path = miss.path ∧ other.value = miss.value) →
    ∃ b, (b, miss.value) ∈ writes ∧ b.path = miss.path

/-- A miss is found among the writes for misses as it is found among the misses. -/
theorem find?_writes {misses : List Miss} {key : String} {write : Update}
    (h : List.find? (fun write => write.key = key) (Miss.writes misses) = some write) :
    ∃ miss, misses.find? (fun miss => miss.path.text = key) = some miss ∧ miss.update = write := by
  rw [Miss.writes, List.find?_map] at h
  exact Option.map_eq_some_iff.1 h

theorem settles_of_transaction {updates : Updates} {misses : List Miss} {writes : List (Binding × Value)}
    (h : Transaction updates writes) (hupdates : updates = Updates.merge [] (Miss.writes misses)) :
    Settles misses writes := by
  subst hupdates
  -- a write is one of the updates, whose path and value come from the first and the last miss
  have hasked : ∀ {b value}, (b, value) ∈ writes →
      ∃ update ∈ Updates.merge [] (Miss.writes misses), update.path = b.path ∧ update.value = value := by
    intro b value hmem
    have hwrite := List.mem_map_of_mem (f := fun (b, value) => (b.path, value)) hmem
    rw [h.asked] at hwrite
    obtain ⟨update, hupdate, heq⟩ := List.mem_map.1 hwrite
    obtain ⟨hpath, hvalue⟩ := Prod.mk.inj heq
    exact ⟨update, hupdate, hpath, hvalue⟩
  have htext : ∀ {b : Binding} {update}, update ∈ Updates.merge [] (Miss.writes misses) → update.path = b.path →
      update.key = b.text := by
    intro b update hmem hpath
    rw [Updates.own_key_merge Updates.wellKeyed_nil.own_key _ update hmem, hpath, b.text_eq]
  have hfirst : ∀ b value, (b, value) ∈ writes →
      ∃ miss, misses.find? (fun miss => miss.path.text = b.text) = some miss ∧ b.path = miss.path := by
    intro b value hmem
    obtain ⟨update, hupdate, hpath, -⟩ := hasked hmem
    obtain ⟨⟨write, hwrite, hsame⟩, -⟩ := Updates.mem_merge_nil (Miss.own_key_writes misses) hupdate
    obtain ⟨miss, hmiss, rfl⟩ := find?_writes hwrite
    rw [htext hupdate hpath] at hmiss
    exact ⟨miss, hmiss, hpath.symm.trans hsame.symm⟩
  have hlast : ∀ b value, (b, value) ∈ writes →
      ∃ miss, misses.reverse.find? (fun miss => miss.path.text = b.text) = some miss ∧ value = miss.value := by
    intro b value hmem
    obtain ⟨update, hupdate, hpath, hvalue⟩ := hasked hmem
    obtain ⟨-, write, hwrite, hsame⟩ := Updates.mem_merge_nil (Miss.own_key_writes misses) hupdate
    rw [Miss.writes, ← List.map_reverse] at hwrite
    obtain ⟨miss, hmiss, rfl⟩ := find?_writes hwrite
    rw [htext hupdate hpath] at hmiss
    exact ⟨miss, hmiss, hvalue.symm.trans hsame.symm⟩
  have hwritten : ∀ miss ∈ misses, ∃ b value, (b, value) ∈ writes ∧ b.text = miss.path.text := by
    intro miss hmem
    have hkey : miss.path.text ∈ Updates.keys (Updates.merge [] (Miss.writes misses)) :=
      Updates.mem_keys_merge [] (Miss.own_key_writes misses) (.inr (List.mem_map_of_mem (List.mem_map_of_mem hmem)))
    obtain ⟨update, hupdate, hkey⟩ := List.mem_map.1 hkey
    have hwrite : (update.path, update.value) ∈ writes.map fun (b, value) => (b.path, value) :=
      h.asked ▸ List.mem_map_of_mem hupdate
    obtain ⟨⟨b, value⟩, hmem', heq⟩ := List.mem_map.1 hwrite
    have hpath : b.path = update.path := congrArg Prod.fst heq
    refine ⟨b, value, hmem', ?_⟩
    rw [← htext hupdate hpath.symm, hkey]
  refine ⟨h.nodup, hwritten, hfirst, hlast, ?_⟩
  intro miss hmem hagree
  obtain ⟨b, value, hwrite, htext⟩ := hwritten miss hmem
  obtain ⟨early, hearly, hpath⟩ := hfirst b value hwrite
  obtain ⟨late, hlate, hvalue⟩ := hlast b value hwrite
  have hown : ∀ other ∈ misses, decide (other.path.text = b.text) = true →
      other.path = miss.path ∧ other.value = miss.value :=
    fun other hother htext' => hagree other hother ((of_decide_eq_true htext').trans htext)
  have hearlyText := List.find?_some hearly
  have hlateText := List.find?_some hlate
  obtain ⟨hpath', -⟩ := hown early (List.mem_of_find?_eq_some hearly) hearlyText
  obtain ⟨-, hvalue'⟩ := hown late (List.mem_reverse.1 (List.mem_of_find?_eq_some hlate)) hlateText
  exact ⟨b, hvalue'.symm.trans hvalue.symm ▸ hwrite, hpath.trans hpath'⟩

theorem eq_nil_of_merge_eq_nil {misses : List Miss} (h : Updates.merge [] (Miss.writes misses) = []) : misses = [] := by
  cases misses with
  | nil => rfl
  | cons miss misses =>
    have hkey : miss.path.text ∈ Updates.keys (Updates.merge [] (Miss.writes (miss :: misses))) :=
      Updates.mem_keys_merge [] (Miss.own_key_writes _) (.inr (List.mem_map_of_mem List.mem_cons_self))
    rw [h] at hkey
    exact absurd hkey List.not_mem_nil

/-- A parse that succeeds writes for the queries that it missed: nothing if it missed none, and else one transaction,
which settles them all. The misses are those that the resolution of the source comes upon. -/
theorem parseWith_settles_misses (host : Host σ) (limit : Nat) (parts : Host.Overrides σ) (source : PathSource)
    {s s' : State (Recorded σ)} {b : Binding} (hs : Reachable s) (hwritable : (host.override parts).readOnly = false)
    (h : ((Wiring.ofHost host).binder.parseWith limit parts.recorded source).Ends s (.ok b) s') :
    let resolution := (Wiring.ofHost host).binder.noteSource (host.override parts).recorded limit source
    resolution.Annotates ((Wiring.ofHost host).binder.resolveSource (host.override parts).recorded limit source) ∧
    ∃ found misses s₁ asks, resolution.Ends s (.ok (found, misses)) s₁ ∧ b.path = found.path ∧
      (∀ c ∈ asks, c.isAsk) ∧
      ((misses = [] ∧ s'.host.calls = s.host.calls ++ asks) ∨
        ∃ writes, misses ≠ [] ∧ s'.host.calls = s.host.calls ++ asks ++ [.set writes (.ok ())] ∧
          Settles misses writes) := by
  intro resolution
  have hnotes : resolution.Annotates
      ((Wiring.ofHost host).binder.resolveSource (host.override parts).recorded limit source) :=
    noteSource_annotates rfl limit source
  refine ⟨hnotes, ?_⟩
  by_cases hsource : ∃ b, source = .binding b
  · obtain ⟨b, rfl⟩ := hsource
    obtain ⟨heq, rfl⟩ := parseWith_binding_ends.1 h
    cases heq
    exact ⟨⟨b.path, []⟩, [], s', [], Action.pure_ends_self _ _, rfl, nofun, .inl ⟨rfl, (List.append_nil _).symm⟩⟩
  · have hparsed : ∀ b, source ≠ .binding b := fun b hb => hsource ⟨b, hb⟩
    rw [parseWith_eq _ limit parts hparsed] at h
    obtain ⟨found, s₁, hresolve, hconclude⟩ := Action.bind_ends_ok.1 h
    obtain ⟨misses, hmisses⟩ := hnotes.ends_ok.1 hresolve
    obtain ⟨hsound, ⟨asks, hcalls, hasks⟩, hnodup⟩ := resolveSource_asks hs.sound hresolve
    have hupdates := noteSource_updates hmisses
    by_cases hnone : found.updates = []
    · obtain ⟨b', t, hends, hhost, hpath⟩ := conclude_unwritten (host.override parts) hsound (.inr hnone)
      obtain ⟨heq, rfl⟩ := hconclude.unique hends
      cases heq
      refine ⟨found, misses, s₁, asks, hmisses, hpath, hasks, .inl ⟨?_, by rw [hhost, hcalls]⟩⟩
      exact eq_nil_of_merge_eq_nil (hupdates ▸ hnone)
    · obtain ⟨writes, b', t, hends, hpath, hhost, hasked⟩ := conclude_written (host.override parts) hsound hwritable hnone
      have htransaction := transaction_of_asked hnone (hnodup found rfl) hasked
      obtain ⟨heq, rfl⟩ := hconclude.unique hends
      -- the parse succeeded, and so the host took the writes
      cases hanswer : (((host.override parts).set writes).run.run s₁.host.world).1 with
      | error e =>
        rw [hanswer] at heq
        cases heq
      | ok _ =>
        rw [hanswer] at heq hhost
        cases heq
        refine ⟨found, misses, s₁, asks, hmisses, hpath, hasks, .inr ⟨writes, ?_, ?_, ?_⟩⟩
        · rintro rfl
          exact hnone hupdates
        · rw [← hcalls]
          exact congrArg Recorded.calls hhost
        · exact settles_of_transaction htransaction hupdates

/-- In `items[a=x].{{ref}}`, where `ref` leads to `items[a=y]`, both queries miss. -/
theorem parseWith_settles_misses_item :
    let w := Wiring.ofDocument
    Reachable twoQueriesStart ∧ (w.host.override .unchanged).readOnly = false ∧ ∃ b s',
      (w.binder.parseWith 2 Host.Overrides.unchanged.recorded (.text twoQueries)).Ends twoQueriesStart (.ok b) s' ∧
      ∃ asks writes, s'.host.calls = asks ++ [.set writes (.ok ())] ∧
        Settles [missedItem "y", missedItem "x"] writes := by
  intro w
  have hreachable : Reachable twoQueriesStart := .start _ _
  obtain ⟨b, s', found, s₁, writes, hparse, hnoted, -, -⟩ := parse_twoQueries_ends
  obtain ⟨-, found', misses, s₂, asks, hnoted', -, -, hways⟩ :=
    parseWith_settles_misses Wiring.ofDocument.host 2 .unchanged (.text twoQueries) hreachable rfl hparse
  -- the resolution comes upon the two misses, so that something is written
  obtain ⟨heq, -⟩ := hnoted'.unique hnoted
  cases heq
  obtain ⟨hnone, -⟩ | ⟨writes', -, hcalls, hsettles⟩ := hways
  · cases hnone
  · exact ⟨hreachable, rfl, b, s', hparse, asks, writes', hcalls, hsettles⟩

/-- In `items[a=x].{{ref}}`, where `ref` leads to `items[a=y]`, both queries miss. They ask for a write at the same place,
and only one of the values is written. -/
theorem parse_merges_misses :
    let w := Wiring.ofDocument
    let s : State (Recorded Value) :=
      .start .unbounded ⟨.object [("items", .array []), ("ref", .string "items[a=y]")], []⟩
    let raw := "items[a=x].\x7b\x7bref\x7d\x7d"
    ∃ b s' found misses s₁ asks writes,
      (w.binder.parse 2 raw).Ends s (.ok b) s' ∧
      (w.binder.noteSource w.host.recorded 2 (.text raw)).Ends s (.ok (found, misses)) s₁ ∧
      s'.host.calls = asks ++ [.set writes (.ok ())] ∧
      ∃ miss ∈ misses, miss.path = [.key "items", .index 0, .key "a"] ∧ miss.value = .string "y" ∧
        ∀ b, (b, miss.value) ∉ writes := by
  intro w s raw
  obtain ⟨b, s', found, s₁, writes, hparse, hnoted, hcalls, hasked⟩ := parse_twoQueries_ends
  have hpath : (missedItem "y").path = [.key "items", .index 0, .key "a"] := by decide +kernel
  refine ⟨b, s', found, _, s₁, s₁.host.calls, writes, hparse, hnoted, hcalls,
    missedItem "y", List.mem_cons_self, hpath, rfl, ?_⟩
  intro b hmem
  have hwrite := List.mem_map_of_mem (f := fun (b, value) => (b.path, value)) hmem
  rw [hasked] at hwrite
  have hvalue := congrArg Prod.snd (List.mem_singleton.1 hwrite)
  exact absurd (Value.string.inj hvalue) (by decide)

end DataBound.Binder
