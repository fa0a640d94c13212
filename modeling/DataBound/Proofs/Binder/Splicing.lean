-- SUMMARY: A reference that stands as a segment is the path that the referenced value spells, spliced in.
import DataBound.Proofs.Binder.Following

/-!
# References spliced into a path

A reference among words, as in `a.{{r}}.b`, is followed once. The text of the value becomes a path, the path a text, and
that text segments again. For plain texts, integers and booleans the two conversions undo each other up to the spelling
of integers, so the result is the path of the text in which the value is written in place of the reference.
-/

namespace DataBound

/-- The value is a plain text, an integer of 64 bits or a boolean, and this is its text. -/
inductive Value.HasText : Value → String → Prop
  | string {text : String} : Binder.PlainText text.toList → HasText (.string text) text
  | integer (n : Int64) : HasText (.ofInt64 n) (Segment.index n).text
  | boolean (flag : Bool) : HasText (.bool flag) (if flag then "true" else "false")

theorem DataPath.ofText_text_index (n : Int64) : ofText (Segment.index n).text = [.index n] := by
  have hindex := ofText_text (List.forall_mem_singleton.2 (Segment.rereads_index n))
  rwa [text_singleton] at hindex

namespace Binder

/-! ## Plain texts -/

/-- A plain text without a dot. -/
def IsWord (word : String) : Prop := word.toList ≠ [] ∧ ∀ c ∈ word.toList, isPlainChar c

instance (word : String) : Decidable (IsWord word) :=
  decidable_of_iff (word.toList ≠ [] ∧ word.toList.all isPlainChar = true) (by rw [IsWord, List.all_eq_true])

theorem IsWord.isName {word : String} (h : IsWord word) : Path.IsName word :=
  ⟨h.1, fun c hc => isNameChar_of_plain (h.2 c hc)⟩

theorem plainText_index (n : Int64) : PlainText (Segment.index n).text.toList := by
  refine .word (Text.intRepr_ne_nil _) fun c hc => ?_
  rcases Text.of_mem_intRepr hc with hdigit | rfl
  · simp [isPlainChar, Char.isAlphanum, hdigit]
  · decide

end Binder

namespace Value.HasText

open Binder

variable {v : Value} {text : String}

theorem pathText_eq (h : v.HasText text) : v.pathText = .ok text := by
  cases h with
  | string _ => rfl
  | integer _ => rfl
  | boolean _ => rfl

theorem plainText (h : v.HasText text) : PlainText text.toList := by
  cases h with
  | string htext => exact htext
  | integer n => exact plainText_index n
  | boolean flag =>
    rw [← isPlain_iff_plainText]
    cases flag <;> decide +kernel

end Value.HasText

namespace Binder

/-- The path of a plain text is read back from its own text. -/
theorem PlainText.ofText_text {text : String} (h : PlainText text.toList) :
    DataPath.ofText (DataPath.ofText text).text = DataPath.ofText text ∧ (DataPath.ofText text).text ≠ "" := by
  have hrereads : ∀ s ∈ DataPath.ofText text, s.Rereads := by
    rw [h.ofText_eq, List.map_map]
    intro s hs
    obtain ⟨piece, hpiece, rfl⟩ := List.mem_map.1 hs
    have hplain := (isPlain_iff_plainText text).2 h
    rw [isPlain, List.all_eq_true] at hplain
    apply Segment.rereads_ofText
    · rw [String.toList_ofList]
      simpa using (Bool.and_eq_true_iff.1 (hplain piece hpiece)).1
    · rw [String.toList_ofList]
      exact Text.not_mem_of_mem_splitOn hpiece
  refine ⟨DataPath.ofText_text hrereads, ?_⟩
  rw [ne_eq, DataPath.text_eq_empty_iff hrereads, h.ofText_eq, List.map_eq_nil_iff, List.map_eq_nil_iff]
  exact List.splitOn_ne_nil _ _

/-! ## Texts with words around -/

/-- The text with words before and after it, and dots between them. -/
def around (before : List String) (middle : List Char) (after : List String) : String :=
  String.ofList (List.intercalate ['.'] (before.map String.toList ++ middle :: after.map String.toList))

section

variable {before after : List String} (hwords : ∀ word ∈ before ++ after, IsWord word)

include hwords

theorem pieces_around (middle : List Char) :
    List.splitOn '.' (around before middle after).toList =
      before.map String.toList ++ List.splitOn '.' middle ++ after.map String.toList := by
  have hpieces : ∀ {words : List String}, (∀ word ∈ words, IsWord word) →
      (words.map String.toList).flatMap (List.splitOn '.') = words.map String.toList := by
    intro words h
    exact Text.flatMap_splitOn_of_not_mem (List.forall_mem_map.2 fun word hmem => not_mem_of_plain (h word hmem).2)
  rw [around, String.toList_ofList, Text.splitOn_intercalate_eq_flatMap (by simp), List.flatMap_append, List.flatMap_cons,
    hpieces fun word hmem => hwords word (List.mem_append_left _ hmem),
    hpieces fun word hmem => hwords word (List.mem_append_right _ hmem), List.append_assoc]

theorem plainText_around {text : String} (htext : PlainText text.toList) :
    PlainText (around before text.toList after).toList := by
  have hword : ∀ {words : List String}, (∀ word ∈ words, IsWord word) →
      ∀ cs ∈ words.map String.toList, cs ≠ [] ∧ ∀ c ∈ cs, isPlainChar c := by
    intro words h cs hcs
    obtain ⟨word, hmem, rfl⟩ := List.mem_map.1 hcs
    exact h word hmem
  suffices hpieces : ∀ cs ∈ List.splitOn '.' (around before text.toList after).toList, cs ≠ [] ∧ ∀ c ∈ cs, isPlainChar c by
    have hjoined := plainText_join (List.splitOn_ne_nil _ _) hpieces
    rwa [List.intercalate_splitOn] at hjoined
  intro cs hcs
  rw [pieces_around hwords, List.mem_append, List.mem_append] at hcs
  rcases hcs with (hcs | hcs) | hcs
  · exact hword (fun word hmem => hwords word (List.mem_append_left _ hmem)) cs hcs
  · have hplain := (isPlain_iff_plainText text).2 htext
    rw [isPlain, List.all_eq_true] at hplain
    simpa using hplain cs hcs
  · exact hword (fun word hmem => hwords word (List.mem_append_right _ hmem)) cs hcs

/-- The path of the text has the segments of the words and those of the text between them. -/
theorem ofText_around {text : String} (htext : PlainText text.toList) :
    DataPath.ofText (around before text.toList after) =
      before.map Segment.ofText ++ DataPath.ofText text ++ after.map Segment.ofText := by
  have hwords' : ∀ words : List String, (words.map String.toList).map String.ofList = words := by
    intro words
    rw [List.map_map]
    exact (List.map_congr_left fun word _ => String.ofList_toList).trans (List.map_id words)
  rw [(plainText_around hwords htext).ofText_eq, pieces_around hwords, htext.ofText_eq]
  simp only [List.map_append, hwords']

/-! ## A reference among words -/

theorem read_around {raw : List Char} {node : Node} (hnode : Path.PartText raw node) :
    Path.read (around before raw after) =
      .ok (before.map (fun word => .literal word false) ++ node :: after.map fun word => .literal word false) := by
  have hname : ∀ word ∈ before ++ after, Path.ItemText word.toList [.literal word false] :=
    fun word hmem => (hwords word hmem).isName.partText.itemText
  let part (word : String) : List Char × List Node := (word.toList, [.literal word false])
  have hparts : ∀ item ∈ before.map part ++ (raw, [node]) :: after.map part, Path.ItemText item.1 item.2 := by
    intro item hitem
    rw [List.mem_append, List.mem_cons, List.mem_map, List.mem_map] at hitem
    rcases hitem with ⟨word, hmem, rfl⟩ | rfl | ⟨word, hmem, rfl⟩
    · exact hname word (List.mem_append_left _ hmem)
    · exact hnode.itemText
    · exact hname word (List.mem_append_right _ hmem)
  have hitems := itemsText_join (List.append_ne_nil_of_right_ne_nil _ (List.cons_ne_nil _ _)) hparts
  have htexts : (before.map part ++ (raw, [node]) :: after.map part).map Prod.fst =
      before.map String.toList ++ raw :: after.map String.toList := by
    simp [part, Function.comp_def]
  have hnodes : (before.map part ++ (raw, [node]) :: after.map part).flatMap Prod.snd =
      before.map (fun word => .literal word false) ++ node :: after.map fun word => .literal word false := by
    simp [part, List.flatMap_map, ← List.map_eq_flatMap]
  rw [htexts, hnodes] at hitems
  apply Path.read_eq_ok_of_pathText
  rw [around, String.toList_ofList]
  exact .items hitems

theorem resolveNodes_around {σ : Type} (services : Services σ) {node : Node} {path : DataPath}
    (hnode : RefersTo node path) :
    services.resolveNodes .empty
        (before.map (fun word => .literal word false) ++ node :: after.map fun word => .literal word false) = (do
      let text ← services.followed path
      pure ⟨before.map Segment.ofText ++ Resolved.segmentsOf text true ++ after.map Segment.ofText, []⟩) := by
  have hbefore : ∀ word ∈ before, ∀ c ∈ word.toList, Path.isNameChar c :=
    fun word hmem => (hwords word (List.mem_append_left _ hmem)).isName.2
  have hafter : ∀ word ∈ after, ∀ c ∈ word.toList, Path.isNameChar c :=
    fun word hmem => (hwords word (List.mem_append_right _ hmem)).isName.2
  rw [QueryText.resolveNodes_names services hbefore, Services.resolveNodes, hnode.resolveNode, bind_assoc]
  refine bind_congr fun text => ?_
  have hnames := QueryText.resolveNodes_names services hafter
    (Resolved.append ⟨before.map Segment.ofText, []⟩ text true) []
  rw [List.append_nil, Services.resolveNodes] at hnames
  rw [pure_bind]
  exact hnames

end

/-! ## Parsing -/

variable {σ : Type} {before after : List String} {reference text : String} {v : Value} {host : Host σ} {world : σ}
  {s : State (Recorded σ)}

/-- A plain text, an integer or a boolean stands for the text of its path. -/
theorem textOf_hasText_ends (w : Host σ) (limit : Nat) (hv : v.HasText text) (hs : s.Sound) :
    ∃ trees,
      ((services host.recorded ((Wiring.ofHost w).binder.normalize host.recorded (limit + 1))).textOf (some v)).Ends s
        (.ok (DataPath.ofText text).text) { s with trees } ∧ ({ s with trees } : State (Recorded σ)).Sound := by
  obtain ⟨trees, hnormalize, hsound⟩ := hv.plainText.asksNothing.normalize_ends
    (rfl : (Wiring.ofHost w).binder.beforeNode = ∅) host.recorded limit hs
  rw [lookedAt_ofHost] at hnormalize hsound
  have hne := hv.plainText.ofText_text.2
  exact ⟨trees, (textOf_ends_iff hv.pathText_eq).2 (.inr ⟨_, _, hnormalize, rfl, (if_neg hne).symm⟩), hsound⟩

/-- The reference is followed, and the segments of the value's text come in its place. -/
theorem normalize_spliced_ends (w : Host σ) (limit : Nat) (hwords : ∀ word ∈ before ++ after, IsWord word)
    (hreference : PlainText reference.toList) (hv : v.HasText text) (hs : s.Sound)
    (hget : (host.get (s.interner.intern (.ofText reference)).1).run.run s.host.world = (.ok (some v), world)) :
    ∃ s', ((Wiring.ofHost w).binder.normalize host.recorded (limit + 2) (around before (referTo reference) after)).Ends s
        (.ok ⟨before.map Segment.ofText ++ DataPath.ofText text ++ after.map Segment.ofText, []⟩) s' ∧
      s'.Sound ∧ s'.pending = s.pending ∧
      s'.host = ⟨world, s.host.calls ++ [.get (s.interner.intern (.ofText reference)).1 (.ok (some v))]⟩ := by
  obtain ⟨node, hpart, hnode⟩ := hreference.asksNothing.refersTo
  have hplain : isPlain (around before (referTo reference) after) = false := by
    have hbrace : ∃ piece ∈ List.splitOn '.' (referTo reference), '{' ∈ piece :=
      Text.exists_mem_splitOn List.mem_cons_self (by decide)
    obtain ⟨piece, hpiece, hbrace⟩ := hbrace
    rw [isPlain, pieces_around hwords, List.all_eq_false]
    refine ⟨piece, List.mem_append_left _ (List.mem_append_right _ hpiece), ?_⟩
    rw [Bool.and_eq_true, not_and, List.all_eq_true]
    intro _ hall
    exact absurd (hall '{' hbrace) (by decide)
  obtain ⟨trees, hsound, hnormalize⟩ := normalize_read_ends (rfl : (Wiring.ofHost w).binder.beforeNode = ∅)
    host.recorded (limit + 1) hplain (read_around hwords hpart) hs
  obtain ⟨s₁, hvalue, hsound₁, hpending, hhost⟩ :=
    hsound.valueAt_ends hget ((Wiring.ofHost w).binder.normalize host.recorded (limit + 1))
  obtain ⟨trees', htext, hsound'⟩ := textOf_hasText_ends w limit hv hsound₁
  let spliced (text : String) : Resolved :=
    ⟨before.map Segment.ofText ++ Resolved.segmentsOf text true ++ after.map Segment.ofText, []⟩
  have hfollowed := (followed_ends_iff hvalue).2 ⟨_, htext, rfl⟩
  have hresolve := hfollowed.bind (f := fun text => pure (spliced text)) (Action.pure_ends_self _ _)
  obtain ⟨hread, hne⟩ := hv.plainText.ofText_text
  rw [← resolveNodes_around hwords _ hnode] at hresolve
  simp only [spliced, Resolved.segmentsOf_eq_ofText hne, hread] at hresolve
  exact ⟨_, hnormalize.2 ⟨_, hresolve, rfl⟩, hsound', hpending, hhost⟩

/-- A reference used as a segment is the referenced path spliced in. From every state of a binder without taps, and
whatever host it has: where the value at the reference is a plain text, an integer or a boolean, a text of words with
the reference among them is parsed with exactly one call, which asks for that value. The binding has the segments of the
words with those of the value's text between them, for an integer just its index, and so it has the path to which the text
is parsed that has the value's text in place of the reference. -/
theorem parse_spliced (host : Host σ) (limit : Nat) (parts : Host.Overrides σ)
    (hwords : ∀ word ∈ before ++ after, IsWord word) (hreference : PlainText reference.toList) (hv : v.HasText text)
    (hs : Reachable s)
    (hget : ((host.override parts).get (s.interner.intern (.ofText reference)).1).run.run s.host.world =
      (.ok (some v), world)) :
    let parse : String → Action (State (Recorded σ)) Binding :=
      fun raw => (Wiring.ofHost host).binder.parseWith (limit + 2) parts.recorded (.text raw)
    ∃ b s' asked, (parse (around before (referTo reference) after)).Ends s (.ok b) s' ∧
      asked.path = .ofText reference ∧ s'.host = ⟨world, s.host.calls ++ [.get asked (.ok (some v))]⟩ ∧
      b.path = before.map Segment.ofText ++ DataPath.ofText text ++ after.map Segment.ofText ∧
      (∀ n, v = .ofInt64 n → b.path = before.map Segment.ofText ++ .index n :: after.map Segment.ofText) ∧
      ∀ u, Reachable u → ∃ b' u', (parse (around before text.toList after)).Ends u (.ok b') u' ∧ b'.path = b.path := by
  intro parse
  have hreset : ({ s with pending := [] } : State (Recorded σ)).Sound := ⟨hs.sound.trees, hs.sound.interner⟩
  obtain ⟨s₁, hnormalize, hsound, hpending, hhost⟩ :=
    normalize_spliced_ends host limit hwords hreference hv hreset hget
  have hresolve := resolveText_ends_of_normalize hnormalize
  rw [hpending] at hresolve
  let found : Resolved := ⟨before.map Segment.ofText ++ DataPath.ofText text ++ after.map Segment.ofText, []⟩
  have hquiet : (host.override parts).readOnly = true ∨ found.updates = [] := .inr rfl
  obtain ⟨b, s', hconclude, hhost', hpath⟩ := conclude_unwritten (host.override parts) hsound hquiet
  have hasked := hs.sound.interner.intern_path (.ofText reference)
  refine ⟨b, s', _, parseWith_text_ends hresolve hconclude, hasked, hhost'.trans hhost, hpath, ?_, ?_⟩
  · rintro n rfl
    have htext := hv.pathText_eq
    cases htext
    rw [hpath]
    change _ ++ DataPath.ofText (Segment.index n).text ++ _ = _
    rw [DataPath.ofText_text_index, List.append_assoc]
    rfl
  · intro u hu
    have hplain := plainText_around hwords hv.plainText
    obtain ⟨b', u', hends, hpath', -⟩ := hplain.asksNothing.parse_path host ∅ (limit + 1) parts hu.sound
    exact ⟨b', u', hends, hpath'.trans ((ofText_around hwords hv.plainText).trans hpath.symm)⟩

/-- Both `01` in a referenced text and the integer itself are the position 1. -/
theorem parse_spliced_items :
    let s : State (Recorded Value) := .start .unbounded ⟨.object [("n", .ofInt64 1), ("t", .string "x.01")], []⟩
    let parse : String → Action (State (Recorded Value)) Binding :=
      fun raw => Wiring.ofDocument.binder.parseWith 2 Host.Overrides.unchanged.recorded (.text raw)
    (∃ b s', (parse "a.\x7b\x7bn\x7d\x7d").Ends s (.ok b) s' ∧ b.path = [.key "a", .index 1]) ∧
    ∃ b s' b' s'', (parse "\x7b\x7bt\x7d\x7d.b").Ends s (.ok b) s' ∧ (parse "x.01.b").Ends s (.ok b') s'' ∧
      b.path = [.key "x", .index 1, .key "b"] ∧ b'.path = b.path := by
  intro s parse
  have hs : Reachable s := .start _ _
  have hget : ∀ {raw path}, DataPath.ofText raw = path →
      (Wiring.ofDocument.host.get (s.interner.intern (.ofText raw)).1).run.run s.host.world =
        (.ok (s.host.world.get? path), s.host.world) := by
    rintro raw _ rfl
    exact Wiring.ofDocument_get (hs.sound.interner.intern_path _) s.host.world
  constructor
  · have hwords : ∀ word ∈ ["a"] ++ [], IsWord word := by decide +kernel
    have hreference : PlainText "n".toList := (isPlain_iff_plainText "n").1 (by decide +kernel)
    have hn : DataPath.ofText "n" = [.key "n"] := by decide +kernel
    obtain ⟨b, s', -, hends, -, -, -, hindex, -⟩ := parse_spliced Wiring.ofDocument.host 0 .unchanged hwords hreference
      (.integer 1) hs (hget hn)
    have hraw : around ["a"] (referTo "n") [] = "a.\x7b\x7bn\x7d\x7d" := by decide +kernel
    rw [hraw] at hends
    exact ⟨b, s', hends, (hindex 1 rfl).trans (by decide +kernel)⟩
  · have hwords : ∀ word ∈ [] ++ ["b"], IsWord word := by decide +kernel
    have hreference : PlainText "t".toList := (isPlain_iff_plainText "t").1 (by decide +kernel)
    have htext : PlainText "x.01".toList := (isPlain_iff_plainText "x.01").1 (by decide +kernel)
    have ht : DataPath.ofText "t" = [.key "t"] := by decide +kernel
    obtain ⟨b, s', -, hends, -, -, hpath, -, hplain⟩ := parse_spliced Wiring.ofDocument.host 0 .unchanged hwords hreference
      (.string htext) hs (hget ht)
    obtain ⟨b', s'', hends', hpath'⟩ := hplain s hs
    have hraw : around [] (referTo "t") ["b"] = "\x7b\x7bt\x7d\x7d.b" := by decide +kernel
    have hfilled : around [] "x.01".toList ["b"] = "x.01.b" := by decide +kernel
    rw [hraw] at hends
    rw [hfilled] at hends'
    exact ⟨b, s', b', s'', hends, hends', hpath.trans (by decide +kernel), hpath'⟩

end Binder

end DataBound
