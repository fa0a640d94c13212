-- SUMMARY: Over a whole run of parses the queries below one path keep naming the same elements.
import DataBound.Proofs.Binder.Defaults

/-!
# Records over a run

A `RecordText` is a query below a dotted path, with names that lead on from the element. Parses of such texts over one
document search the same array, and each may put one more element at its end. The first element that matches a query
stays the first one when the array grows, so that a query keeps naming the record it has named once, however
other queries come between.
-/

namespace DataBound

namespace QueryText

/-! ## What a query names -/

/-- In the document the query names the element at the position: it matches, and none before it does. -/
def Names (q : QueryText) (document : Value) (i : Nat) : Prop :=
  ∃ items item, document.get? q.base = some (.array items) ∧ items[i]? = some item ∧
    item.matchesQuery q.key q.wanted? = true ∧
    ∀ j < i, ∀ earlier, items[j]? = some earlier → earlier.matchesQuery q.key q.wanted? = false

variable {q : QueryText} {document : Value} {items : List Value} {i : Nat}

theorem names_iff (hitems : document.get? q.base = some (.array items)) :
    q.Names document i ↔ findElement? items q.key q.wanted? = some i := by
  rw [findElement?, List.findIdx?_eq_some_iff_getElem]
  constructor
  · rintro ⟨items', item, hitems', hitem, hmatch, hbefore⟩
    rw [hitems, Option.some.injEq, Value.array.injEq] at hitems'
    subst hitems'
    obtain ⟨hlt, rfl⟩ := List.getElem?_eq_some_iff.1 hitem
    refine ⟨hlt, hmatch, fun j hj => ?_⟩
    rw [hbefore j hj _ (List.getElem?_eq_getElem (hj.trans hlt))]
    exact Bool.false_ne_true
  · rintro ⟨hlt, hmatch, hbefore⟩
    refine ⟨items, items[i], hitems, List.getElem?_eq_getElem hlt, hmatch, ?_⟩
    intro j hj earlier hearlier
    obtain ⟨_, rfl⟩ := List.getElem?_eq_some_iff.1 hearlier
    exact Bool.eq_false_iff.2 (hbefore j hj)

/-- The first element that matches stays the first one in a longer array. -/
theorem findElement?_append {more : List Value} {key : String} {wanted : Option String}
    (h : findElement? items key wanted = some i) : findElement? (items ++ more) key wanted = some i := by
  unfold findElement? at h ⊢
  rw [List.findIdx?_append, h, Option.some_or]

end QueryText

/-! ## Texts -/

/-- A query below names, and names that lead on from the element. -/
structure RecordText extends QueryText where
  below : List String
  isName_below : ∀ name ∈ below, Path.IsName name

namespace RecordText

variable (q : RecordText)

/-- The text: the query, and the names with a dot before each. -/
def raw : String := String.ofList (q.toQueryText.raw.toList ++ q.below.flatMap fun name => '.' :: name.toList)

/-- The tree of the text. -/
def tree : List Node := q.toQueryText.tree ++ q.below.map fun name => .literal name false

/-- What the text leads to when the value below which it searches is `target`. -/
def lead (target : Option Value) : Resolved :=
  ⟨(q.found target).path ++ q.below.map Segment.ofText, (q.found target).updates⟩

/-- The query `['key'='wanted']`, or `['key'=]` if nothing is wanted, between quotes of any kind. -/
def ofQuotes (quote : Char) (names below : List String) (key : String) (wanted : Option String)
    (hquote : Path.isQuote quote) (hnames : names ≠ [] ∧ ∀ name ∈ names, Path.IsName name)
    (hbelow : ∀ name ∈ below, Path.IsName name) (hkey : key.toList ≠ [] ∧ ∀ c ∈ key.toList, ¬ Path.isQuote c)
    (hwanted : ∀ text ∈ wanted, text.toList ≠ [] ∧ ∀ c ∈ text.toList, ¬ Path.isQuote c) : RecordText where
  names
  below
  key
  quoted := true
  wanted := wanted.map fun text => (text, true)
  keyText := quote :: (key.toList ++ [quote])
  wantedText := wanted.elim [] fun text => quote :: (text.toList ++ [quote])
  ne_nil := hnames.1
  isName := hnames.2
  isName_below := hbelow
  key_spelled := by
    have h := Path.OperandText.quoted hquote hkey.1 hkey.2
    rwa [String.ofList_toList] at h
  wanted_spelled := by
    cases wanted with
    | none => exact .nothing
    | some text =>
      obtain ⟨hne, hchars⟩ := hwanted text rfl
      have h := Path.WantedText.operand (Path.OperandText.quoted hquote hne hchars)
      rwa [String.ofList_toList] at h

/-- Whether a text can stand between quotes can be computed. -/
theorem unquoted_of_all {text : String} (h : (!text.toList.isEmpty && text.toList.all fun c => !Path.isQuote c) = true) :
    text.toList ≠ [] ∧ ∀ c ∈ text.toList, ¬ Path.isQuote c := by
  simpa using h

theorem unquoted?_of_all {text : String} (h : (!text.toList.isEmpty && text.toList.all fun c => !Path.isQuote c) = true) :
    ∀ wanted ∈ some text, wanted.toList ≠ [] ∧ ∀ c ∈ wanted.toList, ¬ Path.isQuote c := by
  rintro _ ⟨⟩
  exact unquoted_of_all h

theorem itemsText_below {cs : List Char} {nodes : List Node} {below : List String}
    (hbelow : ∀ name ∈ below, Path.IsName name) (h : Path.ItemsText cs nodes) :
    Path.ItemsText (cs ++ below.flatMap fun name => '.' :: name.toList)
      (nodes ++ below.map fun name => .literal name false) := by
  induction below generalizing cs nodes with
  | nil => simpa using h
  | cons name below ih =>
    have hname := QueryText.itemText_name (hbelow name List.mem_cons_self) .nil
    rw [List.append_nil] at hname
    have hrest := ih (fun other hmem => hbelow other (List.mem_cons_of_mem _ hmem)) (.append (.last hname) h)
    simpa using hrest

theorem read_raw : Path.read q.raw = .ok q.tree := by
  apply Path.read_eq_ok_of_pathText
  rw [raw, String.toList_ofList]
  exact .items (itemsText_below q.isName_below q.itemsText_tree)

theorem not_isPlain : Binder.isPlain q.raw = false := by
  apply Binder.not_isPlain_of_mem
  rw [raw, String.toList_ofList, QueryText.raw, String.toList_ofList, QueryText.bracket]
  exact List.mem_append_left _ (List.mem_append_right _ List.mem_cons_self)

theorem resolveNodes_tree {σ : Type} (services : Services σ) :
    services.resolveNodes .empty q.tree = (do
      let target ← services.valueAt q.base
      pure (q.lead target)) := by
  have hbelow : ∀ r : Resolved, services.resolveNodes r (q.below.map fun name => .literal name false) =
      pure ⟨r.path ++ q.below.map Segment.ofText, r.updates⟩ := by
    intro r
    have h := QueryText.resolveNodes_names services (fun name hmem => (q.isName_below name hmem).2) r []
    rwa [List.append_nil, Services.resolveNodes] at h
  rw [tree, Services.resolveNodes_append, q.toQueryText.resolveNodes_tree]
  simp only [bind_assoc, pure_bind, hbelow]
  rfl

theorem asksOnce : AsksOnce q.raw q.base q.lead where
  not_plain := q.not_isPlain
  resolves := ⟨q.tree, q.read_raw, fun services => q.resolveNodes_tree services⟩
  merge_lead := q.merge_found

/-! ## One parse -/

open Binder

/-- A parse over an array leaves its elements as they are and adds at most one; it leads to the first element
that matches then. -/
theorem parse_ends (limit : Nat) {s : State (Recorded Value)} {items : List Value} (hs : s.Sound)
    (hstands : q.KeyStands) (hitems : s.host.world.get? q.base = some (.array items))
    (hlen : items.length < 0x8000_0000_0000_0000) :
    ∃ b s' more i, (Wiring.ofDocument.binder.parse (limit + 1) q.raw).Ends s (.ok b) s' ∧ s'.Sound ∧
      s'.host.world.get? q.base = some (.array (items ++ more)) ∧ more.length ≤ 1 ∧
      b.path = q.base ++ .ofPosition i :: q.below.map Segment.ofText ∧ i ≤ items.length ∧
      findElement? (items ++ more) q.key q.wanted? = some i := by
  obtain ⟨b, s', -, hends, hsound, hpath, hworld, -, -⟩ := q.asksOnce.parse_ends limit hs
  cases hfind : findElement? items q.key q.wanted? with
  | some i =>
    have hfound : q.found (some (.array items)) = ⟨q.base ++ [.ofPosition i], []⟩ := q.found_of_hit hfind
    have hlead : q.lead (s.host.world.get? q.base) =
        ⟨q.base ++ .ofPosition i :: q.below.map Segment.ofText, []⟩ := by
      rw [lead, hitems, hfound, List.append_assoc]
      rfl
    rw [hlead] at hpath hworld
    refine ⟨b, s', [], i, hends, hsound, ?_, Nat.zero_le 1, hpath, ?_, QueryText.findElement?_append hfind⟩
    · rw [hworld, List.append_nil]
      exact hitems
    · obtain ⟨hlt, -⟩ := List.findIdx?_eq_some_iff_getElem.1 hfind
      exact Nat.le_of_lt hlt
  | none =>
    -- the key stands, so that the created element is one that the query finds
    have hfound : q.found (some (.array items)) = ⟨q.base ++ [.ofPosition items.length],
        [.of (q.base ++ .ofPosition items.length :: Resolved.segmentsOf q.key !q.quoted) q.default]⟩ :=
      q.found_of_miss hfind
    have hlead : q.lead (s.host.world.get? q.base) =
        ⟨q.base ++ .ofPosition items.length :: q.below.map Segment.ofText,
          [.of (q.base ++ .ofPosition items.length :: Resolved.segmentsOf q.key !q.quoted) q.default]⟩ := by
      rw [lead, hitems, hfound, List.append_assoc]
      rfl
    rw [hlead] at hpath hworld
    have hagain := q.findElement?_created hfind
    rw [if_pos (q.matchesQuery_created.2 hstands)] at hagain
    refine ⟨b, s', [q.created], items.length, hends, hsound, ?_, Nat.le_refl 1, hpath, Nat.le_refl _, hagain⟩
    rw [hworld]
    exact Value.Searched.set (.inl hitems) hlen _ _

end RecordText

/-! ## Runs -/

namespace Binder

/-- A parse in a run: its text, its result, and the state that it leaves behind. -/
structure Round where
  query : RecordText
  result : Except Error Binding
  after : State (Recorded Value)

/-- The parses come one after the other, from the state on, over one document. -/
inductive Rounds (limit : Nat) : State (Recorded Value) → List Round → Prop where
  | nil {s} : Rounds limit s []
  | cons {s q r s' rounds} :
      (Wiring.ofDocument.binder.parse limit q.raw).Ends s r s' → Rounds limit s' rounds →
      Rounds limit s (⟨q, r, s'⟩ :: rounds)

/-- The parse gave the element at the position, and what the names lead to below it. -/
def Round.Gives (round : Round) (i : Nat) : Prop :=
  i < 0x8000_0000_0000_0000 ∧ ∃ b, round.result = .ok b ∧
    b.path = round.query.base ++ .ofPosition i :: round.query.below.map Segment.ofText

/-- The array at the path keeps its elements and gets at most one more at its end. -/
def Lengthens (base : DataPath) (s s' : State (Recorded Value)) : Prop :=
  ∃ items more, s.host.world.get? base = some (.array items) ∧
    s'.host.world.get? base = some (.array (items ++ more)) ∧ more.length ≤ 1

/-- The array at the path has a length that an index can have. -/
def Fits (base : DataPath) (s : State (Recorded Value)) : Prop :=
  ∀ items, s.host.world.get? base = some (.array items) → items.length < 0x8000_0000_0000_0000

variable {limit : Nat} {s : State (Recorded Value)} {rounds : List Round} {round : Round} {base : DataPath}
  {items : List Value}

theorem Round.Gives.unique {i j : Nat} (hi : round.Gives i) (hj : round.Gives j) : i = j := by
  obtain ⟨hi, b, hb, hpath⟩ := hi
  obtain ⟨hj, b', hb', hpath'⟩ := hj
  rw [hb, Except.ok.injEq] at hb'
  subst hb'
  rw [hpath, List.append_cancel_left_eq, List.cons.injEq] at hpath'
  have hposition := congrArg Segment.position? hpath'.1
  rw [Value.position?_ofPosition hi, Value.position?_ofPosition hj, Option.some.injEq] at hposition
  exact hposition

/-- What holds of the states of a run: sound caches, and an array at the path that starts with the items. -/
structure Holding (base : DataPath) (items : List Value) (s : State (Recorded Value)) : Prop where
  sound : s.Sound
  array : ∃ more, s.host.world.get? base = some (.array (items ++ more))

theorem Holding.of_append {more : List Value} (h : Holding base (items ++ more) s) : Holding base items s := by
  obtain ⟨last, hlast⟩ := h.array
  exact ⟨h.sound, more ++ last, by rw [hlast, List.append_assoc]⟩

/-- A query names the same element in all states that hold the array. -/
theorem Holding.names {q : QueryText} {i : Nat} (h : Holding q.base items s)
    (hfind : findElement? items q.key q.wanted? = some i) : q.Names s.host.world i := by
  obtain ⟨more, hmore⟩ := h.array
  exact (QueryText.names_iff hmore).2 (QueryText.findElement?_append hfind)

section

variable (hqueries : ∀ round ∈ rounds, round.query.base = base ∧ round.query.KeyStands)
  (hfits : ∀ t ∈ s :: rounds.map Round.after, Fits base t)

include hqueries hfits

/-- Every state of a run holds the array of its start. -/
theorem Rounds.holding (hrounds : Rounds (limit + 1) s rounds) (hs : s.Sound)
    (hitems : s.host.world.get? base = some (.array items)) :
    ∀ t ∈ s :: rounds.map Round.after, Holding base items t := by
  induction hrounds generalizing items with
  | @nil s =>
    intro t ht
    obtain rfl := List.mem_singleton.1 ht
    exact ⟨hs, [], by rw [hitems, List.append_nil]⟩
  | @cons s q r s' rounds hends _ ih =>
    obtain ⟨rfl, hstands⟩ := hqueries _ List.mem_cons_self
    have hlen := hfits s List.mem_cons_self items hitems
    obtain ⟨b, t, more, i, hends', hsound, hitems', -⟩ := q.parse_ends limit hs hstands hitems hlen
    obtain ⟨-, rfl⟩ := hends.unique hends'
    intro u hu
    rcases List.mem_cons.1 hu with rfl | hu
    · exact ⟨hs, [], by rw [hitems, List.append_nil]⟩
    · have hrest := ih (fun round hmem => hqueries round (List.mem_cons_of_mem _ hmem))
        (fun t ht => hfits t (List.mem_cons_of_mem _ ht)) hsound hitems'
      exact (hrest u hu).of_append

/-- Each parse lengthens the array by at most one, leads to the first match, and the match stays. -/
theorem Rounds.stable (hrounds : Rounds (limit + 1) s rounds) (hs : s.Sound)
    (hitems : s.host.world.get? base = some (.array items)) :
    (s :: rounds.map Round.after).IsChain (Lengthens base) ∧
    (∀ round ∈ rounds, ∃ i, round.Gives i ∧ round.query.Names round.after.host.world i) ∧
    rounds.Pairwise (fun earlier later => ∀ i, earlier.Gives i → earlier.query.Names later.after.host.world i) := by
  induction hrounds generalizing items with
  | nil => exact ⟨List.isChain_singleton _, nofun, .nil⟩
  | @cons s q r s' rounds hends hrounds ih =>
    obtain ⟨rfl, hstands⟩ := hqueries _ List.mem_cons_self
    have hlen := hfits s List.mem_cons_self items hitems
    obtain ⟨b, t, more, i, hends', hsound, hitems', hmore, hpath, hi, hfind⟩ :=
      q.parse_ends limit hs hstands hitems hlen
    obtain ⟨rfl, rfl⟩ := hends.unique hends'
    have hqueries' : ∀ round ∈ rounds, round.query.base = q.base ∧ round.query.KeyStands :=
      fun round hmem => hqueries round (List.mem_cons_of_mem _ hmem)
    have hfits' : ∀ t ∈ s' :: rounds.map Round.after, Fits q.base t :=
      fun t ht => hfits t (List.mem_cons_of_mem _ ht)
    have hgives : Round.Gives ⟨q, .ok b, s'⟩ i := ⟨Nat.lt_of_le_of_lt hi hlen, b, rfl, hpath⟩
    have hholding := hrounds.holding hqueries' hfits' hsound hitems'
    obtain ⟨hchain, hgiven, hstays⟩ := ih hqueries' hfits' hsound hitems'
    refine ⟨?_, ?_, ?_⟩
    · rw [List.map_cons, List.isChain_cons_cons]
      exact ⟨⟨items, more, hitems, hitems', hmore⟩, hchain⟩
    · intro round hmem
      rcases List.mem_cons.1 hmem with rfl | hmem
      · exact ⟨i, hgives, (QueryText.names_iff hitems').2 hfind⟩
      · exact hgiven round hmem
    · refine .cons ?_ hstays
      intro later hlater j hj
      obtain rfl := hgives.unique hj
      exact (hholding later.after (List.mem_cons_of_mem _ (List.mem_map_of_mem hlater))).names hfind

end

/-- There is a run for every list of queries that search one array. -/
theorem exists_rounds (limit : Nat) {queries : List RecordText} (hs : s.Sound)
    (hqueries : ∀ q ∈ queries, q.base = base ∧ q.KeyStands)
    (hitems : s.host.world.get? base = some (.array items))
    (hlen : items.length + queries.length < 0x8000_0000_0000_0000) :
    ∃ rounds, Rounds (limit + 1) s rounds ∧ rounds.map Round.query = queries ∧
      ∀ t ∈ s :: rounds.map Round.after, Fits base t := by
  have hfits : Fits base s := by
    intro items' hitems'
    rw [hitems, Option.some.injEq, Value.array.injEq] at hitems'
    subst hitems'
    omega
  induction queries generalizing s items with
  | nil => exact ⟨[], .nil, rfl, fun t ht => List.mem_singleton.1 ht ▸ hfits⟩
  | cons q queries ih =>
    obtain ⟨rfl, hstands⟩ := hqueries q List.mem_cons_self
    obtain ⟨b, s', more, i, hends, hsound, hitems', hmore, -⟩ :=
      q.parse_ends limit hs hstands hitems (hfits items hitems)
    rw [List.length_cons] at hlen
    have hlen' : (items ++ more).length + queries.length < 0x8000_0000_0000_0000 := by
      rw [List.length_append]
      omega
    have hfits' : Fits q.base s' := by
      intro last hlast
      rw [hitems', Option.some.injEq, Value.array.injEq] at hlast
      subst hlast
      omega
    obtain ⟨rounds, hrounds, hmap, hall⟩ :=
      ih hsound (fun other hmem => hqueries other (List.mem_cons_of_mem _ hmem)) hitems' hlen' hfits'
    refine ⟨⟨q, .ok b, s'⟩ :: rounds, .cons hends hrounds, by rw [List.map_cons, hmap], ?_⟩
    intro t ht
    rcases List.mem_cons.1 ht with rfl | ht
    · exact hfits
    · exact hall t ht

/-- Over a run of parses whose queries search one array, every state lengthens the array of the one before by at most
one element, and answers whatever query comes next. Each parse gives the element that its query names; the query names
it in all later states too, and so equal queries give the same element. -/
theorem Rounds.keep_naming (hs : Reachable s) (hitems : s.host.world.get? base = some (.array items))
    (hrounds : Rounds (limit + 1) s rounds)
    (hqueries : ∀ round ∈ rounds, round.query.base = base ∧ round.query.KeyStands)
    (hfits : ∀ t ∈ s :: rounds.map Round.after, Fits base t) :
    (∀ t ∈ s :: rounds.map Round.after, ∀ q : RecordText,
      ∃ b t', (Wiring.ofDocument.binder.parse (limit + 1) q.raw).Ends t (.ok b) t') ∧
    (s :: rounds.map Round.after).IsChain (Lengthens base) ∧
    (∀ round ∈ rounds, ∃ i, round.Gives i ∧ round.query.Names round.after.host.world i) ∧
    rounds.Pairwise (fun earlier later => ∀ i, earlier.Gives i → earlier.query.Names later.after.host.world i) ∧
    rounds.Pairwise (fun earlier later => earlier.query.key = later.query.key →
      earlier.query.wanted? = later.query.wanted? → ∀ i, earlier.Gives i → later.Gives i) := by
  have hholding := hrounds.holding hqueries hfits hs.sound hitems
  obtain ⟨hchain, hgiven, hstays⟩ := hrounds.stable hqueries hfits hs.sound hitems
  refine ⟨?_, hchain, hgiven, hstays, ?_⟩
  · intro t ht q
    obtain ⟨b, t', -, hends, -⟩ := q.asksOnce.parse_ends limit (hholding t ht).sound
    exact ⟨b, t', hends⟩
  · refine hstays.imp_of_mem ?_
    intro earlier later hearlier hlater hnames hkey hwanted i hi
    -- both queries name an element in the state after the later parse, and it is the first match there
    obtain ⟨j, hj, hown⟩ := hgiven later hlater
    obtain ⟨more, hmore⟩ := (hholding later.after (List.mem_cons_of_mem _ (List.mem_map_of_mem hlater))).array
    have hfirst := (QueryText.names_iff ((hqueries earlier hearlier).1 ▸ hmore)).1 (hnames i hi)
    have hsecond := (QueryText.names_iff ((hqueries later hlater).1 ▸ hmore)).1 hown
    rw [hkey, hwanted, hsecond, Option.some.injEq] at hfirst
    exact hfirst ▸ hj

/-- Three parses over a document without items, the last of which asks for the record of the first again. -/
theorem Rounds.keep_naming_items :
    let s : State (Recorded Value) := .start .unbounded ⟨.object [("items", .array [])], []⟩
    ∃ rounds, rounds.map (fun round => round.query.raw) =
        ["items['name'='x']", "items['id'='7']", "items['name'='x'].label"] ∧
      Reachable s ∧ s.host.world.get? [.key "items"] = some (.array []) ∧ Rounds 1 s rounds ∧
      (∀ round ∈ rounds, round.query.base = [.key "items"] ∧ round.query.KeyStands) ∧
      (∀ t ∈ s :: rounds.map Round.after, Fits [.key "items"] t) ∧
      rounds.Pairwise (fun earlier later => earlier.query.key = later.query.key →
        earlier.query.wanted? = later.query.wanted? → ∀ i, earlier.Gives i → later.Gives i) := by
  intro s
  let queries : List RecordText := [
    .ofQuotes '\'' ["items"] [] "name" (some "x") (by decide) (by decide +kernel) nofun
      (RecordText.unquoted_of_all (by decide +kernel)) (RecordText.unquoted?_of_all (by decide +kernel)),
    .ofQuotes '\'' ["items"] [] "id" (some "7") (by decide) (by decide +kernel) nofun
      (RecordText.unquoted_of_all (by decide +kernel)) (RecordText.unquoted?_of_all (by decide +kernel)),
    .ofQuotes '\'' ["items"] ["label"] "name" (some "x") (by decide) (by decide +kernel) (by decide +kernel)
      (RecordText.unquoted_of_all (by decide +kernel)) (RecordText.unquoted?_of_all (by decide +kernel))]
  have hreachable : Reachable s := .start _ _
  have hitems : s.host.world.get? [.key "items"] = some (.array []) := by rfl
  have hqueries : ∀ q ∈ queries, q.base = [.key "items"] ∧ q.KeyStands := by
    intro q hmem
    have hbase : q.names = ["items"] ∧ q.quoted = true ∧ '.' ∉ q.key.toList := by
      simp only [queries, List.mem_cons, List.not_mem_nil, or_false] at hmem
      obtain rfl | rfl | rfl := hmem <;> exact ⟨rfl, rfl, by decide +kernel⟩
    obtain ⟨hq, hquoted, hdot⟩ := hbase
    refine ⟨?_, .inr ⟨hquoted, .inl hdot⟩⟩
    rw [QueryText.base, hq]
    decide +kernel
  obtain ⟨rounds, hrounds, hmap, hfits⟩ := exists_rounds 0 hreachable.sound hqueries hitems (by decide)
  have hall : ∀ round ∈ rounds, round.query.base = [.key "items"] ∧ round.query.KeyStands :=
    fun round hmem => hqueries _ (hmap ▸ List.mem_map_of_mem hmem)
  refine ⟨rounds, ?_, hreachable, hitems, hrounds, hall, hfits, ?_⟩
  · have hraw : rounds.map (fun round => round.query.raw) = queries.map RecordText.raw := by
      rw [← hmap, List.map_map]
      rfl
    rw [hraw]
    decide +kernel
  · exact (Rounds.keep_naming hreachable hitems hrounds hall hfits).2.2.2.2

end Binder

end DataBound
