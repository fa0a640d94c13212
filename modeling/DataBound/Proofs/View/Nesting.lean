-- SUMMARY: Nested static templates are expanded to one copy of the innermost body for every tuple of indices.
import DataBound.Proofs.View.Expansion
import DataBound.Proofs.View.Standard

/-!
# Nested templates

Static templates are nested: each is all that the body of the one before it consists of. The copies of the outermost
body are templates again, with an index filled into their data, outputs and bodies. So the data of a template depends on
the indices around it, and how many copies there will be is not known before all of it is read.

What is built is a grid, with a row for every array that is found, and is given by recursion over the templates. Its
leaves belong to tuples of indices, in lexicographic order. Which tuples these are and what the leaves are copies of can
be told from the templates, the data and the innermost body (`mem_tuples_iff`, `leaves_grid`). That the builder makes
this grid (`makes_grid`) is an induction over the templates that are left, one expansion at a time.
-/

namespace DataBound.View

open Arena Build Template

/-! ## Grids -/

/-- What nested templates come to: rows at the outputs of the templates, around what the innermost copies are. -/
inductive Grid where
  | cell (s : Shape)
  | row (output : String) (cells : List Grid)

mutual

/-- The node of a grid. A row is a content node with one child, a multi-node that does not override. -/
def Grid.shape (type : ContentType) : Grid → Shape
  | .cell s => s
  | .row output cells => .content type none [⟨[.key output], false, (Shape.multi false (gridValues cells)).toValue⟩]

/-- The members of a row as values. -/
def gridValues : List Grid → List Value
  | [] => []
  | g :: rest => (g.shape .value).toValue :: gridValues rest

end

mutual

/-- The innermost copies in the order of the tree, each with the outputs on the way to it. -/
def Grid.leaves : Grid → List (List String × Shape)
  | .cell s => [([], s)]
  | .row output cells => (gridLeaves cells).map fun (outputs, s) => (output :: outputs, s)

/-- The innermost copies in the cells of a row. -/
def gridLeaves : List Grid → List (List String × Shape)
  | [] => []
  | g :: rest => g.leaves ++ gridLeaves rest

end

section

variable (texts : String → Option Value) (parse : Value → Option Shape) (depth : Nat) (v body : Value)

/-- The tuples of indices that go on from a tuple, if the data of the next template is an array: one for every element,
unless the copy of what is left is no JSON. -/
def nexts? (r : Repetition) (is : List Nat) : Option (List (List Nat)) :=
  ((texts (fillAll depth is r.data)).bind Value.asArray).map fun items =>
    ((List.range items.length).map fun i => is ++ [i]).filter fun js => (remaining? depth js v).isSome

/-- The tuples of indices for templates, as far as they go on from a tuple. -/
def tuples : List Repetition → List Nat → List (List Nat)
  | [], is => [is]
  | r :: rs, is => ((nexts? texts depth v r is).getD []).flatMap (tuples rs)

/-- The grid of the templates that are left after indices were chosen. -/
def grid? : List Repetition → List Nat → Option Grid
  | [], is => ((copies? depth is body).bind parse).map .cell
  | r :: rs, is => (nexts? texts depth v r is).map fun js => .row (fillAll depth is r.output) (js.filterMap (grid? rs))

/-- The index at a place is one of the array that the data names when the indices before it are filled in. -/
def InRange (r : Repetition) (place : Nat) (is : List Nat) : Prop :=
  ∃ items i, texts (fillAll depth (is.take place) r.data) = some (.array items) ∧ is[place]? = some i ∧ i < items.length

/-- The outputs on the way to the innermost copy for a tuple, the first of them with some of its indices filled in. -/
def outputs : (filled : Nat) → List Repetition → List Nat → List String
  | _, [], _ => []
  | filled, r :: rs, is => fillAll depth (is.take filled) r.output :: outputs (filled + 1) rs is

end

variable {texts : String → Option Value} {parse : Value → Option Shape} {depth : Nat} {v body : Value}
  {rs : List Repetition} {is js : List Nat}

theorem gridValues_eq (cells : List Grid) : gridValues cells = cells.map fun g => (g.shape .value).toValue := by
  induction cells with
  | nil => rfl
  | cons g rest ih => rw [gridValues, ih, List.map_cons]

theorem grid?_cons (r : Repetition) : grid? texts parse depth v body (r :: rs) is =
    (nexts? texts depth v r is).map fun found =>
      .row (fillAll depth is r.output) (found.filterMap (grid? texts parse depth v body rs)) := rfl

theorem mem_nexts {r : Repetition} {found : List (List Nat)} (h : nexts? texts depth v r is = some found) :
    js ∈ found ↔ ∃ items i, texts (fillAll depth is r.data) = some (.array items) ∧ i < items.length ∧ js = is ++ [i] ∧
      (remaining? depth js v).isSome := by
  obtain ⟨items, hitems, rfl⟩ := Option.map_eq_some_iff.1 h
  obtain ⟨answer, hanswer, harray⟩ := Option.bind_eq_some_iff.1 hitems
  obtain rfl : answer = .array items := by
    cases answer <;> cases harray
    rfl
  rw [List.mem_filter, List.mem_map]
  constructor
  · rintro ⟨⟨i, hi, rfl⟩, hleft⟩
    exact ⟨items, i, hanswer, List.mem_range.1 hi, rfl, hleft⟩
  · rintro ⟨items', i, hanswer', hi, rfl, hleft⟩
    cases hanswer.symm.trans hanswer'
    exact ⟨⟨i, List.mem_range.2 hi, rfl⟩, hleft⟩

/-! ### Tuples -/

theorem mem_tuples_cons {r : Repetition} :
    js ∈ tuples texts depth v (r :: rs) is ↔ ∃ items i, texts (fillAll depth is r.data) = some (.array items) ∧
      i < items.length ∧ (remaining? depth (is ++ [i]) v).isSome ∧ js ∈ tuples texts depth v rs (is ++ [i]) := by
  rw [tuples, List.mem_flatMap]
  constructor
  · rintro ⟨next, hnext, hjs⟩
    cases hfound : nexts? texts depth v r is with
    | none =>
      rw [hfound] at hnext
      cases hnext
    | some found =>
      rw [hfound] at hnext
      obtain ⟨items, i, hanswer, hi, rfl, hleft⟩ := (mem_nexts hfound).1 hnext
      exact ⟨items, i, hanswer, hi, hleft, hjs⟩
  · rintro ⟨items, i, hanswer, hi, hleft, hjs⟩
    refine ⟨is ++ [i], ?_, hjs⟩
    cases hfound : nexts? texts depth v r is with
    | none =>
      rw [nexts?, hanswer] at hfound
      cases hfound
    | some found => exact (mem_nexts hfound).2 ⟨items, i, hanswer, hi, rfl, hleft⟩

theorem isPrefix_of_mem_tuples (h : js ∈ tuples texts depth v rs is) : is <+: js := by
  induction rs generalizing is with
  | nil => exact List.mem_singleton.1 h ▸ List.prefix_rfl
  | cons r rs ih =>
    obtain ⟨items, i, -, -, -, hjs⟩ := mem_tuples_cons.1 h
    exact (List.prefix_append is [i]).trans (ih hjs)

/-- Tuples come in lexicographic order, each once. -/
theorem pairwise_tuples (texts : String → Option Value) (depth : Nat) (v : Value) (rs : List Repetition)
    (is : List Nat) : (tuples texts depth v rs is).Pairwise (· < ·) := by
  induction rs generalizing is with
  | nil => exact List.pairwise_singleton _ _
  | cons r rs ih =>
    rw [tuples, List.pairwise_flatMap]
    refine ⟨fun js _ => ih js, ?_⟩
    cases hfound : nexts? texts depth v r is with
    | none => exact .nil
    | some found =>
      obtain ⟨items, -, rfl⟩ := Option.map_eq_some_iff.1 hfound
      apply List.Pairwise.filter
      rw [List.pairwise_map]
      refine List.pairwise_lt_range.imp ?_
      intro i j hij x hx y hy
      -- the first index in which the tuples differ
      obtain ⟨x', rfl⟩ := isPrefix_of_mem_tuples hx
      obtain ⟨y', rfl⟩ := isPrefix_of_mem_tuples hy
      rw [List.append_assoc, List.append_assoc]
      exact List.append_left_lt (List.cons_lt_cons_iff.2 (.inl hij))

/-! ### Building -/

theorem shape?_spread {r : Repetition} {inner : Value}
    (hremaining : ∀ i, remaining? depth (is ++ [i]) v = copy? ∅ inner ⟨i, .null, depth + is.length⟩)
    (type : ContentType) :
    (spread (r.fillAll depth is) inner (depth + is.length) (texts (fillAll depth is r.data)) fun i =>
        (grid? texts parse depth v body rs (is ++ [i])).map (Grid.shape .value)).shape? type =
      (grid? texts parse depth v body (r :: rs) is).map (Grid.shape type) := by
  rw [grid?_cons, nexts?, spread]
  cases (texts (fillAll depth is r.data)).bind Value.asArray with
  | none => rfl
  | some items =>
    have hcells : (cells inner (depth + is.length) (fun i =>
          (grid? texts parse depth v body rs (is ++ [i])).map (Grid.shape .value)) items).map Shape.toValue =
        gridValues ((((List.range items.length).map fun i => is ++ [i]).filter fun js =>
          (remaining? depth js v).isSome).filterMap (grid? texts parse depth v body rs)) := by
      rw [gridValues_eq, cells, List.map_filterMap, List.filterMap_filter, List.filterMap_map, List.map_filterMap]
      congr 1
      funext i
      rw [Function.comp_apply, hremaining]
      cases copy? ∅ inner ⟨i, .null, depth + is.length⟩ with
      | none => rfl
      | some c => exact Option.map_map _ _ _
    simp only [Option.map_some, Option.toList_some, hcells]
    rfl

/-- Whatever is left of nested templates is built to its grid. -/
theorem makes_grid {w : Type} {read : String → Run w (Option Value)} {I : w → Prop} {all : List Repetition}
    (hv : Nested all body v) (hlength : is.length ≤ all.length) (hrs : all.drop is.length = rs) {left : Value}
    (hleft : remaining? depth is v = some left) {type : ContentType} (htype : rs = [] → type = .value)
    (hreads : ∀ before r after, rs = before ++ r :: after → ∀ js ∈ tuples texts depth v before is, ∀ world, I world →
      ∃ world', read (fillAll depth js r.data) world = some (texts (fillAll depth js r.data), world') ∧ I world')
    (hleaves : ∀ js ∈ tuples texts depth v rs is, ∀ c, copies? depth js body = some c →
      (templates read).Makes I c .value (depth + js.length) (parse c)) :
    (templates read).Makes I left type (depth + is.length)
      ((grid? texts parse depth v body rs is).map (Grid.shape type)) := by
  induction rs generalizing is left type with
  | nil =>
    have hbody := hv.copies (Nat.le_antisymm hlength (List.drop_eq_nil_iff.1 hrs)) hleft
    have hcell : (grid? texts parse depth v body [] is).map (Grid.shape .value) = parse left := by
      rw [grid?, hbody, Option.bind_some, Option.map_map]
      exact Option.map_id'
    obtain rfl := htype rfl
    rw [hcell]
    exact hleaves is List.mem_cons_self left hbody
  | cons r rs ih =>
    obtain ⟨fields, inner, hdescribes, rfl, hremaining⟩ := hv.describes hrs hleft
    have hdrop : all.drop (is.length + 1) = rs := by
      rw [← List.tail_drop, hrs, List.tail_cons]
    have hread := hreads [] r rs rfl is List.mem_cons_self
    -- every copy is what is left for one more index, to which the induction applies
    have hcopy : ∀ items, texts (fillAll depth is r.data) = some (.array items) → ∀ i < items.length, ∀ c,
        copy? ∅ inner ⟨i, .null, depth + is.length⟩ = some c →
        (templates read).Makes I c .value (depth + is.length + 1)
          ((grid? texts parse depth v body rs (is ++ [i])).map (Grid.shape .value)) := by
      intro items hitems i hi c hc
      have hleft' : remaining? depth (is ++ [i]) v = some c := (hremaining i).trans hc
      have hlength' : (is ++ [i]).length = is.length + 1 := List.length_append
      have hmem : ∀ before js, js ∈ tuples texts depth v before (is ++ [i]) →
          js ∈ tuples texts depth v (r :: before) is := fun before js hjs =>
        mem_tuples_cons.2 ⟨items, i, hitems, hi, by rw [hleft']; rfl, hjs⟩
      have hle : is.length + 1 ≤ all.length := by
        have hcount := congrArg List.length hrs
        rw [List.length_drop, List.length_cons] at hcount
        omega
      rw [← hlength'] at hdrop hle
      have hmakes := ih hle hdrop hleft' (fun _ => rfl) ?_ ?_
      · rw [hlength'] at hmakes
        exact hmakes
      · intro before r' after hsplit js hjs
        exact hreads (r :: before) r' after (by rw [hsplit]; rfl) js (hmem before js hjs)
      · intro js hjs
        exact hleaves js (hmem rs js hjs)
    have hmakes := hdescribes.makes hread hcopy type
    rw [shape?_spread hremaining] at hmakes
    exact hmakes

/-! ### Leaves -/

theorem gridLeaves_filterMap {α : Type} (f : α → Option Grid) (xs : List α) :
    gridLeaves (xs.filterMap f) = xs.flatMap fun x => ((f x).map Grid.leaves).getD [] := by
  induction xs with
  | nil => rfl
  | cons x xs ih =>
    rw [List.flatMap_cons, ← ih, List.filterMap_cons]
    cases f x <;> rfl

/-- The leaves of a grid are the innermost copies for its tuples, in order. -/
theorem leaves_grid (texts : String → Option Value) (parse : Value → Option Shape) (depth : Nat) (v body : Value)
    (rs : List Repetition) (is : List Nat) :
    ((grid? texts parse depth v body rs is).map Grid.leaves).getD [] =
      (tuples texts depth v rs is).filterMap fun js =>
        ((copies? depth js body).bind parse).map fun s => (outputs depth is.length rs js, s) := by
  induction rs generalizing is with
  | nil =>
    rw [tuples, List.filterMap_cons, List.filterMap_nil, grid?]
    cases (copies? depth is body).bind parse <;> rfl
  | cons r rs ih =>
    rw [grid?_cons, tuples]
    cases hfound : nexts? texts depth v r is with
    | none => rfl
    | some found =>
      rw [Option.map_some, Option.map_some, Option.getD_some, Option.getD_some, Grid.leaves, gridLeaves_filterMap,
        List.map_flatMap, List.filterMap_flatMap]
      apply List.flatMap_congr
      intro next hnext
      obtain ⟨items, i, -, -, rfl, -⟩ := (mem_nexts hfound).1 hnext
      rw [ih, List.map_filterMap]
      apply List.filterMap_congr
      intro js hjs
      have htake : js.take is.length = is := by
        obtain ⟨more, rfl⟩ := (List.prefix_append is [i]).trans (isPrefix_of_mem_tuples hjs)
        exact List.take_left
      rw [Option.map_map, outputs, htake, List.length_append, List.length_singleton]
      rfl

/-! ### All tuples -/

theorem isSome_remaining? (his : is <+: js) (h : (remaining? depth js v).isSome) : (remaining? depth is v).isSome := by
  obtain ⟨more, rfl⟩ := his
  rw [remaining?_append] at h
  exact Option.isSome_of_isSome_bind h

theorem inRange_length {r : Repetition} {i : Nat} {more : List Nat} :
    InRange texts depth r is.length (is ++ i :: more) ↔
      ∃ items, texts (fillAll depth is r.data) = some (.array items) ∧ i < items.length := by
  rw [InRange, List.take_left, List.getElem?_append_right (Nat.le_refl _), Nat.sub_self, List.getElem?_cons_zero]
  constructor
  · rintro ⟨items, _, hitems, ⟨⟩, hi⟩
    exact ⟨items, hitems, hi⟩
  · rintro ⟨items, hitems, hi⟩
    exact ⟨items, i, hitems, rfl, hi⟩

theorem forall_inRange_cons {r : Repetition} {place : Nat} :
    (∀ j r', (r :: rs)[j]? = some r' → InRange texts depth r' (place + j) js) ↔
      InRange texts depth r place js ∧ ∀ j r', rs[j]? = some r' → InRange texts depth r' (place + 1 + j) js := by
  constructor
  · intro h
    refine ⟨h 0 r rfl, ?_⟩
    intro j r' hr'
    rw [Nat.add_assoc, Nat.add_comm 1]
    exact h (j + 1) r' hr'
  · rintro ⟨hfirst, hrest⟩ (- | j) r' hr'
    · cases hr'
      exact hfirst
    · rw [← Nat.add_comm 1, ← Nat.add_assoc]
      exact hrest j r' hr'

/-- The tuples that go on from one: an index for every template, each in its range, as long as what is left after all of
them is JSON. -/
theorem mem_tuples_iff (hleft : (remaining? depth is v).isSome) :
    js ∈ tuples texts depth v rs is ↔ is <+: js ∧ js.length = is.length + rs.length ∧
      (∀ j r, rs[j]? = some r → InRange texts depth r (is.length + j) js) ∧ (remaining? depth js v).isSome := by
  induction rs generalizing is with
  | nil =>
    rw [tuples, List.mem_singleton]
    constructor
    · rintro rfl
      exact ⟨List.prefix_rfl, rfl, nofun, hleft⟩
    · rintro ⟨hbegins, hlength, -⟩
      exact (hbegins.eq_of_length hlength.symm).symm
  | cons r rs ih =>
    have hlength : ∀ i : Nat, (is ++ [i]).length = is.length + 1 := fun i => List.length_append
    have hnext : ∀ (i : Nat) (more : List Nat), is ++ [i] ++ more = is ++ i :: more := fun i more => by
      rw [List.append_assoc, List.singleton_append]
    rw [mem_tuples_cons, forall_inRange_cons, List.length_cons]
    constructor
    · rintro ⟨items, i, hitems, hi, hleft', hjs⟩
      obtain ⟨⟨more, rfl⟩, hcount, hrest, hall⟩ := (ih hleft').1 hjs
      rw [hlength] at hcount hrest
      rw [hnext] at hcount hrest hall ⊢
      exact ⟨List.prefix_append _ _, by omega, ⟨inRange_length.2 ⟨items, hitems, hi⟩, hrest⟩, hall⟩
    · rintro ⟨⟨more, rfl⟩, hcount, ⟨hfirst, hrest⟩, hall⟩
      obtain ⟨i, more, rfl⟩ : ∃ i rest, more = i :: rest := by
        cases more with
        | nil => simp at hcount
        | cons i rest => exact ⟨i, rest, rfl⟩
      obtain ⟨items, hitems, hi⟩ := inRange_length.1 hfirst
      have hbegins : is ++ [i] <+: is ++ i :: more := ⟨more, hnext i more⟩
      have hleft' := isSome_remaining? hbegins hall
      refine ⟨items, i, hitems, hi, hleft', (ih hleft').2 ⟨hbegins, ?_, ?_, hall⟩⟩
      · rw [hlength]
        omega
      · rw [hlength]
        exact hrest

/-! ## Bodies with an identifier -/

/-- Content with an identifier and nothing else is copied by copying the identifier. -/
theorem copies?_identified (depth : Nat) (is : List Nat) (id : String) :
    copies? depth is (.object [("id", .string id)]) = some (.object [("id", .string (fillAll depth is id))]) := by
  induction is generalizing depth id with
  | nil => rfl
  | cons i is ih =>
    have hkey : fill depth i "id" = "id" := (fill_eq_iff (by decide) depth i _).2 rfl
    have hcopy : copy? ∅ (.object [("id", .string id)]) ⟨i, .null, depth⟩ =
        some (.object [("id", .string (fill depth i id))]) := by
      rw [copy?_eq, Value.mapTexts, fieldsMapTexts, fieldsMapTexts, hkey]
      rfl
    rw [copies?, hcopy, Option.bind_some, ih, fillAll]

/-! ## Single runs -/

/-- What the rules come to at one height, without changing anything, the builder makes from all worlds that go by them. -/
theorem makes_of_outline {w σ : Type} {stands : w → σ → Prop} {R : Rules (Run σ)} {hooks : Hooks w}
    {exts : List (Extension w)} (hgovern : R.Govern stands hooks exts) {h : σ} {v : Value} {type : ContentType} {n : Nat}
    {t : Option Shape} (houtline : (R.outline n).object v type depth h = some (t, h)) :
    hooks.Makes (fun world => stands world h) v type depth t := by
  refine ⟨n, ?_⟩
  intro height hheight a world hworld
  have hrel := (Hooks.level_draws hgovern height).object v type depth a world h hworld
  rw [((Refinement.runs σ).outline_of_le R hheight).object v type depth h _ houtline] at hrel
  obtain ⟨⟨r, stage⟩, hrun, hmeet⟩ := exists_of_rel_right hrel
  exact ⟨r, stage, hrun, hmeet.stands, hmeet.extends, hmeet.rel⟩

section

variable {σ : Type} {host : Host σ} {limit : Nat} {document : σ → Value} {world : σ}

theorem templates_govern (hpaths : host.GoesByPaths) (limit : Nat) (document : σ → Value) :
    (Rules.standard [.template ((Binder.ofHost host).valueAt? limit document) ∅] host limit document fun _ => false).Govern
      (fun s world => s.Over world) (templates ((Binder.ofHost host).valueAt? limit document))
      [.template ((Binder.ofHost host).valueAt? limit document) ∅] := by
  refine Rules.standard_govern_of_subset (List.nodup_singleton _) ?_ hpaths
  intro e he
  rw [List.mem_singleton.1 he]
  simp [Extension.standard]

/-- From one run over the data that leaves it alone, content is made from all states over the data, and comes to the same
in all runs. -/
theorem exists_makes_of_run (hpaths : host.GoesByPaths) {s s' : Binder.State σ} (hs : s.Over world) {n : Nat}
    {type : ContentType} {r : Option Tree}
    (h : (templates ((Binder.ofHost host).valueAt? limit document)).buildObject n v type depth s = some (r, s'))
    (hs' : s'.host = world) :
    ∃ t, (templates ((Binder.ofHost host).valueAt? limit document)).Makes (Binder.State.Over world) v type depth t ∧
      ∀ n (s : Binder.State σ) r s', s.Over world →
        (templates ((Binder.ofHost host).valueAt? limit document)).buildObject n v type depth s = some (r, s') →
        Option.Rel Tree.Has r t := by
  have hgovern := templates_govern hpaths limit document
  have hrel := Hooks.buildObject_outline hgovern hs n v type depth
  rw [h] at hrel
  obtain ⟨⟨t, last⟩, houtline, hover, -⟩ := exists_of_rel_left hrel
  obtain rfl : last = world := hover.host_eq.symm.trans hs'
  refine ⟨t, makes_of_outline hgovern houtline, ?_⟩
  intro n s r s' hs h
  have hrel := Hooks.buildObject_outline hgovern hs n v type depth
  rw [h] at hrel
  obtain ⟨other, houtline', -, hhas⟩ := exists_of_rel_left hrel
  cases Rules.object_run_unique houtline houtline'
  exact hhas

/-- One run for each copy of a body is enough to say what its copies come to from all states over the data. -/
theorem exists_parse_of_runs (hpaths : host.GoesByPaths) (depth level : Nat) (body : Value) {tuples : List (List Nat)}
    (hruns : ∀ is ∈ tuples, ∀ c, copies? depth is body = some c → ∃ n s r s', s.Over world ∧
      (templates ((Binder.ofHost host).valueAt? limit document)).buildObject n c .value level s = some (r, s') ∧
      s'.host = world) :
    ∃ parse : Value → Option Shape, ∀ is ∈ tuples, ∀ c, copies? depth is body = some c →
      (templates ((Binder.ofHost host).valueAt? limit document)).Makes (Binder.State.Over world) c .value level (parse c) ∧
      ∀ n (s : Binder.State σ) r s', s.Over world →
        (templates ((Binder.ofHost host).valueAt? limit document)).buildObject n c .value level s = some (r, s') →
        Option.Rel Tree.Has r (parse c) := by
  have hshape : ∀ c, ∃ t, (∃ is ∈ tuples, copies? depth is body = some c) →
      (templates ((Binder.ofHost host).valueAt? limit document)).Makes (Binder.State.Over world) c .value level t ∧
      ∀ n (s : Binder.State σ) r s', s.Over world →
        (templates ((Binder.ofHost host).valueAt? limit document)).buildObject n c .value level s = some (r, s') →
        Option.Rel Tree.Has r t := by
    intro c
    by_cases hcopy : ∃ is ∈ tuples, copies? depth is body = some c
    · obtain ⟨is, his, hc⟩ := hcopy
      obtain ⟨n, s, r, s', hs, hbuilt, hs'⟩ := hruns is his c hc
      obtain ⟨t, ht⟩ := exists_makes_of_run hpaths hs hbuilt hs'
      exact ⟨t, fun _ => ht⟩
    · exact ⟨none, fun h => absurd h hcopy⟩
  choose parse hparse using hshape
  exact ⟨parse, fun is his c hc => hparse c ⟨is, his, hc⟩⟩

end

/-- Content with an identifier and nothing else is built as a literal. -/
theorem makes_identified {σ : Type} {host : Host σ} (hpaths : host.GoesByPaths) (limit : Nat) (document : σ → Value)
    (world : σ) (id : String) (depth : Nat) :
    (templates ((Binder.ofHost host).valueAt? limit document)).Makes (Binder.State.Over world)
      (.object [("id", .string id)]) .value depth (some (.content .value (some (.object [("id", .string id)])) [])) := by
  apply makes_of_outline (templates_govern hpaths limit document) (n := 1)
  let R := Rules.standard [.template ((Binder.ofHost host).valueAt? limit document) ∅] host limit document fun _ => false
  have hswitch : R.isOfType .switch (.string id) = false := by
    rw [Rules.isOfType, beq_eq_false_iff_ne]
    intro htype
    obtain ⟨e, he, hclassify⟩ := Hooks.exists_classify_of_typeOf htype
    obtain rfl := List.mem_singleton.1 he
    simp only [Extension.classify, Template.classify] at hclassify
    split at hclassify <;> cases hclassify
  have hgather : R.gather .bottom (.object [("id", .string id)]) depth [] .empty =
      pure ⟨some (.object [("id", .string id)]), []⟩ := by
    change R.entry .bottom (.object [("id", .string id)]) depth [] .empty (.key "id") (.string id) >>= pure = _
    rw [bind_pure]
    unfold Rules.entry
    rw [hswitch, Bool.and_false]
    rfl
  change ((do
    let g ← R.gather .bottom (.object [("id", .string id)]) depth [] .empty
    pure (g.shape? .value)) : Run σ (Option Shape)) world = _
  rw [hgather]
  rfl

/-! ## Nested templates over a document -/

/-- Static templates are nested around an innermost body, each the whole body of the one before it, and built from a
depth on over data that is only read. Reading the data of the templates is taken to end, as is building the innermost
copies, which come to what `parse` says. Where the host goes by paths, one run of each is enough for that
(`valueAt?_agrees`, `exists_parse_of_runs`).

What is built is a grid, with a row at the output of every template whose data names an array and nothing where it names
none. Its leaves are the innermost body with the markers from the depth on replaced by the indices, one after the other
from the outermost inward, for every tuple of indices for which what is left of the templates is JSON and the copy gives
a node. The leaves come in lexicographic order, and data, outputs and bodies have the indices of the templates around
them filled in. -/
theorem buildObject_nested_templates {σ : Type} {host : Host σ} (hhost : host.OnlyReads) {limit : Nat}
    {document : σ → Value} {world : σ} {rs : List Repetition} (hrs : rs ≠ []) {v body : Value} (hv : Nested rs body v)
    {depth : Nat} {texts : String → Option Value} {parse : Value → Option Shape}
    (hreads : ∀ before r after, rs = before ++ r :: after → ∀ is ∈ tuples texts depth v before [],
      ∀ s : Binder.State σ, s.Over world → ∃ s',
        (Binder.ofHost host).valueAt? limit document (fillAll depth is r.data) s =
          some (texts (fillAll depth is r.data), s'))
    (hleaves : ∀ is ∈ tuples texts depth v rs [], ∀ c, copies? depth is body = some c →
      (templates ((Binder.ofHost host).valueAt? limit document)).Makes (Binder.State.Over world) c .value
        (depth + rs.length) (parse c)) :
    (tuples texts depth v rs []).Pairwise (· < ·) ∧
    (∀ is, is ∈ tuples texts depth v rs [] ↔ is.length = rs.length ∧
      (∀ j r, rs[j]? = some r → InRange texts depth r j is) ∧ (remaining? depth is v).isSome) ∧
    (∀ is ∈ tuples texts depth v rs [], ∃ c, remaining? depth is v = some c ∧ copies? depth is body = some c) ∧
    ((grid? texts parse depth v body rs []).map Grid.leaves).getD [] = (tuples texts depth v rs []).filterMap (fun is =>
      ((copies? depth is body).bind parse).map fun s => (outputs depth 0 rs is, s)) ∧
    ∀ type, ∃ least, ∀ height, least ≤ height → ∀ s : Binder.State σ, s.Over world → ∃ tree s',
      (templates ((Binder.ofHost host).valueAt? limit document)).buildObject height v type depth s = some (tree, s') ∧
        s'.Over world ∧ Option.Rel Tree.Has tree ((grid? texts parse depth v body rs []).map (Grid.shape type)) := by
  have hmem : ∀ is, is ∈ tuples texts depth v rs [] ↔ is.length = rs.length ∧
      (∀ j r, rs[j]? = some r → InRange texts depth r j is) ∧ (remaining? depth is v).isSome := by
    intro is
    refine (mem_tuples_iff rfl).trans ?_
    simp only [List.nil_prefix, true_and, List.length_nil, Nat.zero_add]
  refine ⟨pairwise_tuples texts depth v rs [], hmem, ?_, leaves_grid texts parse depth v body rs [], ?_⟩
  · intro is his
    obtain ⟨hlength, -, hsome⟩ := (hmem is).1 his
    obtain ⟨c, hc⟩ := Option.isSome_iff_exists.1 hsome
    exact ⟨c, hc, hv.copies hlength hc⟩
  · intro type
    have hmakes : (templates ((Binder.ofHost host).valueAt? limit document)).Makes (Binder.State.Over world) v type
        (depth + ([] : List Nat).length) ((grid? texts parse depth v body rs []).map (Grid.shape type)) := by
      refine makes_grid hv (Nat.zero_le _) rfl rfl (fun hnil => absurd hnil hrs) ?_ ?_
      · intro before r after hsplit is his s hs
        obtain ⟨s', hread⟩ := hreads before r after hsplit is his s hs
        exact ⟨s', hread, (Binder.valueAt?_over hhost hs hread).1⟩
      · intro is his c hc
        rw [((hmem is).1 his).1]
        exact hleaves is his c hc
    exact hmakes.buildObject

/-- Rows of cells with tags. The first cell of the second row has none, and there nothing is built. -/
theorem buildObject_nested_templates_tags :
    let cell (tags : List Value) : Value := .object [("tags", .array tags)]
    let document : Value := .object [("rows", .array [.object [("cells", .array [cell [.null, .null]])],
      .object [("cells", .array [.object [], cell [.null]])]])]
    let texts := fun raw => document.get? (.ofText raw)
    let host : Host Value := { Host.ofDocument id fun document _ => document with readOnly := true }
    let read := (Binder.ofHost host).valueAt? 1 id
    let rs : List Repetition :=
      [⟨"rows", "rows"⟩, ⟨"rows._index_.cells", "cells"⟩, ⟨"rows._index_.cells._index1_.tags", "tags-_index_"⟩]
    let template (r : Repetition) (inner : Value) : Value := .object [("template", .array [
      .object [("data", .string r.data), ("output", .string r.output), ("value", inner)]])]
    let body : Value := .object [("id", .string "_index_-_index1_-_index2_")]
    let v := rs.foldr template body
    let s : Binder.State Value := .start .unbounded document
    host.OnlyReads ∧ rs ≠ [] ∧ Nested rs body v ∧ s.Over document ∧
    tuples texts 0 v rs [] = [[0, 0, 0], [0, 0, 1], [1, 1, 0]] ∧
    ∃ height tree s' grid, (templates read).buildObject height v .value 0 s = some (some tree, s') ∧
      tree.Has (Grid.shape .value grid) ∧
      grid.leaves = [(["rows", "cells", "tags-0"], "0-0-0"), (["rows", "cells", "tags-0"], "0-0-1"),
        (["rows", "cells", "tags-1"], "1-1-0")].map fun (outputs, id) =>
          (outputs, .content .value (some (.object [("id", .string id)])) []) := by
  intro cell document texts host read rs template body v s
  let parse : Value → Option Shape := fun c => some (.content .value (some c) [])
  have hhost : host.OnlyReads := Host.ofDocument_onlyReads _ _
  have hpaths : host.GoesByPaths := hhost.goesByPaths (Binder.ofDocument_readsPaths id fun document _ => document)
  have hv : Nested rs body v := by
    have hdescribes : ∀ (r : Repetition) (inner : Value), Describes
        [("data", .string r.data), ("output", .string r.output), ("value", inner)] r inner := fun r inner =>
      ⟨(by decide : ["data", "output", "value"].Nodup), rfl, rfl, rfl, rfl⟩
    exact .template (hdescribes _ _) (.template (hdescribes _ _) (.template (hdescribes _ _) (.innermost body)))
  have hs : s.Over document := ⟨Binder.State.sound_start _ _, rfl⟩
  have htuples : tuples texts 0 v rs [] = [[0, 0, 0], [0, 0, 1], [1, 1, 0]] := by decide +kernel
  have hplain : ∀ n < 3, ∀ is ∈ tuples texts 0 v (rs.take n) [], ∀ r ∈ (rs.drop n).head?,
      Binder.isPlain (fillAll 0 is r.data) = true := by decide +kernel
  have hreads : ∀ before r after, rs = before ++ r :: after → ∀ is ∈ tuples texts 0 v before [],
      ∀ s : Binder.State Value, s.Over document → ∃ s', read (fillAll 0 is r.data) s =
        some (texts (fillAll 0 is r.data), s') := by
    intro before r after hsplit is his s hs
    have hlt : before.length < 3 := by
      have hthree : rs.length = 3 := rfl
      rw [hsplit, List.length_append, List.length_cons] at hthree
      omega
    have hraw := hplain before.length hlt
    rw [hsplit, List.take_left, List.drop_left] at hraw
    obtain ⟨s', hread, -⟩ :=
      Binder.valueAt?_plain host 0 id ((Binder.isPlain_iff_plainText _).1 (hraw is his r rfl)) hs
    exact ⟨s', hread⟩
  have hleaves : ∀ is ∈ tuples texts 0 v rs [], ∀ c, copies? 0 is body = some c →
      (templates read).Makes (Binder.State.Over document) c .value (0 + rs.length) (parse c) := by
    intro is _ c hc
    rw [copies?_identified] at hc
    cases hc
    exact makes_identified hpaths 1 id document _ _
  obtain ⟨-, -, -, hgrid, hbuilt⟩ := buildObject_nested_templates hhost (List.cons_ne_nil _ _) hv hreads hleaves
  obtain ⟨least, hleast⟩ := hbuilt .value
  obtain ⟨tree, s', hrun, -, hrel⟩ := hleast least (Nat.le_refl _) s hs
  have hsome : (grid? texts parse 0 v body rs []).isSome := by decide +kernel
  obtain ⟨grid, hgrid?⟩ := Option.isSome_iff_exists.1 hsome
  have hnames :
      [[0, 0, 0], [0, 0, 1], [1, 1, 0]].map (fun is => (outputs 0 0 rs is, fillAll 0 is "_index_-_index1_-_index2_")) =
        [(["rows", "cells", "tags-0"], "0-0-0"), (["rows", "cells", "tags-0"], "0-0-1"),
          (["rows", "cells", "tags-1"], "1-1-0")] := by decide +kernel
  rw [hgrid?] at hgrid hrel
  cases hrel with
  | some hhas =>
    refine ⟨hhost, List.cons_ne_nil _ _, hv, hs, htuples, least, _, s', grid, hrun, hhas, ?_⟩
    rw [← hnames, ← htuples, List.map_map, ← List.filterMap_eq_map]
    refine hgrid.trans (List.filterMap_congr ?_)
    intro is _
    rw [copies?_identified]
    rfl

end DataBound.View
