-- SUMMARY: Properties that list primitives become multi-nodes of values, unless a text is taken for the name of templates.
import DataBound.Proofs.Binder.Sealing
import DataBound.Proofs.View.Leaves
import DataBound.Proofs.View.Plain

/-!
# Lists of primitives

A property of plain content whose value is a list of primitives becomes one multi-node, with a value for every item.
Where it stands in the tree can be told from the content: a route goes down by the paths of children and the places of
members. Members are counted among the items that give a node, and an item gives none if there is no primitive in it.

The items come out as they stand, whatever the texts, with one exception. The text `template` is taken for the name of a
list of templates where the whole document is an array.
-/

namespace DataBound.View

open Value

/-! ## Places in trees -/

/-- A step down in a tree: to the child at a path, or to a member of a multi-node. -/
inductive Step where
  | child (path : DataPath)
  | member (place : Nat)

/-- The entries of an array under a key of a node that is shown as a value. -/
def shownUnder (key : String) (node : Value) : List Value := ((node.field? key).bind asArray).getD []

/-- All nodes that a route leads to in a tree that is shown as a value. -/
def nodesAt : List Step → Value → List Value
  | [], node => [node]
  | .child path :: rest, node =>
    ((shownUnder "children" node).filter fun child => (child.field? "path").any path.toValue.same).flatMap fun child =>
      (child.field? "value").toList.flatMap (nodesAt rest)
  | .member place :: rest, node => (shownUnder "values" node)[place]?.toList.flatMap (nodesAt rest)

theorem toValue_same (s s' : Segment) : s.toValue.same s'.toValue = decide (s = s') := by
  rw [Bool.eq_iff_iff, decide_eq_true_iff]
  cases s with
  | key name => cases s' <;> simp [Segment.toValue, Value.same, ofInt64]
  | index i => cases s' <;> simp [Segment.toValue, Value.same, ofInt64, Number.same, Int64.toInt_inj]

theorem toValue_path_same (path path' : DataPath) : path.toValue.same path'.toValue = decide (path = path') := by
  rw [DataPath.toValue, DataPath.toValue, Value.same]
  induction path generalizing path' with
  | nil => cases path' <;> rfl
  | cons s rest ih =>
    cases path' with
    | nil => rfl
    | cons s' rest' => simp [sameItems, toValue_same, ih]

theorem nodesAt_content (type : ContentType) (value : Option Value) (children : List ShownChild) (path : DataPath)
    (rest : List Step) : nodesAt (.child path :: rest) (Shape.content type value children).toValue =
      (children.filter fun c => c.path = path).flatMap fun c => nodesAt rest c.value := by
  have hchildren : shownUnder "children" (Shape.content type value children).toValue =
      children.map ShownChild.toValue := by
    cases children <;> cases value <;> rfl
  have hpath : ∀ c : ShownChild, c.toValue.field? "path" = some c.path.toValue := fun _ => rfl
  have hvalue : ∀ c : ShownChild, c.toValue.field? "value" = some c.value := by
    intro c
    cases happended : c.appended <;> simp [ShownChild.toValue, happended, field?, Fields.find?]
  rw [nodesAt, hchildren, List.filter_map, List.flatMap_map]
  simp only [Function.comp_def, hpath, hvalue, Option.any_some, toValue_path_same, Option.toList_some,
    List.flatMap_singleton, eq_comm]

theorem nodesAt_multi (overrides : Bool) (members : List Value) (place : Nat) (rest : List Step) :
    nodesAt (.member place :: rest) (Shape.multi overrides members).toValue =
      members[place]?.toList.flatMap (nodesAt rest) := rfl

/-- The children of a sketch at a path. -/
def Sketch.at (g : Sketch) (path : DataPath) : List ShownChild := g.children.filter fun c => c.path = path

theorem nodeType_of_shape? {g : Sketch} {type : ContentType} {s : Shape} (h : g.shape? type = some s) :
    s.nodeType = type.nodeType := by
  unfold Sketch.shape? at h
  split at h <;> cases h
  rfl

theorem exists_shape?_of_nodesAt {g : Sketch} {path : DataPath} {rest : List Step} {node : Value}
    (h : (g.at path).flatMap (fun c => nodesAt rest c.value) = [node]) (type : ContentType) :
    ∃ s, g.shape? type = some s ∧ nodesAt (.child path :: rest) s.toValue = [node] := by
  have hchildren : g.children.isEmpty = false := by
    cases hempty : g.children with
    | nil =>
      rw [Sketch.at, hempty] at h
      cases h
    | cons c rest => rfl
  refine ⟨_, if_neg ?_, (nodesAt_content type g.value g.children path rest).trans h⟩
  rw [hchildren, Bool.and_false]
  exact Bool.false_ne_true

/-! ## Lists in content -/

/-- No segment leads to two entries of the value. -/
def EntriesDiffer (v : Value) : Prop := ((entries v).map Prod.fst).Nodup

instance : DecidablePred EntriesDiffer := fun v => inferInstanceAs (Decidable ((entries v).map Prod.fst).Nodup)

/-- The items are the value of a property of an object in a container, and the route leads to where the property is shown
in the tree. The container is placed at a path in the node around it. -/
inductive ListedAt : Value → DataPath → List Step → List Value → Prop
  | own {fields : Fields} {name : String} {items : List Value} {path : DataPath} : (name, .array items) ∈ fields →
      ListedAt (.object fields) path [.child (path ++ [.key name])] items
  /-- An object that is no asset is placed in the same node. -/
  | nested {v : Value} {key : Segment} {inner : Fields} {path : DataPath} {route : List Step} {items : List Value} :
      (key, .object inner) ∈ entries v → key ≠ .key "asset" → ListedAt (.object inner) (path ++ [key]) route items →
      ListedAt v path route items
  /-- An asset is a node of its own. -/
  | asset {fields inner : Fields} {path : DataPath} {route : List Step} {items : List Value} :
      ("asset", .object inner) ∈ fields → ListedAt (.object inner) [] route items →
      ListedAt (.object fields) path (.child (path ++ [.key "asset"]) :: route) items
  /-- An item is a member, with a place among the items that hold primitives. -/
  | item {v : Value} {key : Segment} {before after : List Value} {item : Value} {path : DataPath} {route : List Step}
      {items : List Value} :
      (key, .array (before ++ item :: after)) ∈ entries v → ListedAt item [] route items →
      ListedAt v path
        (.child (path ++ [key]) :: .member (before.countP fun other => !other.leaves.isEmpty) :: route) items

theorem ListedAt.exists_child {v : Value} {path : DataPath} {route : List Step} {items : List Value}
    (h : ListedAt v path route items) : ∃ first rest, route = .child first :: rest ∧ path <+: first := by
  induction h with
  | own => exact ⟨_, _, rfl, List.prefix_append _ _⟩
  | nested _ _ _ ih =>
    obtain ⟨first, rest, hroute, hprefix⟩ := ih
    exact ⟨first, rest, hroute, (List.prefix_append _ _).trans hprefix⟩
  | asset => exact ⟨_, _, rfl, List.prefix_append _ _⟩
  | item => exact ⟨_, _, rfl, List.prefix_append _ _⟩

theorem ListedAt.isContainer {v : Value} {path : DataPath} {route : List Step} {items : List Value}
    (h : ListedAt v path route items) : v.isContainer = true := by
  have hentries : ∀ {v : Value} {entry : Segment × Value}, entry ∈ entries v → v.isContainer = true := by
    intro v entry hmem
    cases v <;> first | rfl | cases hmem
  cases h with
  | own => rfl
  | nested hmem => exact hentries hmem
  | asset => rfl
  | item hmem => exact hentries hmem

/-- The first value stands somewhere in the second. -/
inductive Occurs (x : Value) : Value → Prop
  | whole : Occurs x x
  | entry {v : Value} {entry : Segment × Value} : entry ∈ entries v → Occurs x entry.2 → Occurs x v

/-- Every list that is a property somewhere in a container has a place. -/
theorem exists_listedAt {fields : Fields} {v : Value} (h : Occurs (.object fields) v) {name : String}
    {items : List Value} (hmem : (name, .array items) ∈ fields) :
    (v.isContainer = true → ∀ path, ∃ route, ListedAt v path route items) ∧
    ∀ others, v = .array others → ∃ before item after route, others = before ++ item :: after ∧
      ListedAt item [] route items := by
  induction h with
  | whole => exact ⟨fun _ path => ⟨_, .own hmem⟩, nofun⟩
  | @entry v entry hentry hinner ih =>
    obtain ⟨hcontainer, hitems⟩ := ih
    obtain ⟨key, y⟩ := entry
    have hy : y.isContainer = true := by
      cases hinner with
      | whole => rfl
      | entry hmem' =>
        dsimp only at hmem'
        cases y <;> first | rfl | cases hmem'
    constructor
    · intro _ path
      cases y with
      | array others =>
        obtain ⟨before, item, after, route, rfl, hroute⟩ := hitems others rfl
        exact ⟨_, .item hentry hroute⟩
      | object inner =>
        by_cases hasset : key = .key "asset"
        · subst hasset
          obtain ⟨route, hroute⟩ := hcontainer rfl []
          cases v with
          | object outer =>
            obtain ⟨⟨name, v⟩, hfield, heq⟩ := List.mem_map.1 hentry
            cases heq
            exact ⟨_, .asset hfield hroute⟩
          | array others =>
            obtain ⟨i, -, hsegment⟩ := mem_entries_array.1 hentry
            cases hsegment
          | _ => cases hentry
        · obtain ⟨route, hroute⟩ := hcontainer rfl (path ++ [key])
          exact ⟨route, .nested hentry hasset hroute⟩
      | _ => cases hy
    · rintro others rfl
      obtain ⟨i, hget, -⟩ := mem_entries_array.1 hentry
      obtain ⟨before, after, hsplit⟩ := List.append_of_mem (List.mem_of_getElem? hget)
      obtain ⟨route, hroute⟩ := hcontainer hy []
      exact ⟨before, y, after, route, hsplit, hroute⟩

/-! ## Entries of plain content -/

variable {root : Option Value} {v : Value} {path place : DataPath} {g : Sketch}

theorem entrySketch_object (root : Option Value) (fields : Fields) {key : Segment} (hkey : key ≠ .key "asset")
    (path : DataPath) (g : Sketch) :
    entrySketch root (.object fields) key path g = plainSketch root (.object fields) (path ++ [key]) g := by
  rw [entrySketch, plainSketch, if_neg]
  intro hasset
  cases key with
  | key name => exact hkey (congrArg Segment.key (Option.some.inj hasset))
  | index i => cases hasset

theorem not_prefix_of_ne {key other : Segment} (hne : other ≠ key) (h : path ++ [key] <+: place) :
    ¬ path ++ [other] <+: place := by
  intro hother
  have heq := (List.prefix_of_prefix_length_le h hother (by simp)).eq_of_length (by simp)
  exact hne (List.cons.inj (List.append_cancel_left heq)).1.symm

theorem entries_induct {P : Value → Prop} (h : ∀ v, (∀ entry ∈ entries v, P entry.2) → P v) (v : Value) : P v :=
  h v fun entry _ => entries_induct h entry.2
termination_by v.nesting
decreasing_by exact nesting_lt_of_mem_entries ‹_›

theorem at_push_of_ne {s : Shape} (h : path ≠ place) : (g.push path s).at place = g.at place := by
  rw [Sketch.push, Sketch.at, List.filter_append, List.filter_cons_of_neg (by simpa using h), List.filter_nil,
    List.append_nil]
  rfl

theorem at_push_self (g : Sketch) (path : DataPath) (s : Shape) :
    (g.push path s).at path = g.at path ++ [⟨path, false, s.toValue⟩] := by
  simp [Sketch.push, Sketch.at]

theorem at_pushed_of_ne {t : Option Shape} (h : path ≠ place) : (g.pushed path t).at place = g.at place := by
  cases t with
  | none => rfl
  | some s => exact at_push_of_ne h

theorem at_foldl {es : List (Segment × Value)} {step : Sketch → Segment × Value → Sketch}
    (h : ∀ entry ∈ es, ∀ g, (step g entry).at place = g.at place) (g : Sketch) :
    (es.foldl step g).at place = g.at place := by
  induction es generalizing g with
  | nil => rfl
  | cons entry rest ih =>
    obtain ⟨hentry, hrest⟩ := List.forall_mem_cons.1 h
    rw [List.foldl_cons, ih hrest, hentry]

/-- What is not below an entry is as it was before it. -/
theorem at_entrySketch (root : Option Value) (v : Value) (key : Segment) (path : DataPath) (g : Sketch)
    (h : ¬ path ++ [key] <+: place) : (entrySketch root v key path g).at place = g.at place := by
  have hne : path ++ [key] ≠ place := by
    rintro rfl
    exact h List.prefix_rfl
  induction v using entries_induct generalizing key path g with
  | h v ih =>
    cases v with
    | object fields =>
      by_cases hkey : key = .key "asset"
      · rw [hkey] at hne ⊢
        exact at_pushed_of_ne hne
      · rw [entrySketch_object root fields hkey, plainSketch_container rfl]
        apply at_foldl
        intro entry hmem g'
        have hbelow : ¬ path ++ [key] ++ [entry.1] <+: place := fun hprefix => h ((List.prefix_append _ _).trans hprefix)
        apply ih entry hmem entry.1 _ g' hbelow
        rintro rfl
        exact hbelow List.prefix_rfl
    | array items =>
      rw [entrySketch]
      split
      · rfl
      · exact at_push_of_ne hne
    | _ => rfl

/-- Below an entry there is only what the entry gives. -/
theorem at_plainSketch (root : Option Value) (hdiffer : EntriesDiffer v) {entry : Segment × Value}
    (hentry : entry ∈ entries v) (path : DataPath) (g : Sketch) :
    ∃ g', ∀ place, path ++ [entry.1] <+: place → g'.at place = g.at place ∧
      (plainSketch root v path g).at place = (entrySketch root entry.2 entry.1 path g').at place := by
  have hcontainer : v.isContainer = true := by
    cases v <;> first | rfl | cases hentry
  obtain ⟨before, after, hsplit⟩ := List.append_of_mem hentry
  rw [EntriesDiffer, hsplit, List.map_append, List.map_cons, List.nodup_append, List.nodup_cons] at hdiffer
  obtain ⟨-, ⟨hafter, -⟩, hbefore⟩ := hdiffer
  rw [plainSketch_container hcontainer, hsplit, List.foldl_append, List.foldl_cons]
  refine ⟨before.foldl (fun g other => entrySketch root other.2 other.1 path g) g, fun place hplace => ⟨?_, ?_⟩⟩
  · apply at_foldl
    intro other hmem g'
    apply at_entrySketch
    exact not_prefix_of_ne (hbefore _ (List.mem_map_of_mem hmem) _ List.mem_cons_self) hplace
  · apply at_foldl
    intro other hmem g'
    apply at_entrySketch
    apply not_prefix_of_ne ?_ hplace
    rintro heq
    exact hafter (heq ▸ List.mem_map_of_mem hmem)

/-! ### Content without primitives -/

/-- Nothing is gathered. -/
def Sketch.isBare (g : Sketch) : Bool := g.value.isNone && g.children.isEmpty

theorem isSome_shape? (g : Sketch) (type : ContentType) : (g.shape? type).isSome = !g.isBare := by
  unfold Sketch.shape? Sketch.isBare
  cases g.value.isNone && g.children.isEmpty <;> rfl

theorem isBare_push (g : Sketch) (path : DataPath) (s : Shape) : (g.push path s).isBare = false := by
  simp [Sketch.isBare, Sketch.push]

theorem isBare_pushed (g : Sketch) (path : DataPath) (t : Option Shape) :
    (g.pushed path t).isBare = (g.isBare && !t.isSome) := by
  cases t with
  | none => simp [Sketch.pushed]
  | some s => simp [Sketch.pushed, isBare_push]

theorem isBare_foldl {es : List (Segment × Value)} {step : Sketch → Segment × Value → Sketch}
    (h : ∀ entry ∈ es, ∀ g, (step g entry).isBare = (g.isBare && entry.2.leaves.isEmpty)) (g : Sketch) :
    (es.foldl step g).isBare = (g.isBare && es.all fun entry => entry.2.leaves.isEmpty) := by
  induction es generalizing g with
  | nil => simp
  | cons entry rest ih =>
    obtain ⟨hentry, hrest⟩ := List.forall_mem_cons.1 h
    rw [List.foldl_cons, ih hrest, hentry, List.all_cons, Bool.and_assoc]

theorem isEmpty_leaves (h : v.isContainer = true) :
    v.leaves.isEmpty = (entries v).all fun entry => entry.2.leaves.isEmpty := by
  rw [leaves_container h, Bool.eq_iff_iff]
  simp [List.flatMap_eq_nil_iff, under]

theorem isSome_plainShape_primitive (root : Option Value) {v : Value} (hv : v.isContainer = false) (type : ContentType) :
    (plainShape root type v).isSome = !v.leaves.isEmpty := by
  unfold plainShape
  split
  · rename_i hword
    cases v <;> first | rfl | cases hword
  · cases v <;> first | rfl | cases hv

/-- Content gives something exactly if there is a primitive in it, as an entry and by itself. -/
theorem isBare_entrySketch (root : Option Value) (v : Value) :
    (∀ key path g, (entrySketch root v key path g).isBare = (g.isBare && v.leaves.isEmpty)) ∧
    ∀ type, (plainShape root type v).isSome = !v.leaves.isEmpty := by
  induction v using entries_induct with
  | h v ih =>
    have hgathered : ∀ path g, v.isContainer = true →
        (plainSketch root v path g).isBare = (g.isBare && v.leaves.isEmpty) := by
      intro path g hcontainer
      rw [plainSketch_container hcontainer, isEmpty_leaves hcontainer]
      exact isBare_foldl (fun entry hmem g' => (ih entry hmem).1 entry.1 path g') g
    constructor
    · intro key path g
      cases v with
      | object fields =>
        by_cases hkey : key = .key "asset"
        · subst hkey
          change (g.pushed _ ((plainSketch root (.object fields) [] .empty).shape? .asset)).isBare = _
          rw [isBare_pushed, isSome_shape?, hgathered [] .empty rfl, Bool.not_not]
          rfl
        · rw [entrySketch_object root fields hkey, hgathered _ g rfl]
      | array items =>
        have hshapes : (itemShapes root items).isEmpty = (Value.array items).leaves.isEmpty := by
          have hitem : ∀ item ∈ items, plainShape root .value item = none ↔ item.leaves.isEmpty = true := by
            intro item hitem
            obtain ⟨i, hi⟩ := List.getElem?_of_mem hitem
            have hsome := (ih (.ofPosition i, item) (mem_entries_array.2 ⟨i, hi, rfl⟩)).2 .value
            rw [← Option.isNone_iff_eq_none, ← Option.not_isSome, hsome, Bool.not_not]
          have hparts : (entries (.array items)).map Prod.snd = items := by
            simp [entries, Function.comp_def, List.zipIdx_map_fst]
          rw [itemShapes_eq, isEmpty_leaves rfl, Bool.eq_iff_iff, List.isEmpty_iff, List.filterMap_eq_nil_iff,
            forall₂_congr hitem, List.all_eq_true]
          conv => lhs; rw [← hparts]
          exact List.forall_mem_map
        rw [entrySketch]
        cases hempty : (itemShapes root items).isEmpty with
        | true =>
          rw [hshapes] at hempty
          rw [hempty, Bool.and_true]
          rfl
        | false =>
          rw [hshapes] at hempty
          rw [hempty, Bool.and_false]
          exact isBare_push g _ _
      | _ => exact (Bool.and_false _).symm
    · intro type
      cases hcontainer : v.isContainer with
      | true =>
        rw [plainShape_of_container hcontainer, isSome_shape?, hgathered [] .empty hcontainer]
        rfl
      | false => exact isSome_plainShape_primitive root hcontainer type

/-! ## Routes through plain content -/

/-- What a primitive item is shown as: a node that holds it, but for the one text that is taken for a key. -/
def itemShape (root : Option Value) (item : Value) : Shape :=
  if item.asString = some "template" then wordShape root .value else .content .value (some item) []

theorem itemShapes_primitives (root : Option Value) {items : List Value}
    (hprimitive : ∀ item ∈ items, item.isContainer = false) : itemShapes root items = items.map (itemShape root) := by
  rw [itemShapes_eq, ← List.filterMap_eq_map]
  apply List.filterMap_congr
  intro item hitem
  have hsketch : plainSketch root item [] .empty = ⟨some item, []⟩ := by
    have hitem' := hprimitive item hitem
    cases item <;> first | rfl | cases hitem'
  rw [plainShape, hsketch, Function.comp_apply, itemShape]
  split <;> rfl

/-- The items before an item that give a node are those that hold primitives. -/
theorem getElem?_itemShapes {root : Option Value} {item : Value} {s : Shape} (before after : List Value)
    (h : plainShape root .value item = some s) : (itemShapes root (before ++ item :: after))[before.countP
      fun other => !other.leaves.isEmpty]? = some s := by
  have hplace : (before.filterMap (plainShape root .value)).length =
      before.countP fun other => !other.leaves.isEmpty := by
    rw [List.length_filterMap_eq_countP]
    congr 1
    funext other
    exact (isBare_entrySketch root other).2 .value
  rw [itemShapes_eq, List.filterMap_append, List.filterMap_cons, h, ← hplace,
    List.getElem?_append_right (Nat.le_refl _), Nat.sub_self, List.getElem?_cons_zero]

/-- Where a list of primitives is said to stand in the tree, there is one node, a multi-node of what the items are shown
as. -/
theorem at_listed (root : Option Value) {route : List Step} {items : List Value} (hdiffer : v.Throughout EntriesDiffer)
    (h : ListedAt v path route items) (hitems : items ≠ []) (hprimitive : ∀ item ∈ items, item.isContainer = false)
    (hg : ∀ place, path <+: place → g.at place = []) {first : DataPath} {rest : List Step}
    (hroute : route = .child first :: rest) :
    ((plainSketch root v path g).at first).flatMap (fun c => nodesAt rest c.value) =
      [(Shape.multi true (items.map fun item => (itemShape root item).toValue)).toValue] := by
  induction h generalizing g first rest with
  | @own fields name items path hmem =>
    cases hroute
    have hentry : (.key name, .array items) ∈ entries (.object fields) := List.mem_map.2 ⟨_, hmem, rfl⟩
    obtain ⟨g', hbelow⟩ := at_plainSketch root hdiffer.self hentry path g
    obtain ⟨hbefore, hat⟩ := hbelow _ List.prefix_rfl
    rw [hat, entrySketch, itemShapes_primitives root hprimitive, if_neg (by simpa using hitems), at_push_self, hbefore,
      hg _ (List.prefix_append _ _), List.map_map]
    rfl
  | @nested v key inner path route items hmem hasset hinner ih =>
    obtain ⟨g', hbelow⟩ := at_plainSketch root hdiffer.self hmem path g
    obtain ⟨_, _, hroute', hprefix⟩ := hinner.exists_child
    rw [hroute'] at hroute
    cases hroute
    rw [(hbelow _ hprefix).2, entrySketch_object root inner hasset]
    apply ih (throughout_entry hdiffer hmem) hitems hprimitive ?_ hroute'
    intro place hplace
    rw [(hbelow place hplace).1, hg place ((List.prefix_append _ _).trans hplace)]
  | @asset fields inner path route items hmem hinner ih =>
    cases hroute
    have hentry : (.key "asset", .object inner) ∈ entries (.object fields) := List.mem_map.2 ⟨_, hmem, rfl⟩
    obtain ⟨g', hbelow⟩ := at_plainSketch root hdiffer.self hentry path g
    obtain ⟨hbefore, hat⟩ := hbelow _ List.prefix_rfl
    obtain ⟨_, _, rfl, -⟩ := hinner.exists_child
    have hnode := ih (g := .empty) (throughout_entry hdiffer hentry) hitems hprimitive (fun _ _ => rfl) rfl
    obtain ⟨s, hs, hnode⟩ := exists_shape?_of_nodesAt hnode .asset
    have hpushed : entrySketch root (.object inner) (.key "asset") path g' = g'.push (path ++ [.key "asset"]) s := by
      change g'.pushed _ ((plainSketch root (.object inner) [] .empty).shape? .asset) = _
      rw [hs]
      rfl
    rw [hat, hpushed, at_push_self, hbefore, hg _ (List.prefix_append _ _)]
    simpa using hnode
  | @item v key before after item path route items hmem hinner ih =>
    cases hroute
    obtain ⟨g', hbelow⟩ := at_plainSketch root hdiffer.self hmem path g
    obtain ⟨hbefore, hat⟩ := hbelow _ List.prefix_rfl
    obtain ⟨_, _, rfl, -⟩ := hinner.exists_child
    have hitem := (throughout_entry hdiffer hmem).item (List.mem_append_right before List.mem_cons_self)
    have hnode := ih (g := .empty) hitem hitems hprimitive (fun _ _ => rfl) rfl
    obtain ⟨s, hs, hnode⟩ := exists_shape?_of_nodesAt hnode .value
    have hmember := getElem?_itemShapes before after ((plainShape_of_container hinner.isContainer .value).trans hs)
    have hsome : (itemShapes root (before ++ item :: after)).isEmpty = false := by
      cases hempty : itemShapes root (before ++ item :: after) with
      | nil =>
        rw [hempty] at hmember
        cases hmember
      | cons => rfl
    rw [hat, entrySketch, hsome, if_neg Bool.false_ne_true, at_push_self, hbefore, hg _ (List.prefix_append _ _),
      List.nil_append, List.flatMap_singleton, nodesAt_multi, List.getElem?_map, hmember, Option.map_some,
      Option.toList_some, List.flatMap_singleton, hnode]

/-! ## Lists in trees that are built -/

/-- A multi-node that overrides, with a value for every item: a node without children that holds the item. -/
def listShape (items : List Value) : Shape :=
  .multi true (items.map fun item => (Shape.content .value (some item) []).toValue)

/-- The items are shown as they stand, unless the text `template` is among them and the document is an array. -/
theorem shown_eq_iff (document : Value) (items : List Value) :
    (Shape.multi true (items.map fun item => (itemShape (some document) item).toValue)).toValue =
      (listShape items).toValue ↔ document.isArray = false ∨ .string "template" ∉ items := by
  have hmap : (Shape.multi true (items.map fun item => (itemShape (some document) item).toValue)).toValue =
      (listShape items).toValue ↔ ∀ item ∈ items,
        (itemShape (some document) item).toValue = (Shape.content .value (some item) []).toValue := by
    rw [← List.map_inj_left]
    simp [listShape, Shape.toValue, Shape.nodeType, Shape.fields]
  rw [hmap]
  constructor
  · intro h
    rw [Decidable.or_iff_not_imp_left]
    intro harray hmem
    have hword := h _ hmem
    cases document with
    | array others =>
      have hoverride := congrArg (Value.field? "override") hword
      cases hoverride
    | _ => exact harray rfl
  · rintro h item hitem
    unfold itemShape
    split
    · rename_i hword
      obtain rfl : item = .string "template" := by
        cases item <;> cases hword
        rfl
      cases document with
      | array others =>
        rcases h with h | h
        · cases h
        · exact absurd hitem h
      | _ => rfl
    · rfl

section

variable {σ : Type} {host : Host σ} {limit : Nat} {document : σ → Value} {accepts : Value → Bool}
  {exts : List (Extension (Binder.State σ))} {world : σ} {s : Binder.State σ} {content : Value} {fields : Fields}
  {name : String} {items : List Value} {height : Nat}

/-- In plain content over data that is only read, take any property of an object whose value is a list of primitives, and
not an empty one. It has a place, and at its place in the tree that is built there is exactly one node: a multi-node with
a node for every item. These are the items as they stand, unless the text `template` is among them and the whole document
is an array. -/
theorem build_lists_primitives (hhost : host.OnlyReads)
    (hexts : exts.Perm (Extension.standard host (limit + 1) document accepts)) (hobject : content.isObject = true)
    (hplain : IsPlain content) (hdiffer : content.Throughout EntriesDiffer) (hfields : Occurs (.object fields) content)
    (hmem : (name, .array items) ∈ fields) (hitems : items ≠ [])
    (hprimitive : ∀ item ∈ items, item.isContainer = false) (hheight : content.nesting + 3 ≤ height) (depth : Nat)
    (hs : s.Over world) :
    (∃ route, ListedAt content [] route items) ∧
    ∀ route, ListedAt content [] route items → ∃ shown,
      (∀ type, ∃ tree last, (Hooks.ofExtensions exts).buildObject height content type depth s = some (some tree, last) ∧
        last.Over world ∧ nodesAt route tree.toValue = [shown]) ∧
      (∃ tree last, ((Hooks.ofExtensions exts).buildView height content depth).Ends s (.ok tree) last ∧
        last.Over world ∧ nodesAt route tree.toValue = [shown]) ∧
      (shown = (listShape items).toValue ↔ (document world).isArray = false ∨ .string "template" ∉ items) := by
  have hcontainer : content.isContainer = true := by
    rw [isContainer, hobject]
    rfl
  have hbuilt : ∀ route, ListedAt content [] route items → ∀ type, ∃ tree last t,
      (Hooks.ofExtensions exts).buildObject height content type depth s = some (some tree, last) ∧ last.Over world ∧
        tree.Has t ∧ t.nodeType = type.nodeType ∧ nodesAt route tree.toValue =
          [(Shape.multi true (items.map fun item => (itemShape (some (document world)) item).toValue)).toValue] := by
    intro route hroute type
    obtain ⟨first, rest, rfl, -⟩ := hroute.exists_child
    have hat := at_listed (g := .empty) (some (document world)) hdiffer hroute hitems hprimitive (fun _ _ => rfl) rfl
    obtain ⟨t, ht, hnode⟩ := exists_shape?_of_nodesAt hat type
    have hshape : plainShape (some (document world)) type content = some t :=
      (plainShape_of_container hcontainer type).trans ht
    obtain ⟨tree, last, hrun, hlast, hrel⟩ := buildObject_plain hexts
      (fun s hs => Binder.valueAt?_empty hhost limit document hs) hplain hheight type depth hs
    rw [hshape] at hrel
    cases hrel with
    | some hhas =>
      rw [← hhas.1] at hnode
      exact ⟨_, last, t, hrun, hlast, hhas, nodeType_of_shape? ht, hnode⟩
  refine ⟨(exists_listedAt hfields hmem).1 hcontainer [], ?_⟩
  intro route hroute
  refine ⟨(Shape.multi true (items.map fun item => (itemShape (some (document world)) item).toValue)).toValue, ?_, ?_,
    shown_eq_iff (document world) items⟩
  · intro type
    obtain ⟨tree, last, t, hrun, hlast, -, -, hnode⟩ := hbuilt route hroute type
    exact ⟨tree, last, hrun, hlast, hnode⟩
  · obtain ⟨tree, last, t, hrun, hlast, hhas, htype, hnode⟩ := hbuilt route hroute .view
    exact ⟨tree, last, buildView_of_buildObject hobject hrun hhas htype, hlast, hnode⟩

end

/-- A list in an asset in an item, with texts that look like more than texts. -/
theorem build_lists_primitives_names :
    let host : Host Value := (Host.ofDocument id fun document _ => document).sealed
    let exts := Extension.standard host 1 id Value.isTruthy
    let document : Value := .object [("template", .array [.null])]
    let s : Binder.State Value := .start .unbounded document
    let names : List Value := [.string "template", .string "\x7b\x7btemplate\x7d\x7d", .null]
    let content : Value := .object [("id", .string "v"),
      ("rows", .array [.object [], .object [("asset", .object [("names", .array names)])]])]
    let route : List Step := [.child [.key "rows"], .member 0, .child [.key "asset"], .child [.key "names"]]
    host.OnlyReads ∧ IsPlain content ∧ content.Throughout EntriesDiffer ∧ s.Over document ∧
      ListedAt content [] route names ∧
      ∃ tree last, ((Hooks.ofExtensions exts).buildView 8 content 0).Ends s (.ok tree) last ∧
        nodesAt route tree.toValue = [(listShape names).toValue] := by
  intro host exts document s names content route
  let asset : Fields := [("names", .array names)]
  have hhost : host.OnlyReads := Host.ofDocument_onlyReads _ _
  have hs : s.Over document := ⟨Binder.State.sound_start _ _, rfl⟩
  have hplain : IsPlain content := by decide
  have hdiffer : content.Throughout EntriesDiffer := by decide
  have hrow : (.key "rows", .array ([.object []] ++ .object [("asset", .object asset)] :: [])) ∈ entries content :=
    List.mem_cons_of_mem _ List.mem_cons_self
  have hlisted : ListedAt content [] route names :=
    .item hrow (.asset List.mem_cons_self (.own List.mem_cons_self))
  have hfields : Occurs (.object asset) content := by
    have hitem : (.ofPosition 1, .object [("asset", .object asset)]) ∈
        entries (.array [.object [], .object [("asset", .object asset)]]) := List.mem_cons_of_mem _ List.mem_cons_self
    have hasset : (.key "asset", .object asset) ∈ entries (.object [("asset", .object asset)]) := List.mem_cons_self
    exact .entry hrow (.entry hitem (.entry hasset .whole))
  obtain ⟨-, hplaces⟩ := build_lists_primitives hhost (.refl exts) rfl hplain hdiffer hfields List.mem_cons_self
    (List.cons_ne_nil _ _) (by simp [names, isContainer, isObject, isArray]) (by decide : content.nesting + 3 ≤ 8) 0 hs
  obtain ⟨shown, -, ⟨tree, last, hends, -, hshown⟩, hiff⟩ := hplaces route hlisted
  rw [hiff.2 (.inl rfl)] at hshown
  exact ⟨hhost, hplain, hdiffer, hs, hlisted, tree, last, hends, hshown⟩

/-- Over a document that is an array the text `template` is shown as a multi-node, with a null for every item of it. -/
theorem build_shows_no_word :
    let host : Host Value := (Host.ofDocument id fun document _ => document).sealed
    let exts := Extension.standard host 1 id Value.isTruthy
    let s : Binder.State Value := .start .unbounded (.array [.bool true])
    let content : Value := .object [("id", .string "v"), ("items", .array [.string "template"])]
    let route : List Step := [.child [.key "items"]]
    host.OnlyReads ∧ IsPlain content ∧ ListedAt content [] route [.string "template"] ∧
      ∃ tree last, ((Hooks.ofExtensions exts).buildView 5 content 0).Ends s (.ok tree) last ∧
        nodesAt route tree.toValue = [(Shape.multi true [(Shape.multi false
          [(Shape.content .value (some .null) []).toValue]).toValue]).toValue] ∧
        nodesAt route tree.toValue ≠ [(listShape [.string "template"]).toValue] := by
  intro host exts s content route
  have hhost : host.OnlyReads := Host.ofDocument_onlyReads _ _
  have hplain : IsPlain content := by decide
  have hs : s.Over (.array [.bool true]) := ⟨Binder.State.sound_start _ _, rfl⟩
  have hlisted : ListedAt content [] route [.string "template"] := .own (List.mem_cons_of_mem _ List.mem_cons_self)
  obtain ⟨tree, last, hrun, -, hrel⟩ := buildObject_plain (.refl exts)
    (fun s hs => Binder.valueAt?_empty hhost 0 id hs) hplain
    (by decide : content.nesting + 3 ≤ 5) .view 0 hs
  let shown : Value := (Shape.multi true [(Shape.multi false
    [(Shape.content .value (some .null) []).toValue]).toValue]).toValue
  let t : Shape := .content .view (some (.object [("id", .string "v")])) [⟨[.key "items"], false, shown⟩]
  have hshape : plainShape (some (.array [.bool true])) .view content = some t := rfl
  change Option.Rel Tree.Has tree (plainShape (some (.array [.bool true])) .view content) at hrel
  rw [hshape] at hrel
  cases hrel with
  | @some tree _ hhas =>
    have hnode : nodesAt route tree.toValue = [shown] := by
      rw [hhas.1, nodesAt_content]
      rfl
    refine ⟨hhost, hplain, hlisted, tree, last, buildView_of_buildObject rfl hrun hhas rfl, hnode, ?_⟩
    intro heq
    have hitems := (shown_eq_iff (.array [.bool true]) [.string "template"]).1 (List.cons.inj (hnode.symm.trans heq)).1
    simp [isArray] at hitems

end DataBound.View
