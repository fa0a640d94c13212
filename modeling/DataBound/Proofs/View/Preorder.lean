-- SUMMARY: Where nodes list earlier nodes, walking, searching and showing a tree all go through it in preorder.
import DataBound.Proofs.Value
import DataBound.Proofs.View.Shape
import DataBound.Proofs.View.Walk

/-!
# Trees in preorder

Three ways lead through a tree: the walk and the search take nodes from a stack, and the tree is shown as a value by
recursion. In an arena whose nodes list earlier nodes only they all visit a node first and then, child by child, what is
below it. No way down is longer than the number of the node it starts from, so the bounds on the depth do not show.
-/

namespace DataBound.View

namespace Arena

variable {a : Arena} {id depth : Nat} {kind : Kind}

/-- The nodes list earlier nodes only. -/
def ListsEarlier (a : Arena) : Prop := ∀ id < a.size, ∀ c ∈ a.childIds id, c < id

instance : Decidable a.ListsEarlier := inferInstanceAs (Decidable (∀ id < a.size, ∀ c ∈ a.childIds id, c < id))

theorem ListsEarlier.lt (h : a.ListsEarlier) {c : Nat} (hc : c ∈ a.childIds id) : c < id ∧ id < a.size := by
  cases hkind : a.kind? id with
  | none =>
    rw [childIds, hkind] at hc
    cases hc
  | some kind => exact ⟨h id (lt_size_of_kind? hkind) c hc, lt_size_of_kind? hkind⟩

/-! ## Bounds on the depth -/

section

variable {α : Type} {f : Nat → Nat → α} {node : Nat → (Nat → α) → α}

/-- A recursion along listed nodes comes to the same from any depth beyond the node's number on. -/
theorem ListsEarlier.eq_of_lt (h : a.ListsEarlier) (hstep : ∀ depth id, f (depth + 1) id = node id (f depth))
    (hcongr : ∀ id below below', (∀ c ∈ a.childIds id, below c = below' c) → node id below = node id below')
    {depth' : Nat} (hdepth : id < depth) (hdepth' : id < depth') : f depth id = f depth' id := by
  induction id using Nat.strongRecOn generalizing depth depth' with
  | ind id ih =>
    obtain ⟨d, rfl⟩ := Nat.exists_eq_add_of_lt hdepth
    obtain ⟨d', rfl⟩ := Nat.exists_eq_add_of_lt hdepth'
    rw [hstep, hstep]
    apply hcongr
    intro c hc
    have hlt := (h.lt hc).1
    exact ih c hlt (Nat.lt_add_right d hlt) (Nat.lt_add_right d' hlt)

/-- Beyond the size of the arena every depth is deep enough for every number. -/
theorem ListsEarlier.eq_of_size_lt (h : a.ListsEarlier) (hstep : ∀ depth id, f (depth + 1) id = node id (f depth))
    (hcongr : ∀ id below below', (∀ c ∈ a.childIds id, below c = below' c) → node id below = node id below')
    {depth' : Nat} (hdepth : a.size < depth) (hdepth' : a.size < depth') (id : Nat) : f depth id = f depth' id := by
  obtain ⟨d, rfl⟩ := Nat.exists_eq_add_of_lt hdepth
  obtain ⟨d', rfl⟩ := Nat.exists_eq_add_of_lt hdepth'
  rw [hstep, hstep]
  apply hcongr
  intro c hc
  obtain ⟨hlt, hsize⟩ := h.lt hc
  have hc : c < a.size := Nat.lt_trans hlt hsize
  exact h.eq_of_lt hstep hcongr (Nat.lt_add_right d hc) (Nat.lt_add_right d' hc)

/-- There the depth can stay the same on the way down. -/
theorem ListsEarlier.eq_step (h : a.ListsEarlier) (hstep : ∀ depth id, f (depth + 1) id = node id (f depth))
    (hcongr : ∀ id below below', (∀ c ∈ a.childIds id, below c = below' c) → node id below = node id below')
    (hdepth : a.size < depth) (id : Nat) : f depth id = node id (f depth) :=
  (h.eq_of_size_lt hstep hcongr hdepth (Nat.lt_succ_of_lt hdepth) id).trans (hstep depth id)

end

/-- A node and what is found below the nodes that it lists. -/
def visit (a : Arena) (id : NodeId) (below : NodeId → List NodeId) : List NodeId :=
  if (a.kind? id).isSome then id :: (a.childIds id).flatMap below else []

/-- A node shown as a value, given how the nodes that it lists are shown. -/
def render (a : Arena) (id : NodeId) (below : NodeId → Value) : Value :=
  match a.kind? id with
  | some kind => (kind.shape below).toValue
  | none => .null

theorem preorder_visit (depth id : Nat) : a.preorder (depth + 1) id = a.visit id (a.preorder depth) := by
  rw [preorder, visit, childIds]
  cases a.kind? id <;> rfl

theorem visit_congr (id : Nat) (below below' : NodeId → List NodeId) (h : ∀ c ∈ a.childIds id, below c = below' c) :
    a.visit id below = a.visit id below' := by
  rw [visit, visit, List.flatMap_congr h]

theorem toValue_render (depth id : Nat) : a.toValue (depth + 1) id = a.render id (a.toValue depth) := by
  cases hkind : a.kind? id with
  | none => rw [toValue, render, hkind]
  | some kind => rw [toValue_succ hkind, render, hkind]

theorem shape_congr {below below' : NodeId → Value} (h : ∀ c ∈ kind.childIds, below c = below' c) :
    kind.shape below = kind.shape below' := by
  cases kind with
  | content type value children =>
    rw [Kind.shape, Kind.shape, List.map_congr_left]
    intro child hchild
    rw [h child.node (List.mem_map_of_mem hchild)]
  | multi overrides members => exact congrArg (Shape.multi overrides) (List.map_congr_left h)
  | switch dynamic cases =>
    rw [Kind.shape, Kind.shape, List.map_congr_left]
    intro c hc
    rw [h c.node (List.mem_map_of_mem hc)]
  | applicability expression body => rw [Kind.shape, Kind.shape, h body List.mem_cons_self]
  | async text body => rw [Kind.shape, Kind.shape, h body List.mem_cons_self]
  | _ => rfl

theorem render_congr (id : Nat) (below below' : NodeId → Value) (h : ∀ c ∈ a.childIds id, below c = below' c) :
    a.render id below = a.render id below' := by
  rw [render, render]
  cases hkind : a.kind? id with
  | none => rfl
  | some kind =>
    rw [childIds_eq hkind] at h
    exact congrArg Shape.toValue (shape_congr h)

/-! ## Searching -/

/-- The text under `id` in the literal value of the node with a number. -/
def id? (a : Arena) (id : NodeId) : Option String := (a.kind? id).bind Kind.id?

/-- A number without a node ends the search, where the walk would go on. -/
theorem search_none (hkind : a.kind? id = none) (wanted : String) (depth : Nat) (rest : List (Nat × NodeId)) :
    a.search wanted ((depth + 1, id) :: rest) = none := by
  rw [search]
  split
  · rfl
  · rename_i kind hsome
    rw [hkind] at hsome
    cases hsome

theorem search_cons (hkind : a.kind? id = some kind) (wanted : String) (depth : Nat) (rest : List (Nat × NodeId)) :
    a.search wanted ((depth + 1, id) :: rest) =
      if kind.id? = some wanted then some id else a.search wanted (kind.childIds.map (depth, ·) ++ rest) := by
  rw [search]
  split
  · rename_i hnone
    rw [hnone] at hkind
    cases hkind
  · rename_i kind' hkind'
    obtain rfl := Option.some.inj (hkind.symm.trans hkind')
    rfl

/-- As long as all nodes on the stack are there, the search finds the first node of the walk that has the text. -/
theorem ListsEarlier.search_eq (h : a.ListsEarlier) (wanted : String) (stack : List (Nat × NodeId))
    (hstack : ∀ entry ∈ stack, entry.2 < a.size) :
    a.search wanted stack = (a.walk stack).find? fun id => a.id? id = some wanted := by
  induction stack using search.induct a wanted with
  | case1 => rw [search, walk, List.find?_nil]
  | case2 id rest ih =>
    rw [search, walk]
    exact ih (List.forall_mem_cons.1 hstack).2
  | case3 depth id rest hnone =>
    have hsize := (List.forall_mem_cons.1 hstack).1
    rw [kind?, get?, Array.getElem?_eq_getElem hsize] at hnone
    cases hnone
  | case4 depth id rest kind hkind hfound =>
    have hid : a.id? id = some wanted := by rw [id?, hkind, Option.bind_some, hfound]
    rw [search_cons hkind, walk_cons hkind, if_pos hfound, List.find?_cons, decide_eq_true hid]
  | case5 depth id rest kind hkind hnot ih =>
    have hid : a.id? id ≠ some wanted := by rwa [id?, hkind, Option.bind_some]
    rw [search_cons hkind, walk_cons hkind, if_neg hnot, List.find?_cons, decide_eq_false hid]
    apply ih
    intro entry hentry
    rcases List.mem_append.1 hentry with hchild | hrest
    · obtain ⟨c, hc, rfl⟩ := List.mem_map.1 hchild
      obtain ⟨hlt, hsize⟩ := h.lt (childIds_eq hkind ▸ hc)
      exact Nat.lt_trans hlt hsize
    · exact hstack entry (List.mem_cons_of_mem _ hrest)

end Arena

/-! ## Nodes in values -/

/-- The type of the node that is shown as a value, if it is one. -/
def shownType? (v : Value) : Option NodeType := ((v.field? "type").bind Value.asString).bind NodeType.ofName?

/-- The items of the array under a key. -/
def itemsUnder (key : String) (v : Value) : List Value := ((v.field? key).bind Value.asArray).getD []

/-- The nodes right below a node in a tree that is shown as a value, in the order in which they stand there. -/
def shownBelow (v : Value) : List Value :=
  match shownType? v with
  | some .asset | some .view | some .value => (itemsUnder "children" v).filterMap (Value.field? "value")
  | some .applicability | some .async => (v.field? "value").toList
  | some .multiNode => itemsUnder "values" v
  | some .switch => (itemsUnder "cases" v).filterMap (Value.field? "value")
  | some .template | some .unknown | some .empty | none => []

theorem nesting_lt_of_field? {v x : Value} {key : String} (h : v.field? key = some x) : x.nesting < v.nesting := by
  cases v with
  | object fields => exact Nat.lt_succ_of_le (nesting_le_fieldsNesting (Fields.mem_of_find? h))
  | _ => cases h

theorem nesting_lt_of_mem_asArray {v x : Value} (h : x ∈ v.asArray.getD []) : x.nesting < v.nesting := by
  cases v with
  | array items => exact Nat.lt_succ_of_le (nesting_le_itemsNesting h)
  | _ => cases h

theorem nesting_lt_of_mem_itemsUnder {v x : Value} {list : String} (h : x ∈ itemsUnder list v) :
    x.nesting < v.nesting := by
  unfold itemsUnder at h
  cases hlist : v.field? list with
  | none =>
    rw [hlist] at h
    cases h
  | some items =>
    rw [hlist] at h
    exact Nat.lt_trans (nesting_lt_of_mem_asArray h) (nesting_lt_of_field? hlist)

theorem nesting_lt_of_mem_shownBelow {v x : Value} (h : x ∈ shownBelow v) : x.nesting < v.nesting := by
  have hlisted : ∀ list, x ∈ (itemsUnder list v).filterMap (Value.field? "value") → x.nesting < v.nesting := by
    intro list hx
    obtain ⟨item, hitem, hvalue⟩ := List.mem_filterMap.1 hx
    exact Nat.lt_trans (nesting_lt_of_field? hvalue) (nesting_lt_of_mem_itemsUnder hitem)
  unfold shownBelow at h
  split at h
  any_goals exact hlisted _ h
  any_goals exact nesting_lt_of_field? (Option.mem_toList.1 h)
  any_goals cases h
  · exact nesting_lt_of_mem_itemsUnder h

/-- The nodes in a tree that is shown as a value, in the order in which they stand there. -/
def shownNodes (v : Value) : List Value :=
  if (shownType? v).isSome then v :: (shownBelow v).attach.flatMap fun x => shownNodes x.1 else []
termination_by v.nesting
decreasing_by exact nesting_lt_of_mem_shownBelow x.2

theorem shownNodes_eq (v : Value) :
    shownNodes v = if (shownType? v).isSome then v :: (shownBelow v).flatMap shownNodes else [] := by
  rw [shownNodes]
  conv => rhs; rw [← List.attach_map_subtype_val (shownBelow v), List.flatMap_map]

theorem shownType?_toValue (s : Shape) : shownType? s.toValue = some s.nodeType := by
  change NodeType.ofName? s.nodeType.name = some s.nodeType
  cases s.nodeType <;> rfl

theorem ShownChild.field?_value (child : ShownChild) : child.toValue.field? "value" = some child.value := by
  cases happended : child.appended <;> simp [toValue, happended, Value.field?, Fields.find?]

theorem itemsUnder_children (type : ContentType) (value : Option Value) (children : List ShownChild) :
    itemsUnder "children" (Shape.content type value children).toValue = children.map ShownChild.toValue := by
  cases children <;> cases value <;> rfl

/-- A case of a switch as it is shown. -/
def shownCase (c : Value × Value) : Value := .object [("case", c.1), ("value", c.2)]

theorem itemsUnder_cases (dynamic : Bool) (cases : List (Value × Value)) :
    itemsUnder "cases" (Shape.switch dynamic cases).toValue = cases.map shownCase := rfl

/-- What is shown right below a node is what the node lists. -/
theorem shownBelow_shape (kind : Kind) (below : NodeId → Value) :
    shownBelow (kind.shape below).toValue = kind.childIds.map below := by
  cases kind with
  | content type value children =>
    have hitems : shownBelow (Kind.shape below (.content type value children)).toValue =
        (itemsUnder "children" (Kind.shape below (.content type value children)).toValue).filterMap
          (Value.field? "value") := by
      rw [shownBelow, shownType?_toValue]
      cases type <;> rfl
    have hvalue : Value.field? "value" ∘ ShownChild.toValue = some ∘ ShownChild.value :=
      funext ShownChild.field?_value
    rw [hitems, Kind.shape, itemsUnder_children, List.filterMap_map, hvalue, List.filterMap_eq_map, List.map_map,
      Kind.childIds, List.map_map]
    rfl
  | switch dynamic cases =>
    have hitems : shownBelow (Kind.shape below (.switch dynamic cases)).toValue =
        (itemsUnder "cases" (Kind.shape below (.switch dynamic cases)).toValue).filterMap (Value.field? "value") := by
      rw [shownBelow, shownType?_toValue]
      rfl
    have hvalue : Value.field? "value" ∘ shownCase = some ∘ Prod.snd := rfl
    rw [hitems, Kind.shape, itemsUnder_cases, List.filterMap_map, hvalue, List.filterMap_eq_map, List.map_map,
      Kind.childIds, List.map_map]
    rfl
  | _ =>
    rw [shownBelow, shownType?_toValue]
    rfl

namespace Arena

variable {a : Arena} {id depth : Nat} {kind : Kind}

theorem render_eq (h : a.kind? id = some kind) (below : NodeId → Value) :
    a.render id below = (kind.shape below).toValue := by
  rw [render, h]

theorem shownNodes_render (id : NodeId) (below : NodeId → Value) :
    shownNodes (a.render id below) =
      if (a.kind? id).isSome then a.render id below :: (a.childIds id).flatMap (shownNodes ∘ below) else [] := by
  cases hkind : a.kind? id with
  | none =>
    rw [shownNodes_eq, render, hkind]
    rfl
  | some kind =>
    rw [shownNodes_eq, render_eq hkind, shownType?_toValue, shownBelow_shape, childIds_eq hkind, List.flatMap_map]
    rfl

theorem ListsEarlier.preorder_eq (h : a.ListsEarlier) (hdepth : a.size < depth) (id : NodeId) :
    a.preorder depth id = a.visit id (a.preorder depth) :=
  h.eq_step preorder_visit visit_congr hdepth id

theorem ListsEarlier.toValue_eq (h : a.ListsEarlier) (hdepth : a.size < depth) (id : NodeId) :
    a.toValue depth id = a.render id (a.toValue depth) :=
  h.eq_step toValue_render render_congr hdepth id

/-- A node shows itself and then, child by child, the nodes below it. -/
theorem ListsEarlier.shownNodes_toValue (h : a.ListsEarlier) (hdepth : a.size < depth) (id : NodeId) :
    shownNodes (a.toValue depth id) = (a.preorder depth id).map (a.toValue depth) := by
  induction id using Nat.strongRecOn with
  | ind id ih =>
    have hbelow : (a.childIds id).flatMap (shownNodes ∘ a.toValue depth) =
        ((a.childIds id).flatMap (a.preorder depth)).map (a.toValue depth) := by
      rw [List.map_flatMap]
      exact List.flatMap_congr fun c hc => ih c (h.lt hc).1
    rw [h.toValue_eq hdepth, shownNodes_render, h.preorder_eq hdepth, visit, hbelow, ← h.toValue_eq hdepth]
    split
    · rfl
    · rfl

end Arena

/-! ## Walks that agree -/

namespace Tree

variable {tree : Tree} {id : NodeId}

/-- The tree below a node. -/
def below (tree : Tree) (id : NodeId) : Tree := ⟨tree.arena, id⟩

/-- The walks over a tree agree. -/
structure WalksAgree (tree : Tree) : Prop where
  /-- What can be reached is the root, if it is there, and then child by child what can be reached from there. -/
  reachable_eq : ∀ root, (tree.below root).reachable =
    if (tree.arena.kind? root).isSome then root :: (tree.arena.childIds root).flatMap fun c => (tree.below c).reachable
    else []
  /-- Nothing is cut short by the bound on the depth. -/
  unbounded : ∀ depth, tree.depthBound ≤ depth →
    tree.arena.walk [(depth, tree.root)] = tree.reachable ∧
    (∀ wanted, tree.arena.search wanted [(depth, tree.root)] = tree.findById? wanted) ∧
    tree.arena.toValue depth tree.root = tree.toValue
  /-- The node found is the first one that has the text. -/
  findById?_eq : ∀ wanted, tree.findById? wanted = tree.reachable.find? fun id => tree.arena.id? id = some wanted
  findById?_eq_none_iff : ∀ wanted,
    tree.findById? wanted = none ↔ ∀ id ∈ tree.reachable, tree.arena.id? id ≠ some wanted
  /-- A node shows right below itself what it lists, in that order. -/
  shownBelow_eq : ∀ id ∈ tree.reachable,
    shownBelow (tree.below id).toValue = (tree.arena.childIds id).map fun c => (tree.below c).toValue
  /-- The nodes that are shown are those that can be reached, in their order. -/
  shownNodes_eq : shownNodes tree.toValue = tree.reachable.map fun id => (tree.below id).toValue

theorem reachable_eq_preorder (tree : Tree) : tree.reachable = tree.arena.preorder tree.depthBound tree.root := by
  rw [reachable_eq, List.flatMap_singleton]

theorem size_lt_depthBound (tree : Tree) : tree.arena.size < tree.depthBound := Nat.lt_succ_self _

theorem reachable_below (h : tree.arena.ListsEarlier) (id : NodeId) : (tree.below id).reachable =
    if (tree.arena.kind? id).isSome then id :: (tree.arena.childIds id).flatMap fun c => (tree.below c).reachable
    else [] := by
  simp only [reachable_eq_preorder]
  exact h.preorder_eq tree.size_lt_depthBound id

theorem walk_ends (h : tree.arena.ListsEarlier) {depth : Nat} (hdepth : tree.depthBound ≤ depth) :
    tree.arena.walk [(depth, tree.root)] = tree.reachable := by
  rw [Arena.walk_eq, List.flatMap_singleton, reachable_eq_preorder]
  exact h.eq_of_size_lt Arena.preorder_visit Arena.visit_congr (Nat.lt_of_lt_of_le tree.size_lt_depthBound hdepth)
    tree.size_lt_depthBound tree.root

theorem search_root (h : tree.arena.ListsEarlier) (wanted : String) {depth : Nat} (hdepth : tree.depthBound ≤ depth) :
    tree.arena.search wanted [(depth, tree.root)] = tree.reachable.find? fun id => tree.arena.id? id = some wanted := by
  rw [← walk_ends h hdepth]
  cases hroot : tree.arena.kind? tree.root with
  | none =>
    obtain ⟨d, rfl⟩ := Nat.exists_eq_add_of_le' (Nat.le_trans (Nat.succ_pos _) hdepth : 1 ≤ depth)
    rw [Arena.search_none hroot, Arena.walk_none hroot, Arena.walk, List.find?_nil]
  | some kind =>
    apply h.search_eq
    intro entry hentry
    rw [List.mem_singleton.1 hentry]
    exact Arena.lt_size_of_kind? hroot

theorem shownBelow_below (h : tree.arena.ListsEarlier) (id : NodeId) :
    shownBelow (tree.below id).toValue = (tree.arena.childIds id).map fun c => (tree.below c).toValue := by
  have htoValue : (tree.below id).toValue = _ := h.toValue_eq tree.size_lt_depthBound id
  rw [htoValue]
  cases hkind : tree.arena.kind? id with
  | none =>
    rw [Arena.render, Arena.childIds, hkind]
    rfl
  | some kind =>
    rw [Arena.render_eq hkind, shownBelow_shape, Arena.childIds_eq hkind]
    rfl

/-- What is built lists earlier nodes only. -/
theorem WellListed.listsEarlier (h : tree.WellListed) : tree.arena.ListsEarlier :=
  fun id _ c hc => (h.lists_earlier id c hc).1

/-- Where every node lists earlier nodes only, the walk, the search and the tree as it is shown all go through the tree
in preorder. -/
theorem walksAgree_of_listsEarlier (tree : Tree) (h : tree.arena.ListsEarlier) : tree.WalksAgree where
  reachable_eq := reachable_below h
  unbounded depth hdepth := by
    refine ⟨walk_ends h hdepth, ?_, ?_⟩
    · intro wanted
      exact (search_root h wanted hdepth).trans (search_root h wanted (Nat.le_refl _)).symm
    · exact h.eq_of_size_lt Arena.toValue_render Arena.render_congr (Nat.lt_of_lt_of_le tree.size_lt_depthBound hdepth)
        tree.size_lt_depthBound tree.root
  findById?_eq wanted := search_root h wanted (Nat.le_refl _)
  findById?_eq_none_iff wanted := by
    rw [findById?, search_root h wanted (Nat.le_refl _), List.find?_eq_none]
    simp only [decide_eq_true_eq, ne_eq]
  shownBelow_eq id _ := shownBelow_below h id
  shownNodes_eq := by
    rw [reachable_eq_preorder]
    exact h.shownNodes_toValue tree.size_lt_depthBound tree.root

/-- A view of an asset that stands below two other nodes, with a switch and a node that was put aside. -/
theorem walksAgree_of_listsEarlier_sample :
    let asset : Kind := .content .asset (some (.object [("id", .string "a")])) []
    let kinds : List Kind := [asset, .content .value (some (.string "x")) [], .multi true [0, 1], .empty,
      .async "later" 2, .switch true [⟨.bool true, 1⟩, ⟨.null, 0⟩], .applicability (.string "e") 5,
      .content .view (some (.object [("id", .string "a")])) [⟨[.key "p"], false, 4⟩, ⟨[.key "q"], true, 6⟩]]
    let tree : Tree := ⟨⟨(kinds.map fun kind => ⟨kind, none⟩).toArray⟩, 7⟩
    tree.arena.ListsEarlier ∧ tree.WalksAgree := by
  intro asset kinds tree
  have hearlier : tree.arena.ListsEarlier := by decide
  exact ⟨hearlier, walksAgree_of_listsEarlier tree hearlier⟩

end Tree

end DataBound.View
