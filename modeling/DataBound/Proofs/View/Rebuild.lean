-- SUMMARY: Turning nodes back into values, and when a node of an arena holds a value.
import DataBound.Proofs.View.Arena
import DataBound.Proofs.View.Leaves

/-!
# What nodes hold

A node can be turned back into a value: its literal value with the values of its children at their paths. A node holds a
value if that gives the value back, and if in addition every primitive of the value is found once below the node, at its
path. Nodes hold what they hold however the arena goes on, since no node changes what it is.
-/

namespace DataBound.View

open Value

namespace Arena

/-- The node as a value: content nodes are their literal value with their children's values placed at their paths, and
multi-nodes arrays of their members' values; down to a depth. -/
def rebuild (a : Arena) : (depth : Nat) → NodeId → Value
  | 0, _ => .null
  | depth + 1, id =>
    match a.kind? id with
    | some (.content _ value children) =>
      placeAll (value.getD .null) (children.map fun child => (child.path, rebuild a depth child.node))
    | some (.multi _ members) => .array (members.map (rebuild a depth))
    | _ => .null

/-- The primitives found below the node with their paths: those of literal values, apart from what only keeps the place
of a child, and those below children and members; down to a depth. -/
def found (a : Arena) : (depth : Nat) → NodeId → List (DataPath × Value)
  | 0, _ => []
  | depth + 1, id =>
    match a.kind? id with
    | some (.content _ value children) =>
      uncovered (children.map fun child => (child.path, child.node)) ((value.map leaves).getD []) ++
        children.flatMap fun child => under child.path (found a depth child.node)
    | some (.multi _ members) => members.zipIdx.flatMap fun (m, i) => under [.ofPosition i] (found a depth m)
    | _ => []

/-- The nodes of the arena are what they were. -/
def Extends (a a' : Arena) : Prop := ∀ id kind, a.kind? id = some kind → a'.kind? id = some kind

/-- Below the node there is the value: it comes back when the node is rebuilt, and its primitives are found once each
and at their paths; and this stays so. -/
structure Holds (a : Arena) (id : Nat) (v : Value) : Prop where
  lt_size : id < a.size
  alike : ∀ a' depth, a.Extends a' → id < depth → Alike (a'.rebuild depth id) v
  found : ∀ a' depth, a.Extends a' → id < depth → (a'.found depth id).Perm v.leaves

variable {a a' b : Arena} {id : Nat} {v : Value}

theorem Extends.refl (a : Arena) : a.Extends a := fun _ _ h => h

theorem Extends.trans (h : a.Extends b) (h' : b.Extends a') : a.Extends a' := fun id kind hkind =>
  h' id kind (h id kind hkind)

theorem extends_alloc (a : Arena) (kind : Kind) : a.Extends (a.alloc kind).2 := by
  intro id k hk
  rw [kind?, get?_alloc_of_lt (lt_size_of_kind? hk)]
  exact hk

theorem extends_adopt (a : Arena) (p : NodeId) (ids : List NodeId) : a.Extends (a.adopt p ids) := by
  intro id k hk
  rw [kind?_adopt]
  exact hk

theorem extends_alloc_adopt (a : Arena) (kind : Kind) (ids : List NodeId) :
    a.Extends ((a.alloc kind).2.adopt a.size ids) := (extends_alloc a kind).trans (extends_adopt _ _ _)

theorem Extends.size_le (h : a.Extends a') : a.size ≤ a'.size := by
  refine Decidable.byContradiction fun hlt => ?_
  have hlast : a'.size < a.size := Nat.lt_of_not_le hlt
  obtain ⟨node, hnode⟩ : ∃ node, a.get? a'.size = some node := ⟨_, Array.getElem?_eq_getElem hlast⟩
  have hkind : a.kind? a'.size = some node.kind := by
    rw [kind?, hnode, Option.map_some]
  exact Nat.lt_irrefl _ (lt_size_of_kind? (h _ _ hkind))

theorem Holds.extends (h : a.Holds id v) (hext : a.Extends a') : a'.Holds id v where
  lt_size := Nat.lt_of_lt_of_le h.lt_size hext.size_le
  alike a'' depth hext' := h.alike a'' depth (hext.trans hext')
  found a'' depth hext' := h.found a'' depth (hext.trans hext')

end Arena

/-! ## Literals and nodes as parts -/

/-- What a piece of a value is there for: a literal for itself, a node for what it holds. -/
inductive Piece.Stands (a : Arena) : Piece → Value → Prop
  | literal {v : Value} : v.isContainer = false → Stands a (.literal v) v
  | node {id : NodeId} {v : Value} : a.Holds id v → Stands a (.node id) v

theorem Piece.Stands.extends {a a' : Arena} {piece : Piece} {v : Value} (h : piece.Stands a v)
    (hext : a.Extends a') : piece.Stands a' v := by
  cases h with
  | literal hprimitive => exact .literal hprimitive
  | node hholds => exact .node (hholds.extends hext)

/-- The literals and the nodes as parts. -/
def pieces (literals : List (DataPath × Value)) (nodes : List (DataPath × NodeId)) : List (DataPath × Piece) :=
  mapped .literal literals ++ mapped .node nodes

/-- The literal value after more literals are placed into it. -/
def collected (old : Option Value) (literals : List (DataPath × Value)) : Option Value :=
  literals.foldl (fun acc (path, v) => some (place path v (acc.getD .null))) old

theorem collected_append (old : Option Value) (literals more : List (DataPath × Value)) :
    collected old (literals ++ more) = collected (collected old literals) more := List.foldl_append

theorem collected_some (old : Value) (literals : List (DataPath × Value)) :
    collected (some old) literals = some (placeAll old literals) := by
  induction literals generalizing old with
  | nil => rfl
  | cons literal rest ih => exact ih _

theorem collected_none {literals : List (DataPath × Value)} (hne : literals ≠ []) :
    collected none literals = some (placeAll .null literals) := by
  cases literals with
  | nil => exact absurd rfl hne
  | cons literal rest => exact collected_some _ rest

theorem getD_collected (literals : List (DataPath × Value)) :
    (collected none literals).getD .null = placeAll .null literals := by
  cases literals with
  | nil => rfl
  | cons literal rest => rw [collected_none (List.cons_ne_nil _ _), Option.getD_some]

variable {literals : List (DataPath × Value)} {nodes : List (DataPath × NodeId)}

theorem chosen_literal_pieces : chosen Piece.literal? (pieces literals nodes) = literals := by
  simp [chosen, pieces, mapped, List.filterMap_map, Piece.literal?]

theorem chosen_node_pieces : chosen Piece.node? (pieces literals nodes) = nodes := by
  simp [chosen, pieces, mapped, List.filterMap_map, Piece.node?]

theorem headed_pieces (s : Segment) :
    headed s (pieces literals nodes) = pieces (headed s literals) (headed s nodes) := by
  rw [pieces, headed_append, headed_mapped, headed_mapped, pieces]

/-- The children that a content node gets for the nodes. -/
def childrenAt (nodes : List (DataPath × NodeId)) : List Child := nodes.map fun (path, node) => ⟨path, false, node⟩

/-- The piece as a value: a literal is its own. -/
def Piece.value (rebuild : NodeId → Value) : Piece → Value
  | .literal v => v
  | .node id => rebuild id

/-- The primitives found in a piece. -/
def Piece.leaves (found : NodeId → List (DataPath × Value)) : Piece → List (DataPath × Value)
  | .literal v => [([], v)]
  | .node id => found id

theorem mapped_value_pieces (rebuild : NodeId → Value) :
    mapped (Piece.value rebuild) (pieces literals nodes) = literals ++ mapped rebuild nodes := by
  simp [mapped, pieces, Function.comp_def, Piece.value]

theorem flatMap_leaves_pieces (found : NodeId → List (DataPath × Value)) :
    ((pieces literals nodes).flatMap fun (path, piece) => under path (piece.leaves found)) =
      literals ++ nodes.flatMap fun (path, node) => under path (found node) := by
  rw [pieces, List.flatMap_append, mapped, mapped, List.flatMap_map, List.flatMap_map]
  simp [under, Piece.leaves]

namespace Arena

variable {a a' b : Arena} {v : Value} {d : Nat}

/-- The pieces give the value back in every arena that goes on from theirs. -/
theorem alike_of_stands {piece : Piece} (h : piece.Stands a v) (hext : a.Extends b) (hd : a.size ≤ d) :
    Alike (piece.value (b.rebuild d)) v := by
  cases h with
  | literal hprimitive => exact .primitive hprimitive
  | node hholds => exact hholds.alike b d hext (Nat.lt_of_lt_of_le hholds.lt_size hd)

theorem leaves_perm_of_stands {piece : Piece} (h : piece.Stands a v) (hext : a.Extends b) (hd : a.size ≤ d) :
    (piece.leaves (b.found d)).Perm v.leaves := by
  cases h with
  | literal hprimitive => exact .of_eq (leaves_primitive hprimitive).symm
  | node hholds => exact hholds.found b d hext (Nat.lt_of_lt_of_le hholds.lt_size hd)

/-- A content node made for the parts of a value holds the value. -/
theorem holds_content {type : ContentType} (hv : v.Filled) (h : Splits (Piece.Stands a) v (pieces literals nodes))
    (hext : a.Extends a')
    (hkind : a'.kind? a.size = some (.content type (collected none literals) (childrenAt nodes))) :
    a'.Holds a.size v where
  lt_size := lt_size_of_kind? hkind
  alike b depth hext' hdepth := by
    obtain ⟨k, rfl⟩ := Nat.exists_eq_add_of_lt hdepth
    have halike : Splits Alike v (mapped (Piece.value (b.rebuild (a.size + k))) (pieces literals nodes)) :=
      h.mapped fun _ _ hstands => alike_of_stands hstands (hext.trans hext') (Nat.le_add_right _ _)
    rw [mapped_value_pieces] at halike
    rw [rebuild, hext' _ _ hkind]
    have hvalue := halike.placeAll_alike hv
    rw [placeAll_append] at hvalue
    simpa [getD_collected, childrenAt, mapped, Function.comp_def] using hvalue
  found b depth hext' hdepth := by
    obtain ⟨k, rfl⟩ := Nat.exists_eq_add_of_lt hdepth
    have hleaves := h.leaves_perm
      (fun _ _ hstands => leaves_perm_of_stands hstands (hext.trans hext') (Nat.le_add_right a.size k)) hv
    rw [flatMap_leaves_pieces] at hleaves
    rw [found, hext' _ _ hkind]
    refine List.Perm.trans ?_ hleaves
    have hcovers : ((childrenAt nodes).map fun child => (child.path, child.node)) = nodes := by
      simp [childrenAt, Function.comp_def]
    have hbelow : ((childrenAt nodes).flatMap fun child => under child.path (b.found (a.size + k) child.node)) =
        nodes.flatMap fun (path, node) => under path (b.found (a.size + k) node) := by
      rw [childrenAt, List.flatMap_map]
    dsimp only
    rw [hcovers, hbelow]
    apply List.Perm.append_right
    by_cases hne : literals = []
    · subst hne
      exact .nil
    · have huncovered := h.uncovered_perm (fun x v hx => by cases hx; assumption) hv
      rw [chosen_literal_pieces, chosen_node_pieces] at huncovered
      rw [collected_none hne]
      exact huncovered hne

theorem alike_items {depth : Nat} {items : List Value} {members : List Nat}
    (h : List.Forall₂ (fun m v => Alike (a.rebuild depth m) v) members items) :
    Alike (.array (members.map (a.rebuild depth))) (.array items) := by
  have hlength := h.length_eq
  refine .array (by rw [List.length_map, hlength]) ?_
  intro i v other hv hother
  rw [List.getElem?_map] at hv
  obtain ⟨m, hm, rfl⟩ := Option.map_eq_some_iff.1 hv
  obtain ⟨hi, rfl⟩ := List.getElem?_eq_some_iff.1 hm
  obtain ⟨hi', rfl⟩ := List.getElem?_eq_some_iff.1 hother
  exact (List.forall₂_iff_get.1 h).2 i hi hi'

theorem leaves_perm_items {depth start : Nat} {items : List Value} {members : List Nat}
    (h : List.Forall₂ (fun m v => (a.found depth m).Perm v.leaves) members items) :
    ((members.zipIdx start).flatMap fun (m, i) => under [.ofPosition i] (a.found depth m)).Perm
      ((items.zipIdx start).flatMap fun (v, i) => under [.ofPosition i] v.leaves) := by
  induction h generalizing start with
  | nil => exact .nil
  | cons hmember _ ih =>
    rw [List.zipIdx_cons, List.zipIdx_cons, List.flatMap_cons, List.flatMap_cons]
    exact (hmember.map _).append ih

/-- A multi-node made of nodes that hold the items of an array holds the array. -/
theorem holds_multi {overrides : Bool} {items : List Value} {members : List Nat}
    (h : List.Forall₂ a.Holds members items) (hext : a.Extends a')
    (hkind : a'.kind? a.size = some (.multi overrides members)) : a'.Holds a.size (.array items) where
  lt_size := lt_size_of_kind? hkind
  alike b depth hext' hdepth := by
    obtain ⟨k, rfl⟩ := Nat.exists_eq_add_of_lt hdepth
    rw [rebuild, hext' _ _ hkind]
    apply alike_items
    apply h.imp
    intro m v hm
    exact hm.alike b _ (hext.trans hext') (Nat.lt_of_lt_of_le hm.lt_size (Nat.le_add_right _ _))
  found b depth hext' hdepth := by
    obtain ⟨k, rfl⟩ := Nat.exists_eq_add_of_lt hdepth
    rw [Arena.found, hext' _ _ hkind, leaves_array]
    apply leaves_perm_items
    apply h.imp
    intro m v hm
    exact hm.found b _ (hext.trans hext') (Nat.lt_of_lt_of_le hm.lt_size (Nat.le_add_right _ _))

end Arena

/-! ## Trees -/

namespace Tree

/-- The tree as a value again. -/
def rebuild (tree : Tree) : Value := tree.arena.rebuild tree.depthBound tree.root

/-- The primitives found in the tree, with their paths. -/
def found (tree : Tree) : List (DataPath × Value) := tree.arena.found tree.depthBound tree.root

end Tree

end DataBound.View
