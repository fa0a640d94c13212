-- SUMMARY: Arenas of view nodes, trees in them, and the walks over a tree.
import DataBound.View.Node

/-! # Arenas and trees

An arena holds the nodes made while content is built, numbered in the order in which they were made; nodes
that were replaced or dropped stay in it. A tree is an arena with a root, and only what can be reached from the
root belongs to it. Nothing in the types rules out cycles, so every walk has a bound on its depth: without a
cycle no way down passes more nodes than there are. -/

namespace DataBound.View

/-! ## Arenas -/

structure Arena where
  nodes : Array Node

namespace Arena

def empty : Arena := ⟨#[]⟩

def size (a : Arena) : Nat := a.nodes.size

def get? (a : Arena) (id : NodeId) : Option Node := a.nodes[id]?

def kind? (a : Arena) (id : NodeId) : Option Kind := (a.get? id).map Node.kind

/-- The type of the node with a number. -/
def type? (a : Arena) (id : NodeId) : Option NodeType := (a.kind? id).map Kind.nodeType

/-- The node above the one with a number. -/
def parent? (a : Arena) (id : NodeId) : Option NodeId := (a.get? id).bind Node.parent

/-- The nodes that the one with a number lists. -/
def childIds (a : Arena) (id : NodeId) : List NodeId :=
  match a.kind? id with
  | some kind => kind.childIds
  | none => []

/-- A new node, which gets the next number. -/
def alloc (kind : Kind) (a : Arena) : NodeId × Arena := (a.size, ⟨a.nodes.push ⟨kind, none⟩⟩)

def setParent (child parent : NodeId) (a : Arena) : Arena :=
  ⟨a.nodes.modify child fun node => { node with parent := some parent }⟩

/-- The arena with other contents in a node. -/
def setKind (id : NodeId) (kind : Kind) (a : Arena) : Arena :=
  ⟨a.nodes.modify id fun node => { node with kind }⟩

/-- The arena with `parent` above each of the nodes. -/
def adopt (parent : NodeId) (children : List NodeId) (a : Arena) : Arena :=
  children.foldl (fun acc child => acc.setParent child parent) a

/-! ## Walks -/

/-- A node, then everything below it, child by child; down to a depth. -/
def preorder (a : Arena) : (depth : Nat) → NodeId → List NodeId
  | 0, _ => []
  | depth + 1, id =>
    match a.kind? id with
    | none => []
    | some kind => id :: kind.childIds.flatMap (preorder a depth)

/-- How many steps a walk of a depth takes from a node. -/
def visits (a : Arena) : (depth : Nat) → NodeId → Nat
  | 0, _ => 1
  | depth + 1, id => 1 + ((a.childIds id).map (visits a depth)).foldr (· + ·) 0

/-- The steps that are left for a stack of nodes with the depth still allowed below each. -/
def stackVisits (a : Arena) : List (Nat × NodeId) → Nat
  | [] => 0
  | (depth, id) :: rest => a.visits depth id + stackVisits a rest

theorem stackVisits_children (a : Arena) (depth : Nat) (children : List NodeId) (rest : List (Nat × NodeId)) :
    a.stackVisits (children.map (depth, ·) ++ rest) =
      (children.map (a.visits depth)).foldr (· + ·) 0 + a.stackVisits rest := by
  induction children with
  | nil => simp
  | cons id children ih =>
    simp only [List.map_cons, List.cons_append, stackVisits, List.foldr_cons, ih]
    omega

theorem stackVisits_expand (a : Arena) {id : NodeId} {kind : Kind} (h : a.kind? id = some kind) (depth : Nat)
    (rest : List (Nat × NodeId)) :
    a.stackVisits (kind.childIds.map (depth, ·) ++ rest) < a.stackVisits ((depth + 1, id) :: rest) := by
  have hchildren : a.childIds id = kind.childIds := by simp only [childIds, h]
  rw [stackVisits_children, stackVisits, visits, hchildren]
  omega

theorem stackVisits_pop (a : Arena) (depth : Nat) (id : NodeId) (rest : List (Nat × NodeId)) :
    a.stackVisits rest < a.stackVisits ((depth, id) :: rest) := by
  have hpos : 0 < a.visits depth id := by cases depth <;> simp only [visits] <;> omega
  rw [stackVisits]
  omega

/-- The nodes found by taking one after the other from a stack and putting its children in its place. -/
def walk (a : Arena) : List (Nat × NodeId) → List NodeId
  | [] => []
  | (0, _) :: rest => walk a rest
  | (depth + 1, id) :: rest =>
    match _h : a.kind? id with
    | none => walk a rest
    | some kind => id :: walk a (kind.childIds.map (depth, ·) ++ rest)
termination_by stack => a.stackVisits stack
decreasing_by
  · exact a.stackVisits_pop _ _ _
  · exact a.stackVisits_pop _ _ _
  · exact a.stackVisits_expand _h _ _

/-- The first node, in the order of `walk`, whose value has this text under `id`. The search ends without a
    result at a number without a node. -/
def search (a : Arena) (wanted : String) : List (Nat × NodeId) → Option NodeId
  | [] => none
  | (0, _) :: rest => search a wanted rest
  | (depth + 1, id) :: rest =>
    match _h : a.kind? id with
    | none => none
    | some kind =>
      if kind.id? = some wanted then some id
      else search a wanted (kind.childIds.map (depth, ·) ++ rest)
termination_by stack => a.stackVisits stack
decreasing_by
  · exact a.stackVisits_pop _ _ _
  · exact a.stackVisits_expand _h _ _

/-- The nodes above a node, the nearest first, up to a number of steps. -/
def ancestors (a : Arena) : (steps : Nat) → NodeId → List NodeId
  | 0, _ => []
  | steps + 1, id =>
    match a.parent? id with
    | none => []
    | some parent => parent :: ancestors a steps parent

/-! ## Rendering -/

def childValue (render : NodeId → Value) (child : Child) : Value :=
  .object <|
    [("path", child.path.toValue)] ++
    (if child.appended then [("array", .bool true)] else []) ++
    [("value", render child.node)]

/-- What a node of a kind shows besides its type. -/
def kindFields (render : NodeId → Value) : Kind → Fields
  | .content _ value children =>
    (match value with
      | some v => [("value", v)]
      | none => []) ++
    (if children.isEmpty then [] else [("children", .array (children.map (childValue render)))])
  | .applicability expression body => [("expression", expression), ("value", render body)]
  | .template data body depth dynamic =>
    [("data", .string data), ("template", body), ("depth", .ofCount depth), ("dynamic", .bool dynamic)]
  | .multi overrides members => [("override", .bool overrides), ("values", .array (members.map render))]
  | .switch dynamic cases =>
    [("dynamic", .bool dynamic),
      ("cases", .array (cases.map fun c => .object [("case", c.condition), ("value", render c.node)]))]
  | .async id body => [("id", .string id), ("value", render body)]
  | .unknown => []
  | .empty => []

/-- The node and everything below it as a value, without the links upward; down to a depth. -/
def toValue (a : Arena) : (depth : Nat) → NodeId → Value
  | 0, _ => .null
  | depth + 1, id =>
    match a.kind? id with
    | none => .null
    | some kind => .object (("type", .string kind.nodeType.name) :: kindFields (toValue a depth) kind)

end Arena

/-! ## Trees -/

/-- An arena and the node from which the tree in it starts. -/
structure Tree where
  arena : Arena
  root : NodeId

namespace Tree

/-- The depth that no way down exceeds, a number without a node at its end included. -/
def depthBound (tree : Tree) : Nat := tree.arena.size + 1

/-- The nodes of the tree, depth first. -/
def reachable (tree : Tree) : List NodeId := tree.arena.walk [(tree.depthBound, tree.root)]

/-- The first node of the tree whose value has this text under `id`. -/
def findById? (tree : Tree) (wanted : String) : Option NodeId :=
  tree.arena.search wanted [(tree.depthBound, tree.root)]

/-- The nodes above a node, the nearest first. -/
def ancestors (tree : Tree) (id : NodeId) : List NodeId := tree.arena.ancestors tree.depthBound id

def toValue (tree : Tree) : Value := tree.arena.toValue tree.depthBound tree.root

end Tree

end DataBound.View
