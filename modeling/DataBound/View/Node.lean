-- SUMMARY: View nodes: their types, what they hold, and what they link to.
import DataBound.Document

/-! # View nodes

A view is a tree of nodes. Content nodes (assets, views and values) hold a literal value and child nodes at
paths into it; the other kinds stand for conditions, repetition, choice and delay. Nodes refer to each other
by number; a `View.Arena` holds them. -/

namespace DataBound.View

/-- The number of a node in its arena. -/
abbrev NodeId := Nat

inductive NodeType where
  | asset
  | view
  | applicability
  | template
  | value
  | multiNode
  | switch
  | async
  | unknown
  | empty
  deriving DecidableEq

def NodeType.name : NodeType → String
  | .asset => "asset"
  | .view => "view"
  | .applicability => "applicability"
  | .template => "template"
  | .value => "value"
  | .multiNode => "multi-node"
  | .switch => "switch"
  | .async => "async"
  | .unknown => "unknown"
  | .empty => "empty"

def NodeType.all : List NodeType :=
  [.asset, .view, .applicability, .template, .value, .multiNode, .switch, .async, .unknown, .empty]

def NodeType.ofName? (name : String) : Option NodeType := all.find? fun type => type.name = name

/-- The types of content nodes, which any object can be built as. -/
inductive ContentType where
  | asset
  | value
  | view
  deriving DecidableEq

def ContentType.nodeType : ContentType → NodeType
  | .asset => .asset
  | .value => .value
  | .view => .view

def ContentType.ofName? (name : String) : Option ContentType :=
  [ContentType.asset, .value, .view].find? fun type => type.nodeType.name = name

/-- A node below a content node, at a path into its value. -/
structure Child where
  path : DataPath
  /-- The path leads to an array, and the child's result is appended to it. -/
  appended : Bool
  node : NodeId
  deriving DecidableEq

/-- A case of a switch: what decides whether it applies, and the node that it stands for. -/
structure SwitchCase where
  condition : Value
  node : NodeId

/-- What a node is and holds. -/
inductive Kind where
  | content (type : ContentType) (value : Option Value) (children : List Child)
  /-- A node that is shown only when the expression holds. -/
  | applicability (expression : Value) (body : NodeId)
  /-- A body that is repeated for every item of the array at `data`. -/
  | template (data : String) (body : Value) (depth : Nat) (dynamic : Bool)
  /-- Several nodes in one place, which replace what is there if `overrides`. -/
  | multi (overrides : Bool) (members : List NodeId)
  | switch (dynamic : Bool) (cases : List SwitchCase)
  /-- A placeholder for a node that comes later. -/
  | async (id : String) (body : NodeId)
  | unknown
  | empty

namespace Kind

def nodeType : Kind → NodeType
  | .content type _ _ => type.nodeType
  | .applicability .. => .applicability
  | .template .. => .template
  | .multi .. => .multiNode
  | .switch .. => .switch
  | .async .. => .async
  | .unknown => .unknown
  | .empty => .empty

def value? : Kind → Option Value
  | .content _ value _ => value
  | _ => none

def children : Kind → List Child
  | .content _ _ children => children
  | _ => []

/-- The text under `id` in the literal value. -/
def id? (kind : Kind) : Option String := (kind.value?.bind (Value.field? "id")).bind Value.asString

/-- The nodes that the node lists, in order. -/
def childIds : Kind → List NodeId
  | .content _ _ children => children.map Child.node
  | .applicability _ body => [body]
  | .async _ body => [body]
  | .multi _ members => members
  | .switch _ cases => cases.map SwitchCase.node
  | .template .. => []
  | .unknown => []
  | .empty => []

end Kind

/-- A node with the link to the node above it. -/
structure Node where
  kind : Kind
  /-- None for roots and for nodes that were put aside. -/
  parent : Option NodeId

end DataBound.View
