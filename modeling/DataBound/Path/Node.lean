-- SUMMARY: The tree of a path text: literals, references, expressions, queries, and joined parts.
import DataBound.Value

/-! # Path trees

A path text such as `foo[name='x'].{{bar}}` reads as a list of nodes. Each node contributes segments to
the path that the text resolves to; references and expressions do so through the host's data. -/

namespace DataBound

inductive Node where
  /-- The text itself; text between quotes is never an index. -/
  | literal (text : String) (quoted : Bool)
  /-- The text of the value at another path. -/
  | reference (path : List Node)
  /-- The text of an expression's value. -/
  | expression (source : String)
  /-- The array element whose field `key` has a value. -/
  | query (key : Node) (value : Option Node)
  /-- Several parts whose texts make one segment. -/
  | joined (parts : List Node)
  deriving Inhabited

namespace Node

/-- The node of a run of adjacent parts: a single part is the node itself. -/
def ofParts : List Node → Node
  | [part] => part
  | parts => .joined parts

/-- The name under which the kind of node is shown. -/
def kindName : Node → String
  | .literal .. => "Value"
  | .reference _ => "PathNode"
  | .expression _ => "Expression"
  | .query .. => "Query"
  | .joined _ => "Concatenated"

/-- The node's own text: that of a literal, the source of an expression. -/
def ownText? : Node → Option String
  | .literal text _ => some text
  | .expression source => some source
  | _ => none

def isQuoted : Node → Bool
  | .literal _ quoted => quoted
  | _ => false

mutual

def toValue : Node → Value
  | .literal text quoted =>
    .object ([("name", .string "Value"), ("value", .string text)] ++
      if quoted then [("quoted", .bool true)] else [])
  | .reference path => .object [("name", .string "PathNode"), ("path", .array (toValues path))]
  | .expression source => .object [("name", .string "Expression"), ("value", .string source)]
  | .query key none => .object [("name", .string "Query"), ("key", key.toValue), ("value", .null)]
  | .query key (some value) =>
    .object [("name", .string "Query"), ("key", key.toValue), ("value", value.toValue)]
  | .joined parts => .object [("name", .string "Concatenated"), ("value", .array (toValues parts))]

def toValues : List Node → List Value
  | [] => []
  | node :: rest => node.toValue :: toValues rest

end

@[simp] theorem ofParts_singleton (part : Node) : ofParts [part] = part := rfl

end Node

end DataBound
