-- SUMMARY: Standard extensions of the builder: applicability and switches.
import DataBound.View.Builder

/-! # Applicability and switches

An extension adds handlers to the hooks of a builder. `withApplicability` builds objects that carry an
`applicability` expression. `withSwitch` builds objects with a `staticSwitch` or `dynamicSwitch` list of cases;
a static switch is decided at once, by the first case that the given test accepts, and comes out empty when
there is none. -/

namespace DataBound.View

variable {w : Type}

/-! ## Applicability -/

namespace Applicability

def fieldName : String := "applicability"

def classify (v : Value) : Option NodeType :=
  if (v.field? fieldName).isSome then some .applicability else none

/-- The node of an object with an expression: the body is the object without it. -/
def buildNode (builder : Level w) (v : Value) (type : ContentType) (depth : Nat)
    (nodeType : Option NodeType) : Build w (Option NodeId) := do
  match nodeType, v with
  | some .applicability, .object fields => do
    let expression := (Fields.find? fieldName fields).getD .null
    let some body ← builder.object (withoutField fieldName fields) type depth | pure none
    let some node ← builder.create (.applicability expression body) v | pure none
    if let some (.applicability ..) ← Build.kind? node then Build.adopt node [body]
    pure (some node)
  | _, _ => pure none

end Applicability

def Hooks.withApplicability (hooks : Hooks w) : Hooks w :=
  { hooks with
    classify := hooks.classify.tap "applicability" Applicability.classify
    buildNode := hooks.buildNode.tap "applicability" Applicability.buildNode }

/-! ## Switches -/

namespace Switch

/-- The field of a switch that is decided while building. -/
def staticField : String := "staticSwitch"

/-- The field of a switch that stays in the tree. -/
def dynamicField : String := "dynamicSwitch"

/-- The field of a case that decides whether it applies. -/
def conditionField : String := "case"

def classify (v : Value) : Option NodeType :=
  if (v.field? staticField).isSome || (v.field? dynamicField).isSome then some .switch else none

/-- The first case that the test accepts. -/
def firstAccepted (accepts : Value → Run w Bool) : List SwitchCase → Run w (Option SwitchCase)
  | [] => pure none
  | c :: rest => do
    if ← accepts c.condition then pure (some c) else firstAccepted accepts rest

/-- A static switch is replaced by the node of the first accepted case, or by an empty node. -/
def onCreate (accepts : Value → Run w Bool) (_ : Level w) (node : Option NodeId) (_ : Value) :
    Build w (Option NodeId) := do
  let some id := node | pure none
  match ← Build.kind? id with
  | some (.switch false cases) => do
    match ← Build.onWorld (firstAccepted accepts cases) with
    | some chosen => pure (some chosen.node)
    | none => do pure (some (← Build.alloc .empty))
  | _ => pure node

/-- A case whose body gives a node; anything but an object is no case. -/
def buildCase (builder : Level w) (depth : Nat) : Value → Build w (Option SwitchCase)
  | .object fields => do
    let condition := (Fields.find? conditionField fields).getD .null
    let some node ← builder.object (withoutField conditionField fields) .value depth | pure none
    pure (some ⟨condition, node⟩)
  | _ => pure none

/-- The node of an object with a list of cases; dynamic cases take precedence. -/
def buildNode (builder : Level w) (v : Value) (_ : ContentType) (depth : Nat)
    (nodeType : Option NodeType) : Build w (Option NodeId) := do
  match nodeType, v with
  | some .switch, .object fields => do
    let dynamic := Fields.hasKey fields dynamicField
    let content := Fields.find? (if dynamic then dynamicField else staticField) fields
    let cases ← ((content.bind Value.asArray).getD []).filterMapM (buildCase builder depth)
    let some node ← builder.create (.switch dynamic cases) v | pure none
    if let some (.switch _ cases) ← Build.kind? node then Build.adopt node (cases.map SwitchCase.node)
    pure (some node)
  | _, _ => pure none

end Switch

def Hooks.withSwitch (hooks : Hooks w) (accepts : Value → Run w Bool) : Hooks w :=
  { hooks with
    onCreate := hooks.onCreate.tap "switch" (Switch.onCreate accepts)
    classify := hooks.classify.tap "switch" Switch.classify
    buildNode := hooks.buildNode.tap "switch" Switch.buildNode }

end DataBound.View
