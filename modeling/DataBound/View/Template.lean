-- SUMMARY: Static templates: one copy of a body for every item of an array in the data.
import DataBound.View.Builder
import DataBound.Text.Occurrence
import DataBound.Json.Reader
import DataBound.Json.Writer

/-! # Templates

A template names an array in the data and a body. When it is static it is expanded at once: for every item the
body is written as JSON text, the marker of the template's depth is replaced by the item's index, and the text is
read back and built one template deeper. The copies become the members of a multi-node that does not override.
Handlers can add to the replacements or change them. -/

namespace DataBound.View

/-- A replacement in the text of a template body. -/
structure Substitution where
  find : String
  value : String
  deriving DecidableEq

/-- The item that a copy is made for. -/
structure TemplateItem where
  index : Nat
  data : Value
  depth : Nat

/-- A handler that changes the replacements for an item. -/
abbrev SubstitutionTap := List Substitution → TemplateItem → List Substitution

namespace Template

variable {w : Type}

/-- What stands for the index at a depth: `_index_` outside of other templates, and with the depth in it
    below. -/
def marker (depth : Nat) : String :=
  if depth = 0 then "_index_" else "_index" ++ toString depth ++ "_"

def Substitution.apply (text : List Char) (s : Substitution) : List Char :=
  Text.replaceAll s.find.toList s.value.toList text

/-- The replacements for an item, after the handlers. -/
def substitutions (taps : Hook SubstitutionTap) (item : TemplateItem) : List Substitution :=
  Id.run <| taps.thread [⟨marker item.depth, toString item.index⟩] fun tap current => pure (tap current item)

/-- The copy of a body for an item; none if the replacements leave no JSON. -/
def copy? (taps : Hook SubstitutionTap) (body : Value) (item : TemplateItem) : Option Value :=
  Json.readNested? Json.nestingLimit ((substitutions taps item).foldl Substitution.apply (Json.chars body))

/-- The multi-node of the copies, if the data is an array. `read` gives the value at a path text, or nothing
    when the text does not resolve. -/
def expand (read : String → Run w (Option Value)) (taps : Hook SubstitutionTap) (builder : Level w)
    (data : String) (body : Value) (depth : Nat) : Build w (Option NodeId) := do
  match ← Build.onWorld (read data) with
  | some (.array items) => do
    let members ← items.zipIdx.filterMapM fun (item, index) =>
      match copy? taps body ⟨index, item, depth⟩ with
      | some copy => builder.object copy .value (depth + 1)
      | none => pure none
    pure (some (← Build.alloc (.multi false members)))
  | _ => pure none

/-- A static template is replaced by its copies. -/
def onCreate (read : String → Run w (Option Value)) (taps : Hook SubstitutionTap) (builder : Level w)
    (node : Option NodeId) (_ : Value) : Build w (Option NodeId) := do
  let some id := node | pure none
  match ← Build.kind? id with
  | some (.template data body depth false) => expand read taps builder data body depth
  | _ => pure node

/-- The key that introduces templates. -/
def classify (v : Value) : Option NodeType :=
  if v.asString == some "template" then some .template else none

def buildNode (builder : Level w) (v : Value) (_ : ContentType) (depth : Nat)
    (nodeType : Option NodeType) : Build w (Option NodeId) :=
  match nodeType with
  | some .template => builder.create (templateKind v depth) v
  | _ => pure none

end Template

def Hooks.withTemplate {w : Type} (hooks : Hooks w) (read : String → Run w (Option Value))
    (taps : Hook SubstitutionTap) : Hooks w :=
  { hooks with
    onCreate := hooks.onCreate.tap "template" (Template.onCreate read taps)
    classify := hooks.classify.tap "template" Template.classify
    buildNode := hooks.buildNode.tap "template" Template.buildNode }

end DataBound.View
