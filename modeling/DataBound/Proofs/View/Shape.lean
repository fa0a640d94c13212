-- SUMMARY: Nodes seen from outside: what a node of an arena shows of itself and of the nodes below it.
import DataBound.Proofs.View.Rebuild

/-!
# Shapes of nodes

A shape is what a node is and holds, with the nodes below it shown as values instead of numbers. Two nodes of one shape
are shown as the same value, whatever their numbers and however many nodes were put aside before they were made. A node
keeps its shape however the arena goes on.
-/

namespace DataBound.View

/-- A child with its node shown as a value. -/
structure ShownChild where
  path : DataPath
  appended : Bool
  value : Value

/-- What a node is and holds, with the nodes below it shown as values. -/
inductive Shape where
  | content (type : ContentType) (value : Option Value) (children : List ShownChild)
  | applicability (expression body : Value)
  | template (data : String) (body : Value) (depth : Nat) (dynamic : Bool)
  | multi (overrides : Bool) (members : List Value)
  | switch (dynamic : Bool) (cases : List (Value × Value))
  | async (id : String) (body : Value)
  | unknown
  | empty

/-- The child as a value. -/
def ShownChild.toValue (child : ShownChild) : Value :=
  .object <|
    [("path", child.path.toValue)] ++
    (if child.appended then [("array", .bool true)] else []) ++
    [("value", child.value)]

namespace Shape

/-- The type of a node with this shape. -/
def nodeType : Shape → NodeType
  | .content type _ _ => type.nodeType
  | .applicability .. => .applicability
  | .template .. => .template
  | .multi .. => .multiNode
  | .switch .. => .switch
  | .async .. => .async
  | .unknown => .unknown
  | .empty => .empty

/-- The text under `id` in the literal value. -/
def id? : Shape → Option String
  | .content _ value _ => (value.bind (Value.field? "id")).bind Value.asString
  | _ => none

/-- What is shown besides the type. -/
def fields : Shape → Fields
  | .content _ value children =>
    (match value with
      | some v => [("value", v)]
      | none => []) ++
    (if children.isEmpty then [] else [("children", .array (children.map ShownChild.toValue))])
  | .applicability expression body => [("expression", expression), ("value", body)]
  | .template data body depth dynamic =>
    [("data", .string data), ("template", body), ("depth", .ofCount depth), ("dynamic", .bool dynamic)]
  | .multi overrides members => [("override", .bool overrides), ("values", .array members)]
  | .switch dynamic cases =>
    [("dynamic", .bool dynamic),
      ("cases", .array (cases.map fun (condition, body) => .object [("case", condition), ("value", body)]))]
  | .async id body => [("id", .string id), ("value", body)]
  | .unknown => []
  | .empty => []

/-- A node of this shape as a value. -/
def toValue (s : Shape) : Value := .object (("type", .string s.nodeType.name) :: s.fields)

end Shape

namespace Kind

/-- The shape of a node of this kind, given how nodes are shown as values. -/
def shape (render : NodeId → Value) : Kind → Shape
  | .content type value children =>
    .content type value (children.map fun child => ⟨child.path, child.appended, render child.node⟩)
  | .applicability expression body => .applicability expression (render body)
  | .template data body depth dynamic => .template data body depth dynamic
  | .multi overrides members => .multi overrides (members.map render)
  | .switch dynamic cases => .switch dynamic (cases.map fun c => (c.condition, render c.node))
  | .async id body => .async id (render body)
  | .unknown => .unknown
  | .empty => .empty

variable (render : NodeId → Value) (kind : Kind)

@[simp] theorem nodeType_shape : (kind.shape render).nodeType = kind.nodeType := by
  cases kind <;> rfl

@[simp] theorem id?_shape : (kind.shape render).id? = kind.id? := by
  cases kind <;> rfl

theorem fields_shape : (kind.shape render).fields = Arena.kindFields render kind := by
  cases kind with
  | content type value children =>
    simp only [shape, Shape.fields, Arena.kindFields, List.map_map, List.isEmpty_map]
    rfl
  | switch dynamic cases =>
    simp only [shape, Shape.fields, Arena.kindFields, List.map_map]
    rfl
  | _ => rfl

end Kind

namespace Arena

variable {a a' : Arena} {id d : Nat} {kind : Kind} {s : Shape} {v : Value}

theorem toValue_succ (h : a.kind? id = some kind) (d : Nat) :
    a.toValue (d + 1) id = (kind.shape (a.toValue d)).toValue := by
  rw [toValue, h, Shape.toValue, Kind.nodeType_shape, Kind.fields_shape]

/-! ## Nodes shown as values -/

/-- From the size of the arena on, the node is shown as the value at every depth, however the arena goes on. -/
def Renders (a : Arena) (id : NodeId) (v : Value) : Prop :=
  ∀ a' depth, a.Extends a' → a.size ≤ depth → a'.toValue depth id = v

/-- The node is of a finished kind, with the nodes below it shown as the values in the shape. -/
def Shows (a : Arena) (id : NodeId) (s : Shape) : Prop :=
  ∃ kind, a.kind? id = some kind ∧ kind.IsFinished ∧
    ∀ a' depth, a.Extends a' → a.size ≤ depth + 1 → kind.shape (a'.toValue depth) = s

/-- The child is placed where the shown child is, and its node is shown as that child's value. -/
structure ShowsChild (a : Arena) (child : Child) (shown : ShownChild) : Prop where
  path : child.path = shown.path
  appended : child.appended = shown.appended
  node : a.Renders child.node shown.value

theorem Renders.extends (h : a.Renders id v) (hext : a.Extends a') : a'.Renders id v := fun b depth hext' hdepth =>
  h b depth (hext.trans hext') (Nat.le_trans hext.size_le hdepth)

theorem Shows.extends (h : a.Shows id s) (hext : a.Extends a') : a'.Shows id s := by
  obtain ⟨kind, hkind, hfinished, hshape⟩ := h
  refine ⟨kind, hext id kind hkind, hfinished, ?_⟩
  intro b depth hext' hdepth
  exact hshape b depth (hext.trans hext') (Nat.le_trans hext.size_le hdepth)

theorem ShowsChild.extends {child : Child} {shown : ShownChild} (h : a.ShowsChild child shown) (hext : a.Extends a') :
    a'.ShowsChild child shown where
  path := h.path
  appended := h.appended
  node := h.node.extends hext

theorem Shows.finished (h : a.Shows id s) : ∃ kind, a.kind? id = some kind ∧ kind.IsFinished := by
  obtain ⟨kind, hkind, hfinished, -⟩ := h
  exact ⟨kind, hkind, hfinished⟩

theorem renders_of_shape (hkind : a.kind? id = some kind)
    (hshape : ∀ a' depth, a.Extends a' → a.size ≤ depth + 1 → kind.shape (a'.toValue depth) = s) :
    a.Renders id s.toValue := by
  intro b depth hext hdepth
  have hpos : 0 < depth := Nat.lt_of_lt_of_le (Nat.zero_lt_of_lt (lt_size_of_kind? hkind)) hdepth
  obtain ⟨d, rfl⟩ := Nat.exists_eq_add_of_lt hpos
  rw [Nat.zero_add] at hdepth ⊢
  rw [toValue_succ (hext id kind hkind), hshape b d hext hdepth]

theorem Shows.renders (h : a.Shows id s) : a.Renders id s.toValue := by
  obtain ⟨kind, hkind, -, hshape⟩ := h
  exact renders_of_shape hkind hshape

/-- The kind of a node that has a shape, as far as its type and its text under `id` go. -/
theorem Shows.kind_eq (h : a.Shows id s) (hkind : a.kind? id = some kind) :
    kind.IsFinished ∧ ∃ render, kind.shape render = s := by
  obtain ⟨kind', hkind', hfinished, hshape⟩ := h
  obtain rfl := Option.some.inj (hkind'.symm.trans hkind)
  exact ⟨hfinished, _, hshape a a.size (.refl a) (Nat.le_succ _)⟩

theorem Shows.nodeType_eq (h : a.Shows id s) : a.type? id = some s.nodeType := by
  obtain ⟨kind, hkind, -⟩ := h.finished
  obtain ⟨-, render, rfl⟩ := h.kind_eq hkind
  rw [type?, hkind, Option.map_some, Kind.nodeType_shape]

theorem map_toValue_eq {ids : List Nat} {values : List Value} (h : List.Forall₂ a.Renders ids values)
    (hext : a.Extends a') (hd : a.size ≤ d) : ids.map (a'.toValue d) = values := by
  induction h with
  | nil => rfl
  | cons hnode _ ih => rw [List.map_cons, hnode a' d hext hd, ih]

theorem renders_of_shows {ids : List Nat} {shapes : List Shape} (h : List.Forall₂ a.Shows ids shapes) :
    List.Forall₂ a.Renders ids (shapes.map Shape.toValue) := by
  induction h with
  | nil => exact .nil
  | cons hnode _ ih => exact .cons hnode.renders ih

/-! ## New nodes -/

/-- A new node has the shape that its kind has once the nodes below it are shown. -/
theorem shows_alloc (hfinished : kind.IsFinished)
    (hshape : ∀ a' depth, a.Extends a' → a.size ≤ depth → kind.shape (a'.toValue depth) = s) :
    (a.alloc kind).2.Shows a.size s := by
  refine ⟨kind, kind?_alloc_self kind a, hfinished, ?_⟩
  intro a' depth hext hdepth
  rw [size_alloc] at hdepth
  exact hshape a' depth ((extends_alloc a kind).trans hext) (Nat.le_of_succ_le_succ hdepth)

theorem shows_alloc_content (type : ContentType) (value : Option Value) {children : List Child}
    {shown : List ShownChild} (h : List.Forall₂ a.ShowsChild children shown) :
    (a.alloc (.content type value children)).2.Shows a.size (.content type value shown) := by
  have hfinished : (Kind.content type value children).IsFinished := trivial
  apply shows_alloc hfinished
  intro a' depth hext hdepth
  rw [Kind.shape, Shape.content.injEq]
  refine ⟨rfl, rfl, ?_⟩
  clear hfinished
  induction h with
  | nil => rfl
  | cons hchild _ ih => rw [List.map_cons, ih, hchild.path, hchild.appended, hchild.node a' depth hext hdepth]

theorem shows_alloc_applicability (expression : Value) (h : a.Shows id s) :
    (a.alloc (.applicability expression id)).2.Shows a.size (.applicability expression s.toValue) := by
  have hfinished : (Kind.applicability expression id).IsFinished := trivial
  apply shows_alloc hfinished
  intro a' depth hext hdepth
  rw [Kind.shape, h.renders a' depth hext hdepth]

theorem shows_alloc_async (text : String) (h : a.Shows id s) :
    (a.alloc (.async text id)).2.Shows a.size (.async text s.toValue) := by
  have hfinished : (Kind.async text id).IsFinished := trivial
  apply shows_alloc hfinished
  intro a' depth hext hdepth
  rw [Kind.shape, h.renders a' depth hext hdepth]

theorem shows_alloc_multi (overrides : Bool) {members : List Nat} {shapes : List Shape}
    (h : List.Forall₂ a.Shows members shapes) :
    (a.alloc (.multi overrides members)).2.Shows a.size (.multi overrides (shapes.map Shape.toValue)) := by
  have hfinished : (Kind.multi overrides members).IsFinished := trivial
  apply shows_alloc hfinished
  intro a' depth hext hdepth
  rw [Kind.shape, map_toValue_eq (renders_of_shows h) hext hdepth]

/-- The case is about the condition, and its node has the shape. -/
def ShowsCase (a : Arena) (c : SwitchCase) (shown : Value × Shape) : Prop :=
  c.condition = shown.1 ∧ a.Shows c.node shown.2

theorem shows_alloc_switch {cases : List SwitchCase} {shown : List (Value × Shape)}
    (h : List.Forall₂ a.ShowsCase cases shown) :
    (a.alloc (.switch true cases)).2.Shows a.size (.switch true (shown.map fun (c, s) => (c, s.toValue))) := by
  have hfinished : (Kind.switch true cases).IsFinished := rfl
  apply shows_alloc hfinished
  intro a' depth hext hdepth
  rw [Kind.shape, Shape.switch.injEq]
  refine ⟨rfl, ?_⟩
  clear hfinished
  induction h with
  | nil => rfl
  | cons hcase _ ih => rw [List.map_cons, List.map_cons, ih, hcase.1, hcase.2.renders a' depth hext hdepth]

end Arena

end DataBound.View
