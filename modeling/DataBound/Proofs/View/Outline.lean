-- SUMMARY: The builder with the standard extensions without arenas, as a computation from content to shapes.
import Mathlib.Data.List.Monad
import DataBound.Proofs.View.Extension
import DataBound.Proofs.View.Shape

/-!
# Outlines of views

What a builder with the standard extensions makes of content, said without node numbers and without the state of the
handlers. The rules say how content is classified, which conditions hold and what is read where, and reading goes on in
a monad: it can change the data that is read, or it is a mere function of the text.

As for the builder there is a level for every height, and the level at zero has no results. Outlines by rules that go
along with each other go along with each other at every height; so what has a result has the same one at every greater
height.
-/

namespace DataBound.View

/-- What a builder goes by: the types of content, the conditions that hold, the values at path texts, and the handlers
that change the replacements in template bodies. -/
structure Rules (m : Type → Type) where
  typeOf : Value → Option NodeType
  accepts : Value → Bool
  read : String → m (Option Value)
  taps : Hook SubstitutionTap
  /-- What is done before classified content is built at a template depth. -/
  heed : Value → Nat → m Unit
  /-- Are the bodies of cases left out that a static switch does not come to? -/
  skips : Bool

/-- The rules with other values at path texts. -/
def Rules.reading {m : Type → Type} (R : Rules m) (read : String → m (Option Value)) : Rules m := { R with read }

/-- What is gathered from an object, with the nodes shown as values. -/
structure Sketch where
  value : Option Value
  children : List ShownChild

namespace Sketch

/-- Nothing gathered. -/
def empty : Sketch := ⟨none, []⟩

/-- One more child. -/
def push (g : Sketch) (path : DataPath) (s : Shape) : Sketch :=
  { g with children := g.children ++ [⟨path, false, s.toValue⟩] }

/-- The node, if there is one, as a child. -/
def pushed (g : Sketch) (path : DataPath) : Option Shape → Sketch
  | some s => g.push path s
  | none => g

/-- A primitive placed into the literal value. -/
def place (g : Sketch) (path : DataPath) (v : Value) : Sketch :=
  { g with value := some (Value.place path v (g.value.getD .null)) }

/-- The shape of what was gathered, if it is anything. -/
def shape? (g : Sketch) (type : ContentType) : Option Shape :=
  if g.value.isNone && g.children.isEmpty then none else some (.content type g.value g.children)

end Sketch

namespace Shape

/-- The shape, unless it is empty. -/
def unlessEmpty : Shape → Option Shape
  | .empty => none
  | s => some s

/-- How a switch that came out as this shape is placed. -/
def child (path : DataPath) : Shape → ShownChild
  | .content .value none [only] => { only with path := path ++ only.path }
  | s => ⟨path, false, s.toValue⟩

end Shape

/-- How building goes: it fails where the height is used up. -/
structure Outline (m : Type → Type) where
  /-- The node of an object. -/
  object : Value → ContentType → Nat → m (Option Shape)
  /-- The copies of a template's body. -/
  copies : String → Value → Nat → m (Option Shape)
  /-- What is gathered from an object at a path, added to what was gathered before. -/
  gather : Value → Nat → DataPath → Sketch → m Sketch
  /-- Nothing, but not without a level to make nodes at. -/
  alive : m Unit

/-- The items of a list of cases. -/
def caseItems (list : Option Value) : List Value := (list.bind Value.asArray).getD []

/-- The condition of a case. -/
def caseCondition (fields : Fields) : Value := (Fields.find? Switch.conditionField fields).getD .null

/-- What a view comes to, given the node that its content gives. -/
def outcome : Option Shape → Except Error Value
  | none => .error (.unusableView .nothingBuilt)
  | some s => if s.nodeType = .view then .ok s.toValue else .error (.unusableView (.rootIs s.nodeType.name))

section

variable {m : Type → Type} [AlternativeMonad m]

namespace Outline

/-- The outline without results. -/
def bottom : Outline m := ⟨fun _ _ _ => failure, fun _ _ _ => failure, fun _ _ _ _ => failure, failure⟩

variable (lower : Outline m)

/-- The node of a case. -/
def caseBody (depth : Nat) (fields : Fields) : m (Option Shape) :=
  lower.object (withoutField Switch.conditionField fields) .value depth

/-- A case whose body gives a node. -/
def case (depth : Nat) : Value → m (Option (Value × Shape))
  | .object fields => do
    let body ← lower.caseBody depth fields
    pure (body.map fun s => (caseCondition fields, s))
  | _ => pure none

/-- The node of an object with an expression. -/
def applicability (type : ContentType) (depth : Nat) (fields : Fields) : m (Option Shape) := do
  let expression := (Fields.find? Applicability.fieldName fields).getD .null
  match ← lower.object (withoutField Applicability.fieldName fields) type depth with
  | none => pure none
  | some body => do
    lower.alive
    pure (some (.applicability expression body.toValue))

/-- The placeholder for an object with an `async` field. -/
def async (depth : Nat) (fields : Fields) : m (Option Shape) := do
  let body ← lower.object (withoutField "async" fields) .value depth
  pure (body.bind fun s => s.id?.map fun id => .async id s.toValue)

/-- What an array adds. -/
def members (depth : Nat) (path : DataPath) (g : Sketch) (overrides : Bool) (items : List Value) : m Sketch := do
  let shapes ← items.filterMapM fun item => lower.object item .value depth
  pure (if shapes.isEmpty then g else g.push path (.multi overrides (shapes.map Shape.toValue)))

end Outline

namespace Rules

variable (R : Rules m) (lower : Outline m)

/-- Has the value this node type? -/
def isOfType (type : NodeType) (v : Value) : Bool := R.typeOf v == some type

/-- The first case of a list that is accepted and gives a node. Other bodies than those of accepted cases are not looked
at, nor is anything after that case. -/
def firstShown (depth : Nat) : List Value → m (Option Shape)
  | [] => pure none
  | .object fields :: rest => do
    if R.accepts (caseCondition fields) then
      match ← lower.caseBody depth fields with
      | some s => pure (some s)
      | none => firstShown depth rest
    else firstShown depth rest
  | _ :: rest => firstShown depth rest

/-- The first accepted case of those that give a node, after all bodies were built. -/
def firstFound (depth : Nat) (cases : List Value) : m (Option Shape) := do
  let found ← cases.filterMapM (lower.case depth)
  pure ((found.find? fun c => R.accepts c.1).map Prod.snd)

/-- What a static switch with a list of cases shows. -/
def shown (depth : Nat) (cases : List Value) : m (Option Shape) :=
  if R.skips then R.firstShown lower depth cases else R.firstFound lower depth cases

/-- The node of an object with a list of cases. -/
def switch (depth : Nat) (fields : Fields) : m Shape := do
  if Fields.hasKey fields Switch.dynamicField then
    let cases ← (caseItems (Fields.find? Switch.dynamicField fields)).filterMapM (lower.case depth)
    lower.alive
    pure (.switch true (cases.map fun (condition, s) => (condition, s.toValue)))
  else
    let shown ← R.shown lower depth (caseItems (Fields.find? Switch.staticField fields))
    lower.alive
    pure (shown.getD .empty)

/-- The node that is built of a classified value. -/
def make (v : Value) (type : ContentType) (depth : Nat) (nodeType : NodeType) : m (Option Shape) :=
  match nodeType, v with
  | .applicability, .object fields => lower.applicability type depth fields
  | .switch, .object fields => do
    let s ← R.switch lower depth fields
    pure (some s)
  | .template, .string _ => lower.copies "" .null depth
  | _, _ => pure none

/-- The node of a classified value. -/
def build (v : Value) (type : ContentType) (depth : Nat) (nodeType : NodeType) : m (Option Shape) := do
  R.heed v depth
  R.make lower v type depth nodeType

/-- The copies of a template's body, one for every item of the array at a path text. -/
def copies (data : String) (body : Value) (depth : Nat) : m (Option Shape) := do
  match ← R.read data with
  | some (.array items) => do
    let members ← items.zipIdx.filterMapM fun (item, index) =>
      match Template.copy? R.taps body ⟨index, item, depth⟩ with
      | some copy => lower.object copy .value (depth + 1)
      | none => pure none
    pure (some (.multi false (members.map Shape.toValue)))
  | _ => pure none

/-- What becomes of a template: a static one is replaced by its copies. -/
def expanded (data : String) (body : Value) (depth : Nat) (dynamic : Bool) : m (Option Shape) :=
  if dynamic then pure (some (.template data body depth true)) else R.copies lower data body depth

/-- What a template descriptor adds. -/
def template (depth : Nat) (path : DataPath) (g : Sketch) (descriptor : Value) : m Sketch :=
  match (descriptor.field? "output").bind outputSegment? with
  | none => pure g
  | some output => do
    let node ← R.expanded lower (((descriptor.field? "data").bind Value.asString).getD "")
      ((descriptor.field? "value").getD .null) depth (((descriptor.field? "dynamic").bind Value.asBool).getD false)
    pure (g.pushed (path ++ [output]) node)

/-- What a switch adds. -/
def placeSwitch (depth : Nat) (path : DataPath) (g : Sketch) (v : Value) : m Sketch := do
  let built ← R.build lower v .value depth .switch
  pure { g with children := g.children ++ ((built.bind Shape.unlessEmpty).map (Shape.child path)).toList }

/-- What an entry of an object or array adds. -/
def entry (around : Value) (depth : Nat) (path : DataPath) (g : Sketch) (key : Segment) (v : Value) : m Sketch := do
  let here := path ++ [key]
  if key.asKey == some "asset" && v.isObject then
    pure (g.pushed here (← lower.object v .asset depth))
  else if v.isArray && key.asKey.any (fun name => R.isOfType .template (.string name)) then
    (v.asArray.getD []).foldlM (fun g descriptor => R.template lower depth path g descriptor) g
  else if v.isTruthy && R.isOfType .switch v then
    R.placeSwitch lower depth here g v
  else
    match v with
    | .object fields =>
      if Fields.hasKey fields "async" then
        pure (g.pushed here (← lower.async depth fields))
      else if R.isOfType .applicability v then
        pure (g.pushed here (← R.build lower v .value depth .applicability))
      else lower.gather v depth here g
    | .array items => lower.members depth here g (!hasTemplateOutput around key) items
    | primitive => pure (g.place here primitive)

/-- What is gathered from a value at a path. -/
def gather (v : Value) (depth : Nat) (path : DataPath) (g : Sketch) : m Sketch :=
  if !v.isObject && !v.isArray then pure ⟨some v, []⟩
  else (entries v).foldlM (fun g (key, x) => R.entry lower v depth path g key x) g

/-- What handlers build of a value, if it is classified. -/
def built (v : Value) (type : ContentType) (depth : Nat) : m (Option Shape) :=
  match R.typeOf v with
  | some nodeType => R.build lower v type depth nodeType
  | none => pure none

/-- The node of a value. -/
def object (v : Value) (type : ContentType) (depth : Nat) : m (Option Shape) := do
  match ← R.built lower v type depth with
  | some s => pure s.unlessEmpty
  | none => do
    let g ← R.gather lower v depth [] .empty
    pure (g.shape? type)

/-- The outline a level above another one. -/
def step : Outline m := ⟨R.object lower, R.copies lower, R.gather lower, pure ()⟩

/-- The outline at a height. -/
def outline : Nat → Outline m
  | 0 => .bottom
  | height + 1 => R.step (outline height)

/-- The value of a view, or why there is none. -/
def view (height : Nat) (v : Value) (depth : Nat) : m (Except Error Value) :=
  if v.isObject then do
    let t ← (R.outline height).object v .view depth
    pure (outcome t)
  else pure (.error (.unusableView .notAnObject))

end Rules

section

variable {R : Rules m} {lower : Outline m} {depth : Nat}

/-- The entries around do not matter but for the names under which templates place their copies. -/
theorem Rules.entry_around {around around' : Value} (h : hasTemplateOutput around' = hasTemplateOutput around)
    (path : DataPath) (g : Sketch) (key : Segment) (v : Value) :
    R.entry lower around' depth path g key v = R.entry lower around depth path g key v := by
  unfold entry
  rw [h]

theorem Rules.gather_object (fields : Fields) (path : DataPath) (g : Sketch) :
    R.gather lower (.object fields) depth path g = (entries (.object fields)).foldlM
      (fun g (key, x) => R.entry lower (.object fields) depth path g key x) g := rfl

theorem Rules.gather_array (items : List Value) (path : DataPath) (g : Sketch) :
    R.gather lower (.array items) depth path g = (entries (.array items)).foldlM
      (fun g (key, x) => R.entry lower (.array items) depth path g key x) g := rfl

end

theorem Shape.unlessEmpty_idem (t : Option Shape) :
    (t.bind Shape.unlessEmpty).bind Shape.unlessEmpty = t.bind Shape.unlessEmpty := by
  rcases t with - | s
  · rfl
  · cases s <;> rfl

theorem Sketch.shape?_unlessEmpty (g : Sketch) (type : ContentType) :
    (g.shape? type).bind Shape.unlessEmpty = g.shape? type := by
  unfold Sketch.shape?
  split <;> rfl

/-- No value comes to an empty shape. -/
theorem Rules.object_unlessEmpty [LawfulMonad m] (R : Rules m) (lower : Outline m) (v : Value) (type : ContentType)
    (depth : Nat) : (do
      let t ← R.object lower v type depth
      pure (t.bind Shape.unlessEmpty)) = R.object lower v type depth := by
  unfold Rules.object
  rw [bind_assoc]
  apply bind_congr
  intro built
  cases built with
  | some s => exact (pure_bind _ _).trans (congrArg pure (Shape.unlessEmpty_idem (some s)))
  | none =>
    rw [bind_assoc]
    apply bind_congr
    intro g
    exact (pure_bind _ _).trans (congrArg pure (g.shape?_unlessEmpty type))

end

/-! ## Rules that go along with each other -/

/-- A way in which computations go along with each other, step by step and with the same results. -/
structure Simulation (m n : Type → Type) [AlternativeMonad m] [AlternativeMonad n] where
  Rel {τ : Type} : m τ → n τ → Prop
  pure {τ : Type} (r : τ) : Rel (pure r) (pure r)
  bind {τ υ : Type} {x : m τ} {y : n τ} {f : τ → m υ} {g : τ → n υ} :
    Rel x y → (∀ r, Rel (f r) (g r)) → Rel (x >>= f) (y >>= g)

namespace Simulation

variable {m n : Type → Type} [AlternativeMonad m] [AlternativeMonad n] (S : Simulation m n)

/-- The results of the first outline go along with those of the second. -/
structure Outlines (lower : Outline m) (upper : Outline n) : Prop where
  object (v : Value) (type : ContentType) (depth : Nat) : S.Rel (lower.object v type depth) (upper.object v type depth)
  copies (data : String) (body : Value) (depth : Nat) : S.Rel (lower.copies data body depth) (upper.copies data body depth)
  gather (v : Value) (depth : Nat) (path : DataPath) (g : Sketch) :
    S.Rel (lower.gather v depth path g) (upper.gather v depth path g)
  alive : S.Rel lower.alive upper.alive

/-- What the first rules say goes along with what the second ones say. -/
structure Agree (R : Rules m) (R' : Rules n) : Prop where
  typeOf : R'.typeOf = R.typeOf
  taps : R'.taps = R.taps
  read (data : String) : S.Rel (R.read data) (R'.read data)
  heed (v : Value) (depth : Nat) : S.Rel (R.heed v depth) (R'.heed v depth)
  shown {lower : Outline m} {upper : Outline n} (h : S.Outlines lower upper) (depth : Nat) (cases : List Value) :
    S.Rel (R.shown lower depth cases) (R'.shown upper depth cases)

variable {S}

section

variable {τ γ : Type}

theorem filterMapM [LawfulMonad m] [LawfulMonad n] {f : γ → m (Option τ)} {g : γ → n (Option τ)} {items : List γ}
    (h : ∀ item ∈ items, S.Rel (f item) (g item)) : S.Rel (items.filterMapM f) (items.filterMapM g) := by
  induction items with
  | nil => exact S.pure []
  | cons item rest ih =>
    rw [List.filterMapM_cons, List.filterMapM_cons]
    apply S.bind (h item List.mem_cons_self)
    have hrest := ih fun item' hmem => h item' (List.mem_cons_of_mem _ hmem)
    intro r
    cases r with
    | none => exact hrest
    | some t => exact S.bind hrest fun _ => S.pure _

theorem foldlM {f : τ → γ → m τ} {g : τ → γ → n τ} {items : List γ}
    (h : ∀ t, ∀ item ∈ items, S.Rel (f t item) (g t item)) (t : τ) : S.Rel (items.foldlM f t) (items.foldlM g t) := by
  induction items generalizing t with
  | nil => exact S.pure t
  | cons item rest ih =>
    rw [List.foldlM_cons, List.foldlM_cons]
    apply S.bind (h t item List.mem_cons_self)
    exact ih fun t' item' hmem => h t' item' (List.mem_cons_of_mem _ hmem)

end

theorem Outlines.case {lower : Outline m} {upper : Outline n} (h : S.Outlines lower upper) (depth : Nat) (v : Value) :
    S.Rel (lower.case depth v) (upper.case depth v) := by
  cases v with
  | object fields => exact S.bind (h.object _ _ _) fun _ => S.pure _
  | _ => exact S.pure none

/-- Views go along with each other as their nodes do. -/
theorem Outlines.view {R : Rules m} {R' : Rules n} {height height' : Nat}
    (h : S.Outlines (R.outline height) (R'.outline height')) (v : Value) (depth : Nat) :
    S.Rel (R.view height v depth) (R'.view height' v depth) := by
  unfold Rules.view
  split
  · exact S.bind (h.object v .view depth) fun _ => S.pure _
  · exact S.pure _

variable [LawfulMonad m] [LawfulMonad n] {R : Rules m} {R' : Rules n} {lower : Outline m} {upper : Outline n}

/-- Rules with the same conditions that leave out the same bodies show the same cases. -/
theorem Outlines.shown (h : S.Outlines lower upper) (haccepts : R'.accepts = R.accepts) (hskips : R'.skips = R.skips)
    (depth : Nat) (cases : List Value) : S.Rel (R.shown lower depth cases) (R'.shown upper depth cases) := by
  unfold Rules.shown
  rw [hskips]
  split
  · induction cases with
    | nil => exact S.pure none
    | cons c rest ih =>
      cases c with
      | object fields =>
        unfold Rules.firstShown
        rw [haccepts]
        split
        · apply S.bind (h.object _ _ _)
          intro r
          cases r with
          | none => exact ih
          | some s => exact S.pure (some s)
        · exact ih
      | _ => exact ih
  · unfold Rules.firstFound
    rw [haccepts]
    exact S.bind (filterMapM fun c _ => h.case depth c) fun _ => S.pure _

section

variable (hrules : S.Agree R R') (h : S.Outlines lower upper)

include hrules h

theorem switch (depth : Nat) (fields : Fields) :
    S.Rel (R.switch lower depth fields) (R'.switch upper depth fields) := by
  unfold Rules.switch
  split
  · exact S.bind (filterMapM fun c _ => h.case depth c) fun _ => S.bind h.alive fun _ => S.pure _
  · exact S.bind (hrules.shown h depth _) fun _ => S.bind h.alive fun _ => S.pure _

theorem make (v : Value) (type : ContentType) (depth : Nat) (nodeType : NodeType) :
    S.Rel (R.make lower v type depth nodeType) (R'.make upper v type depth nodeType) := by
  unfold Rules.make
  split
  · apply S.bind (h.object _ _ _)
    intro r
    cases r with
    | none => exact S.pure none
    | some s => exact S.bind h.alive fun _ => S.pure _
  · exact S.bind (switch hrules h depth _) fun _ => S.pure _
  · exact h.copies _ _ _
  · exact S.pure none

theorem build (v : Value) (type : ContentType) (depth : Nat) (nodeType : NodeType) :
    S.Rel (R.build lower v type depth nodeType) (R'.build upper v type depth nodeType) :=
  S.bind (hrules.heed v depth) fun _ => make hrules h v type depth nodeType

theorem copies (data : String) (body : Value) (depth : Nat) :
    S.Rel (R.copies lower data body depth) (R'.copies upper data body depth) := by
  apply S.bind (hrules.read data)
  intro r
  split
  · refine S.bind (filterMapM ?_) fun _ => S.pure _
    rintro ⟨item, index⟩ _
    dsimp only
    rw [hrules.taps]
    split
    · exact h.object _ _ _
    · exact S.pure none
  · exact S.pure none

theorem template (depth : Nat) (path : DataPath) (g : Sketch) (descriptor : Value) :
    S.Rel (R.template lower depth path g descriptor) (R'.template upper depth path g descriptor) := by
  unfold Rules.template
  split
  · exact S.pure g
  · refine S.bind ?_ fun _ => S.pure _
    unfold Rules.expanded
    split
    · exact S.pure _
    · exact copies hrules h _ _ _

theorem entry (around : Value) (depth : Nat) (path : DataPath) (g : Sketch) (key : Segment) (v : Value) :
    S.Rel (R.entry lower around depth path g key v) (R'.entry upper around depth path g key v) := by
  have htype : R'.isOfType = R.isOfType := by
    unfold Rules.isOfType
    rw [hrules.typeOf]
  unfold Rules.entry
  rw [htype]
  dsimp only
  split
  · exact S.bind (h.object _ _ _) fun _ => S.pure _
  split
  · exact foldlM (fun g descriptor _ => template hrules h depth path g descriptor) g
  split
  · exact S.bind (build hrules h _ _ _ _) fun _ => S.pure _
  split
  · split
    · exact S.bind (S.bind (h.object _ _ _) fun _ => S.pure _) fun _ => S.pure _
    split
    · exact S.bind (build hrules h _ _ _ _) fun _ => S.pure _
    · exact h.gather _ _ _ _
  · exact S.bind (filterMapM fun item _ => h.object item .value depth) fun _ => S.pure _
  · exact S.pure _

theorem gather (v : Value) (depth : Nat) (path : DataPath) (g : Sketch) :
    S.Rel (R.gather lower v depth path g) (R'.gather upper v depth path g) := by
  unfold Rules.gather
  split
  · exact S.pure _
  · exact foldlM (fun g (item : Segment × Value) _ => entry hrules h v depth path g item.1 item.2) g

theorem object (v : Value) (type : ContentType) (depth : Nat) :
    S.Rel (R.object lower v type depth) (R'.object upper v type depth) := by
  apply S.bind
  · unfold Rules.built
    rw [hrules.typeOf]
    split
    · exact build hrules h v type depth _
    · exact S.pure none
  · intro r
    cases r with
    | some s => exact S.pure _
    | none => exact S.bind (gather hrules h v depth [] .empty) fun _ => S.pure _

/-- A level above outlines that go along with each other they still do. -/
theorem step : S.Outlines (R.step lower) (R'.step upper) :=
  ⟨object hrules h, copies hrules h, gather hrules h, S.pure ()⟩

end

/-- Outlines by rules that go along with each other do so at every height. -/
theorem outline (hrules : S.Agree R R') (hfails : ∀ {τ : Type}, S.Rel (failure : m τ) (failure : n τ)) (height : Nat) :
    S.Outlines (R.outline height) (R'.outline height) := by
  induction height with
  | zero => exact ⟨fun _ _ _ => hfails, fun _ _ _ => hfails, fun _ _ _ _ => hfails, hfails⟩
  | succ height ih => exact step hrules ih

end Simulation

/-! ## Greater heights -/

/-- What has a result in the first has the same one in the second. -/
def Refines {τ : Type} (x y : Option τ) : Prop := ∀ r, x = some r → y = some r

section

variable {σ τ υ : Type}

theorem Refines.refl (x : Option τ) : Refines x x := fun _ h => h

theorem Refines.trans {x y z : Option τ} (hxy : Refines x y) (hyz : Refines y z) : Refines x z :=
  fun r h => hyz r (hxy r h)

theorem Refines.bind {x y : Option τ} {f g : τ → Option υ} (hx : Refines x y) (hf : ∀ r, Refines (f r) (g r)) :
    Refines (x >>= f) (y >>= g) := by
  intro r h
  obtain ⟨t, ht, hr⟩ := Option.bind_eq_some_iff.1 h
  exact Option.bind_eq_some_iff.2 ⟨t, hx t ht, hf t r hr⟩

end

/-- A way in which computations refine others: what fails refines everything. -/
structure Refinement (m : Type → Type) [AlternativeMonad m] extends Simulation m m where
  refl {τ : Type} (x : m τ) : Rel x x
  trans {τ : Type} {x y z : m τ} : Rel x y → Rel y z → Rel x z
  fails {τ : Type} (x : m τ) : Rel failure x

namespace Refinement

/-- Results stay the same. -/
def results : Refinement Option where
  Rel := Refines
  pure _ := .refl _
  bind := Refines.bind
  refl := .refl
  trans := .trans
  fails _ := nofun

/-- From every state, results stay the same. -/
def runs (σ : Type) : Refinement (Run σ) where
  Rel x y := ∀ s, Refines (x s) (y s)
  pure _ _ := .refl _
  bind hx hf s := (hx s).bind fun last => hf last.1 last.2
  refl _ _ := .refl _
  trans hxy hyz s := (hxy s).trans (hyz s)
  fails _ _ := nofun

variable {m : Type → Type} [AlternativeMonad m] [LawfulMonad m] (P : Refinement m)

theorem agree (R : Rules m) : P.Agree R R where
  typeOf := rfl
  taps := rfl
  read _ := P.refl _
  heed _ _ := P.refl _
  shown h := h.shown rfl rfl

/-- Results stay at greater heights. -/
theorem outline_of_le (R : Rules m) {height height' : Nat} (hle : height ≤ height') :
    P.Outlines (R.outline height) (R.outline height') := by
  have hsucc : ∀ height, P.Outlines (R.outline height) (R.outline (height + 1)) := by
    intro height
    induction height with
    | zero => exact ⟨fun _ _ _ => P.fails _, fun _ _ _ => P.fails _, fun _ _ _ _ => P.fails _, P.fails _⟩
    | succ height ih => exact Simulation.step (P.agree R) ih
  induction hle with
  | refl => exact ⟨fun _ _ _ => P.refl _, fun _ _ _ => P.refl _, fun _ _ _ _ => P.refl _, P.refl _⟩
  | @step height' _ ih =>
    have h := hsucc height'
    exact ⟨fun v type depth => P.trans (ih.object v type depth) (h.object v type depth),
      fun data body depth => P.trans (ih.copies data body depth) (h.copies data body depth),
      fun v depth path g => P.trans (ih.gather v depth path g) (h.gather v depth path g), P.trans ih.alive h.alive⟩

/-- What is built where only some of the reads are known is built with all of them. -/
theorem outline_reading (R : Rules m) {read : String → m (Option Value)} (h : ∀ raw, P.Rel (read raw) (R.read raw))
    (height : Nat) : P.Outlines ((R.reading read).outline height) (R.outline height) := by
  have hagree : P.Agree (R.reading read) R := ⟨rfl, rfl, h, fun _ _ => P.refl _, fun h => h.shown rfl rfl⟩
  exact Simulation.outline hagree (P.fails _) height

end Refinement

/-- A list of cases is built by building its first case, if it is one, and then the others. -/
theorem Outline.cases_cons {σ : Type} {lower : Outline (Run σ)} {depth : Nat} {c : Value} {rest : List Value}
    {found : List (Value × Shape)} {h last : σ}
    (hrun : (c :: rest).filterMapM (lower.case depth) h = some (found, last)) :
    c.isObject = false ∧ rest.filterMapM (lower.case depth) h = some (found, last) ∨
      ∃ fields t between others, c = .object fields ∧ lower.caseBody depth fields h = some (t, between) ∧
        rest.filterMapM (lower.case depth) between = some (others, last) ∧
        found = (t.map fun s => (caseCondition fields, s)).toList ++ others := by
  rw [List.filterMapM_cons] at hrun
  obtain ⟨⟨r, between⟩, hcase, hrun⟩ := Option.bind_eq_some_iff.1 hrun
  cases c with
  | object fields =>
    obtain ⟨⟨t, after⟩, hbody, hr⟩ := Option.bind_eq_some_iff.1 hcase
    cases hr
    cases t with
    | none => exact .inr ⟨fields, none, _, found, rfl, hbody, hrun, rfl⟩
    | some s =>
      obtain ⟨⟨others, last'⟩, hothers, hr⟩ := Option.bind_eq_some_iff.1 hrun
      cases hr
      exact .inr ⟨fields, some s, _, others, rfl, hbody, hothers, rfl⟩
  | _ =>
    cases hcase
    exact .inl ⟨rfl, hrun⟩

namespace Rules

variable {σ : Type} {height height' : Nat} {v : Value} {type : ContentType} {depth : Nat}

/-- A value has one result, at whatever heights it is built. -/
theorem object_unique {R : Rules Option} {r r' : Option Shape}
    (h : (R.outline height).object v type depth = some r)
    (h' : (R.outline height').object v type depth = some r') : r = r' := by
  have hmax := (Refinement.results.outline_of_le R (Nat.le_max_left height height')).object v type depth r h
  rw [(Refinement.results.outline_of_le R (Nat.le_max_right height height')).object v type depth r' h'] at hmax
  exact (Option.some.inj hmax).symm

/-- From a state a value has one result, at whatever heights it is built. -/
theorem object_run_unique {R : Rules (Run σ)} {s : σ} {r r' : Option Shape × σ}
    (h : (R.outline height).object v type depth s = some r)
    (h' : (R.outline height').object v type depth s = some r') : r = r' := by
  have hmax := ((Refinement.runs σ).outline_of_le R (Nat.le_max_left height height')).object v type depth s r h
  rw [((Refinement.runs σ).outline_of_le R (Nat.le_max_right height height')).object v type depth s r' h'] at hmax
  exact (Option.some.inj hmax).symm

end Rules

end DataBound.View
