-- SUMMARY: Building a tree of view nodes from content, driven by hooks.
import DataBound.View.Arena
import DataBound.Hook
import DataBound.Effect

/-! # Building views

Content becomes nodes in one walk. Primitives are collected into the literal value of the node around them,
plain objects are flattened into the paths of its children, arrays become multi-nodes, and hooks decide the
rest: `classify` gives an object a node type, `buildNode` builds classified objects, `onObject` changes or
vetoes an object before it is walked, `onCreate` replaces or drops a node that was just made, and `onView` is
told about finished views.

Handlers can call the builder again, so the builder is a tower of levels: `Hooks.step` says how one level
works in terms of the level below it, and level zero has no result. A limit is the height of the tower that is
used; content that nests less deep than the limit never meets the bottom. -/

namespace DataBound.View

/-! ## Building -/

/-- What building changes: the nodes made so far, and the world of the handlers. -/
structure Stage (w : Type) where
  arena : Arena
  world : w

/-- A step of building. -/
abbrev Build (w : Type) := Run (Stage w)

namespace Build

variable {w α : Type}

/-- A change of the arena that gives a result. -/
def onArena (change : Arena → α × Arena) : Build w α := fun s =>
  let (a, arena) := change s.arena
  some (a, { s with arena })

/-- A run over the world of the handlers. -/
def onWorld (run : Run w α) : Build w α := fun s => do
  let (a, world) ← run s.world
  some (a, { s with world })

def alloc (kind : Kind) : Build w NodeId := onArena (Arena.alloc kind)

def kind? (id : NodeId) : Build w (Option Kind) := onArena fun a => (a.kind? id, a)

def adopt (parent : NodeId) (children : List NodeId) : Build w Unit :=
  onArena fun a => ((), a.adopt parent children)

end Build

/-- What is gathered from an object: its literal value and the nodes below it. -/
structure Gathered where
  value : Option Value
  children : List Child

def Gathered.empty : Gathered := ⟨none, []⟩

namespace Gathered

def push (g : Gathered) (path : DataPath) (node : NodeId) : Gathered :=
  { g with children := g.children ++ [⟨path, false, node⟩] }

def place (g : Gathered) (path : DataPath) (v : Value) : Gathered :=
  { g with value := some (Value.place path v (g.value.getD .null)) }

end Gathered

/-- The builder as handlers see it. Content is built at a template depth, the number of templates around
    it. -/
structure Level (w : Type) where
  /-- The node of an object. -/
  object : Value → ContentType → Nat → Build w (Option NodeId)
  /-- The node that handlers build for a classified object. -/
  node : Value → ContentType → Nat → Option NodeType → Build w (Option NodeId)
  /-- A new node made from a source, after the handlers have had their say. -/
  create : Kind → Value → Build w (Option NodeId)
  /-- What is gathered from an object at a path, added to what was gathered before. -/
  gather : Value → ContentType → Nat → DataPath → Gathered → Build w Gathered

/-- The level without results. -/
def Level.bottom {w : Type} : Level w :=
  ⟨fun _ _ _ _ => none, fun _ _ _ _ _ => none, fun _ _ _ => none, fun _ _ _ _ _ _ => none⟩

/-- The hooks of a builder. -/
structure Hooks (w : Type) where
  classify : Hook (Value → Option NodeType)
  buildNode : Hook (Level w → Value → ContentType → Nat → Option NodeType → Build w (Option NodeId))
  onObject : Hook (Value → ContentType → Run w (Option Value))
  onCreate : Hook (Level w → Option NodeId → Value → Build w (Option NodeId))
  onView : Hook (Tree → Run w Unit)

def Hooks.empty {w : Type} : Hooks w := ⟨∅, ∅, ∅, ∅, ∅⟩

/-! ## Content -/

/-- The segment under which a template's copies are placed: a string, or an integer within 64 signed bits. -/
def outputSegment? : Value → Option Segment
  | .string name => some (.key name)
  | .number n => n.toInt64?.map .index
  | _ => none

/-- Does one of the object's templates put its copies under this key? -/
def hasTemplateOutput (object : Value) (key : Segment) : Bool :=
  match key, (object.field? "template").bind Value.asArray with
  | .key name, some templates =>
    templates.any fun t => (t.field? "output").bind Value.asString == some name
  | _, _ => false

/-- The parts of a container with the segments that lead to them. -/
def entries : Value → List (Segment × Value)
  | .object fields => fields.map fun (key, v) => (.key key, v)
  | .array items => items.zipIdx.map fun (v, i) => (.ofPosition i, v)
  | _ => []

def withoutField (key : String) (fields : Fields) : Value := .object (Fields.without fields key)

/-- A template as its descriptor says. -/
def templateKind (descriptor : Value) (depth : Nat) : Kind :=
  .template (((descriptor.field? "data").bind Value.asString).getD "")
    ((descriptor.field? "value").getD .null) depth
    (((descriptor.field? "dynamic").bind Value.asBool).getD false)

/-- How a switch is placed below the node around it: one that came out as a bare value with a single child
    gives that child. -/
def switchChild (kind : Option Kind) (switch : NodeId) (path : DataPath) : Child :=
  match kind with
  | some (.content .value none [only]) => { only with path := path ++ only.path }
  | _ => ⟨path, false, switch⟩

namespace Hooks

variable {w : Type}

/-- The node type that handlers give to a value. -/
def typeOf (hooks : Hooks w) (v : Value) : Option NodeType :=
  Id.run (hooks.classify.bail fun classify => pure (classify v))

def isOfType (hooks : Hooks w) (type : NodeType) (v : Value) : Bool := hooks.typeOf v == some type

/-- The node that handlers build for a classified value. -/
def build (hooks : Hooks w) (lower : Level w) (v : Value) (type : ContentType) (depth : Nat)
    (nodeType : Option NodeType) : Build w (Option NodeId) :=
  hooks.buildNode.bail fun handler => handler lower v type depth nodeType

/-- What handlers make of a node that was made from a source, or of the lack of one. -/
def settle (hooks : Hooks w) (lower : Level w) (node : Option NodeId) (source : Value) :
    Build w (Option NodeId) :=
  hooks.onCreate.thread node fun handler current => handler lower current source

/-- A new node made from a source, after the handlers have had their say. -/
def create (hooks : Hooks w) (lower : Level w) (kind : Kind) (source : Value) : Build w (Option NodeId) := do
  let id ← Build.alloc kind
  hooks.settle lower (some id) source

/-- The object as handlers change it; once one vetoes it the others are not asked. -/
def changed (hooks : Hooks w) (v : Value) (type : ContentType) : Build w (Option Value) :=
  hooks.onObject.thread (some v) fun handler current =>
    match current with
    | some v => Build.onWorld (handler v type)
    | none => pure none

/-- The node, unless it is empty, which stands for content that is left out on purpose. -/
def unlessEmpty (id : NodeId) : Build w (Option NodeId) := do
  match ← Build.kind? id with
  | some .empty => pure none
  | _ => pure (some id)

def adoptMembers (id : NodeId) : Build w Unit := do
  if let some (.multi _ members) ← Build.kind? id then Build.adopt id members

/-- The placeholder for an object with an `async` field: the object is built without it, and needs a text
    under `id`. -/
def async (hooks : Hooks w) (lower : Level w) (fields : Fields) (depth : Nat) : Build w (Option NodeId) := do
  let some body ← lower.object (withoutField "async" fields) .value depth | pure none
  let some id := (← Build.kind? body).bind Kind.id? | pure none
  let some node ← hooks.create lower (.async id body) (.object fields) | pure none
  if let some (.async _ body) ← Build.kind? node then Build.adopt node [body]
  pure (some node)

/-- What a template descriptor adds; one without an output adds nothing. -/
def template (hooks : Hooks w) (lower : Level w) (depth : Nat) (path : DataPath) (g : Gathered)
    (descriptor : Value) : Build w Gathered := do
  match (descriptor.field? "output").bind outputSegment? with
  | none => pure g
  | some output =>
    match ← hooks.create lower (templateKind descriptor depth) descriptor with
    | none => pure g
    | some node => do
      adoptMembers node
      pure (g.push (path ++ [output]) node)

/-- What an array adds: a multi-node of the items that give a node, if any does. -/
def members (hooks : Hooks w) (lower : Level w) (depth : Nat) (path : DataPath) (g : Gathered)
    (overrides : Bool) (items : List Value) : Build w Gathered := do
  let nodes ← items.filterMapM fun item => lower.object item .value depth
  if nodes.isEmpty then pure g
  else
    match ← hooks.create lower (.multi overrides nodes) (.array items) with
    | none => pure g
    | some node => do
      adoptMembers node
      pure (g.push path node)

def switch (hooks : Hooks w) (lower : Level w) (depth : Nat) (path : DataPath) (g : Gathered) (v : Value) :
    Build w Gathered := do
  match ← hooks.build lower v .value depth (some .switch) with
  | none => pure g
  | some built =>
    match ← unlessEmpty built with
    | none => pure g
    | some node => do
      let child := switchChild (← Build.kind? node) node path
      pure { g with children := g.children ++ [child] }

/-- The node, if there is one, as a child. -/
def pushed (g : Gathered) (path : DataPath) : Option NodeId → Gathered
  | some node => g.push path node
  | none => g

/-- What an entry of an object or array adds to what was gathered from it so far. -/
def entry (hooks : Hooks w) (lower : Level w) (around : Value) (type : ContentType) (depth : Nat)
    (path : DataPath) (g : Gathered) (key : Segment) (v : Value) : Build w Gathered := do
  let here := path ++ [key]
  if key.asKey == some "asset" && v.isObject then
    pure (pushed g here (← lower.object v .asset depth))
  else if v.isArray && key.asKey.any (fun name => hooks.isOfType .template (.string name)) then
    (v.asArray.getD []).foldlM (fun g descriptor => hooks.template lower depth path g descriptor) g
  else if v.isTruthy && hooks.isOfType .switch v then
    hooks.switch lower depth here g v
  else
    match v with
    | .object fields =>
      if Fields.hasKey fields "async" then
        pure (pushed g here (← hooks.async lower fields depth))
      else if hooks.isOfType .applicability v then
        pure (pushed g here (← hooks.build lower v .value depth (some .applicability)))
      else lower.gather v type depth here g
    | .array items => hooks.members lower depth here g (!hasTemplateOutput around key) items
    | primitive => pure (g.place here primitive)

/-- What is gathered from a value at a path, after what was gathered before. A primitive is the whole
    literal value; a vetoed container adds nothing. -/
def gather (hooks : Hooks w) (lower : Level w) (v : Value) (type : ContentType) (depth : Nat)
    (path : DataPath) (g : Gathered) : Build w Gathered := do
  if !v.isObject && !v.isArray then pure ⟨some v, []⟩
  else
    match ← hooks.changed v type with
    | none => pure g
    | some around =>
      (entries around).foldlM (fun g (key, v) => hooks.entry lower around type depth path g key v) g

/-- The content node of what was gathered, if it is anything. -/
def contentNode (type : ContentType) (g : Gathered) : Build w (Option NodeId) := do
  if g.value.isNone && g.children.isEmpty then pure none
  else
    let id ← Build.alloc (.content type g.value g.children)
    Build.adopt id (g.children.map Child.node)
    pure (some id)

/-- The node of a value: what handlers build if it is classified and they build anything, and else a
    content node. -/
def object (hooks : Hooks w) (lower : Level w) (v : Value) (type : ContentType) (depth : Nat) :
    Build w (Option NodeId) := do
  let nodeType := hooks.typeOf v
  let built ← if nodeType.isSome then hooks.build lower v type depth nodeType else pure none
  match built with
  | some id => unlessEmpty id
  | none => do
    let g ← hooks.gather lower v type depth [] .empty
    let base ← contentNode type g
    hooks.settle lower base v

/-! ## Levels -/

/-- The level above another one. -/
def step (hooks : Hooks w) (lower : Level w) : Level w where
  object := hooks.object lower
  node := hooks.build lower
  create := hooks.create lower
  gather := hooks.gather lower

def level (hooks : Hooks w) : Nat → Level w
  | 0 => .bottom
  | height + 1 => hooks.step (hooks.level height)

/-- The tree of a value, if it gives a node. -/
def buildObject (hooks : Hooks w) (limit : Nat) (v : Value) (type : ContentType) (depth : Nat) :
    Run w (Option Tree) := fun world => do
  let (root, stage) ← (hooks.level limit).object v type depth ⟨.empty, world⟩
  some (root.map fun root => ⟨stage.arena, root⟩, stage.world)

/-- The tree of a view: the value has to be an object and its root a view node. Handlers are told about the
    tree. -/
def buildView (hooks : Hooks w) (limit : Nat) (v : Value) (depth : Nat) : Action w Tree := do
  if !v.isObject then throw (.unusableView .notAnObject)
  let some tree ← (hooks.buildObject limit v .view depth : Run w (Option Tree))
    | throw (.unusableView .nothingBuilt)
  let type := (tree.arena.type? tree.root).getD .unknown
  if type != .view then throw (.unusableView (.rootIs type.name))
  (hooks.onView.forEach fun handler => handler tree : Run w Unit)
  pure tree

end Hooks

end DataBound.View
