-- SUMMARY: The tree of items that the tokens of a YAML document stand for.
import DataBound.Yaml.Token

/-! # Items

A document is an item: a scalar, a sequence of items, a mapping of items to items, or an alias that stands for
the last item before it that was anchored under its name. Handles of tags are replaced by what they stand for.

Anchors are numbered. A name that is new gets the number of names before it, and so does one that is used again,
so the next new name gets the number once more; what has a number is the last item that got it.

The readers work on the tokens that are left. They take a bound on the steps still allowed, which
`Item.ofTokens?` sets above the number of tokens. -/

namespace DataBound.Yaml

/-- What stands before an item: the number of its anchor and its tag. -/
structure Properties where
  anchor : Option Nat
  tag : Option TagText
  deriving DecidableEq

def Properties.none : Properties := ⟨.none, .none⟩

inductive Item where
  /-- The item with this number. -/
  | alias (id : Nat)
  | scalar (p : Properties) (plain : Bool) (text : String)
  | sequence (p : Properties) (items : List Item)
  | mapping (p : Properties) (entries : List (Item × Item))

namespace Item

/-- The item that is not written. -/
def empty : Item := .scalar .none true ""

/-! ## Views -/

/-- The item under its number, if it is anchored. -/
def numbered (p : Properties) (item : Item) : List (Nat × Item) := (p.anchor.map fun id => (id, item)).toList

mutual

/-- The anchored items with their numbers, in the order in which they start. -/
def anchored : Item → List (Nat × Item)
  | .alias _ => []
  | .scalar p plain text => numbered p (.scalar p plain text)
  | .sequence p items => numbered p (.sequence p items) ++ anchoredItems items
  | .mapping p entries => numbered p (.mapping p entries) ++ anchoredEntries entries

def anchoredItems : List Item → List (Nat × Item)
  | [] => []
  | item :: rest => item.anchored ++ anchoredItems rest

def anchoredEntries : List (Item × Item) → List (Nat × Item)
  | [] => []
  | (key, value) :: rest => key.anchored ++ value.anchored ++ anchoredEntries rest

end

mutual

/-- How many times something starts or ends in an item. -/
def weight : Item → Nat
  | .alias _ => 1
  | .scalar _ _ _ => 1
  | .sequence _ items => 2 + weightItems items
  | .mapping _ entries => 2 + weightEntries entries

/-- The weight of the items of a sequence. -/
def weightItems : List Item → Nat
  | [] => 0
  | item :: rest => item.weight + weightItems rest

/-- The weight of the entries of a mapping. -/
def weightEntries : List (Item × Item) → Nat
  | [] => 0
  | (key, value) :: rest => key.weight + value.weight + weightEntries rest

end

end Item

/-! ## Reading tokens -/

/-- What is left to be read, what handles stand for, and the numbers of the anchors so far. -/
structure Progress where
  tokens : List Token
  handles : List (String × TagText)
  names : List (String × Nat)

/-- A reader of tokens, which can refuse them. -/
abbrev Reader := StateT Progress Option

namespace Reader

def next : Reader (Option Token) := do pure (← get).tokens.head?

def skip : Reader Unit := modify fun r => { r with tokens := r.tokens.tail }

/-- Is the next token one of these? The end of the tokens is none. -/
def sees (ts : List Token) : Reader Bool := do pure ((← next).any ts.contains)

/-- Pass over the token if it is next, and tell whether it was. -/
def passes (t : Token) : Reader Bool := do
  if ← sees [t] then
    skip
    pure true
  else pure false

/-- Pass over a token, which has to be next. -/
def expect (t : Token) : Reader Unit := do if ← passes t then pure () else failure

/-- The number for an anchor of this name. -/
def anchor (name : String) : Reader Nat := do
  let r ← get
  let id := r.names.length
  set { r with names := (name, id) :: r.names.filter (·.1 ≠ name) }
  pure id

/-- The alias of a name, which must have been anchored before. -/
def aliasOf (name : String) : Reader Item := do
  match (← get).names.lookup name with
  | some id => pure (.alias id)
  | none => failure

/-- The text of a tag; its handle must stand for something. -/
def tagText (t : Tag) : Reader TagText := do
  if t.handle.isEmpty then pure t.suffix
  else
    match (← get).handles.lookup t.handle with
    | some text => pure (text ++ t.suffix)
    | none => failure

/-- The anchor and the tag at the start of the tokens, in either order, and the tokens after them. -/
def splitProperties : List Token → Option String × Option Tag × List Token
  | .anchor name :: .tag t :: rest => (some name, some t, rest)
  | .tag t :: .anchor name :: rest => (some name, some t, rest)
  | .anchor name :: rest => (some name, none, rest)
  | .tag t :: rest => (none, some t, rest)
  | rest => (none, none, rest)

def properties : Reader Properties := do
  let (name, tag, tokens) := splitProperties (← get).tokens
  modify fun r => { r with tokens }
  pure ⟨← name.mapM anchor, ← tag.mapM tagText⟩

/-- The tag that leaves it to the text of a scalar what it is; it is as good as none. -/
def plainTag : TagText := TagText.ofText "!"

def scalar (p : Properties) (plain : Bool) (text : String) : Item :=
  .scalar (if p.tag = some plainTag then { p with tag := none } else p) plain text

/-- The item that has properties but is not written. -/
def bare (p : Properties) : Reader Item := if p = .none then failure else pure (.scalar p true "")

mutual

/-- An item. Block collections are allowed only inside blocks, and a sequence whose items are not indented only
    directly under a key. -/
def item : Nat → (inBlock underKey : Bool) → Reader Item
  | 0, _, _ => failure
  | steps + 1, inBlock, underKey => do
    match ← next with
    | some (.alias name) =>
      skip
      aliasOf name
    | _ =>
      let p ← properties
      match ← next with
      | some .item => if underKey then .sequence p <$> itemsUnderKey steps else bare p
      | some (.scalar plain text) =>
        skip
        pure (scalar p plain text)
      | some .openSequence =>
        skip
        .sequence p <$> flowItems steps true
      | some .openMapping =>
        skip
        .mapping p <$> flowEntries steps true
      | some .openBlockSequence =>
        if inBlock then
          skip
          .sequence p <$> blockItems steps
        else bare p
      | some .openBlockMapping =>
        if inBlock then
          skip
          .mapping p <$> blockEntries steps
        else bare p
      | _ => bare p

/-- An item of a block, or the empty item in front of these tokens. -/
def itemUnless : Nat → List Token → (inBlock underKey : Bool) → Reader Item
  | 0, _, _, _ => failure
  | steps + 1, ends, inBlock, underKey => do if ← sees ends then pure .empty else item steps inBlock underKey

/-- The items of a block sequence and its end. -/
def blockItems : Nat → Reader (List Item)
  | 0 => failure
  | steps + 1 => do
    if ← passes .closeBlock then pure []
    else
      expect .item
      let v ← itemUnless steps [.item, .closeBlock] true false
      pure (v :: (← blockItems steps))

/-- The items of a sequence that is not indented; it ends where no item follows. -/
def itemsUnderKey : Nat → Reader (List Item)
  | 0 => failure
  | steps + 1 => do
    if ← passes .item then
      let v ← itemUnless steps [.item, .key, .value, .closeBlock] true false
      pure (v :: (← itemsUnderKey steps))
    else pure []

/-- The entries of a block mapping and its end. -/
def blockEntries : Nat → Reader (List (Item × Item))
  | 0 => failure
  | steps + 1 => do
    if ← passes .closeBlock then pure []
    else
      expect .key
      let k ← itemUnless steps [.key, .value, .closeBlock] true true
      let v ← valueUnless steps [.key, .value, .closeBlock] true
      pure ((k, v) :: (← blockEntries steps))

/-- The value of a key, which is empty if none is written or if one of these tokens follows. -/
def valueUnless : Nat → List Token → (inBlock : Bool) → Reader Item
  | 0, _, _ => failure
  | steps + 1, ends, inBlock => do
    if ← passes .value then itemUnless steps ends inBlock inBlock else pure .empty

/-- The items of a flow sequence and its end. -/
def flowItems : Nat → (first : Bool) → Reader (List Item)
  | 0, _ => failure
  | steps + 1, first => do
    if ← passes .closeSequence then pure []
    else
      if first then pure () else expect .comma
      if ← passes .closeSequence then pure []
      else
        let v ← if ← passes .key then flowPair steps else item steps false false
        pure (v :: (← flowItems steps false))

/-- The mapping with one entry that stands in a flow sequence after the mark of its key. If the key is not
    written, the token after it does not count. -/
def flowPair : Nat → Reader Item
  | 0 => failure
  | steps + 1 => do
    let k ←
      if ← sees [.value, .comma, .closeSequence] then
        skip
        pure Item.empty
      else item steps false false
    let v ← valueUnless steps [.comma, .closeSequence] false
    pure (.mapping .none [(k, v)])

/-- The entries of a flow mapping and its end. An item that is not marked as a key is a key without a value. -/
def flowEntries : Nat → (first : Bool) → Reader (List (Item × Item))
  | 0, _ => failure
  | steps + 1, first => do
    if ← passes .closeMapping then pure []
    else
      if first then pure () else expect .comma
      if ← passes .closeMapping then pure []
      else
        let entry ←
          if ← passes .key then do
            let k ← itemUnless steps [.value, .comma, .closeMapping] false false
            let v ← valueUnless steps [.comma, .closeMapping] false
            pure (k, v)
          else do
            let k ← item steps false false
            pure (k, Item.empty)
        pure (entry :: (← flowEntries steps false))

end

/-! ## Documents -/

/-- What the two handles of the language stand for unless a directive says otherwise. -/
def usualHandles : List (String × TagText) :=
  [("!", TagText.ofText "!"), ("!!", TagText.ofText "tag:yaml.org,2002:")]

/-- The handles that directives at the start of the tokens set, and the tokens after them. The version is given
    once and so is each handle. -/
def directives? : (versioned : Bool) → List (String × TagText) → List Token →
    Option (List (String × TagText) × List Token)
  | versioned, handles, .directive .version :: rest =>
    if versioned then none else directives? true handles rest
  | versioned, handles, .directive (.handle name text) :: rest =>
    if (handles.lookup name).isSome then none else directives? versioned ((name, text) :: handles) rest
  | _, handles, rest => some (handles, rest)

/-- Can the token not belong to the content of a document? -/
def isOutside : Token → Bool
  | .directive _ | .documentStart | .documentEnd => true
  | _ => false

/-- The content of a document after its start. -/
def content (steps : Nat) : Reader Item := do
  if ((← next).all isOutside) then pure .empty else item steps true false

/-- The item of a document whose tokens do not end here. -/
def document (steps : Nat) : Reader Item := do
  let r ← get
  match r.tokens with
  | .documentEnd :: _ => failure
  | t :: _ =>
    if isOutside t then
      match directives? false [] r.tokens with
      | some (handles, tokens) => set { r with tokens, handles := handles ++ usualHandles }
      | none => failure
      expect .documentStart
      content steps
    else item steps true false
  | [] => failure

end Reader

/-- The item that the tokens of a text stand for, which hold one document. A text without tokens stands for the
    empty item. -/
def Item.ofTokens? (tokens : List Token) : Option Item :=
  if tokens = [] then some .empty
  else do
    let (item, r) ← (Reader.document (4 * tokens.length + 8)).run ⟨tokens, Reader.usualHandles, []⟩
    if r.tokens.all (· = .documentEnd) then pure item else none

end DataBound.Yaml
