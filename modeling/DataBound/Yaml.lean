-- SUMMARY: Reading YAML documents as values.
import DataBound.Yaml.Item
import DataBound.Yaml.Layout
import DataBound.Yaml.Scalar

/-! # YAML documents

A text is read in three steps: `tokens?` finds its tokens, `Item.ofTokens?` the item that they stand for, and
`Item.value?` the value of that item. An alias has the value of the item that it stands for, and a mapping takes
the texts of scalars for its keys. Collections nest to a limited depth, and aliases are followed a limited number
of times, so that a small document does not stand for a huge value. -/

namespace DataBound.Yaml

/-- How deep collections nest. -/
def nestingLimit : Nat := 128

/-- How many times aliases are followed for each unit of a document's weight. -/
def repetitionLimit : Nat := 100

/-- What aliases of a document stand for, and how many times they are followed at most. -/
structure Anchors where
  /-- The anchored items with their numbers, the last one first. -/
  items : List (Nat × Item)
  limit : Nat

def Anchors.ofItem (item : Item) : Anchors := ⟨item.anchored.reverse, repetitionLimit * item.weight⟩

/-- The count of aliases followed so far goes along with reading values, which can refuse items. -/
abbrev Following := StateT Nat Option

/-- The item that an item stands for. -/
def Anchors.follow (anchors : Anchors) : Item → Following Item
  | .alias id => do
    let followed := (← get) + 1
    set followed
    if anchors.limit < followed then failure
    else
      match anchors.items.lookup id with
      | some item => pure item
      | none => failure
  | item => pure item

/-- The text of an item that is a key: a scalar, whatever its tag. -/
def Anchors.keyText (anchors : Anchors) (item : Item) : Following String := do
  match ← anchors.follow item with
  | .scalar _ _ text => pure text
  | _ => failure

/-- Refuse properties that no collection can have. -/
def Properties.admit (p : Properties) : Following Unit :=
  if p.tag.any TagText.isForeign then failure else pure ()

/-- The value of an item where collections may nest this deep. -/
def Anchors.value (anchors : Anchors) : (depth : Nat) → Item → Following Value
  | depth, item => do
    match ← anchors.follow item, depth with
    | .scalar p plain text, _ =>
      match scalarValue? p.tag plain text with
      | some v => pure v
      | none => failure
    | .sequence p items, depth + 1 =>
      p.admit
      .array <$> items.mapM (anchors.value depth)
    | .mapping p entries, depth + 1 =>
      p.admit
      let fields ← entries.mapM fun (key, item) => do pure (← anchors.keyText key, ← anchors.value depth item)
      pure (.object (Fields.ofPairs fields))
    | _, _ => failure

def Item.value? (item : Item) : Option Value :=
  ((Anchors.ofItem item).value nestingLimit item).run' 0

/-- The value that a text stands for; a text without content is null. -/
def read? (text : String) : Option Value := do
  let tokens ← tokens? text
  let item ← Item.ofTokens? tokens
  item.value?

end DataBound.Yaml
