-- SUMMARY: Pending writes in the order of their keys' first appearance.
import DataBound.Value
import DataBound.Segment

/-! # Updates

The writes that resolving a path asks for. They are keyed by the dotted text of their path: a later write to
a key replaces the value and keeps the place and the path of the first one. -/

namespace DataBound

/-- A write of a value at a path. -/
structure Update where
  /-- The dotted text of the path. -/
  key : String
  path : DataPath
  value : Value

/-- The write of a value at a path, under the text of the path. -/
def Update.of (path : DataPath) (value : Value) : Update := ⟨path.text, path, value⟩

@[simp] theorem Update.of_key (path : DataPath) (value : Value) : (Update.of path value).key = path.text := rfl

@[simp] theorem Update.of_path (path : DataPath) (value : Value) : (Update.of path value).path = path := rfl

@[simp] theorem Update.of_value (path : DataPath) (value : Value) : (Update.of path value).value = value := rfl

/-- Updates in the order in which their keys first came. -/
abbrev Updates := List Update

namespace Updates

def insert : Updates → DataPath → Value → Updates
  | [], path, value => [.of path value]
  | update :: rest, path, value =>
    if update.key = path.text then { update with value := value } :: rest
    else update :: insert rest path value

/-- The updates with those of `other` written after them, one by one. -/
def merge (updates other : Updates) : Updates :=
  other.foldl (fun acc update => insert acc update.path update.value) updates

def find? (updates : Updates) (key : String) : Option Value :=
  (List.find? (fun update => update.key = key) updates).map Update.value

def keys (updates : Updates) : List String := updates.map Update.key

@[simp] theorem merge_nil (updates : Updates) : merge updates [] = updates := rfl

end Updates

end DataBound
