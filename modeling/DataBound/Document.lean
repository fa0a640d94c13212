-- SUMMARY: Reading and writing a document at data paths, and transactions of writes.
import DataBound.Value
import DataBound.Segment

/-! # Documents

A document is a value; `get?` reads it at a data path and `set` writes it there. An index names a position
of an array, and so does a key that spells one (`"1"`); every segment names a field by its text. Writing
creates what is missing: null becomes the container that the next segment asks for, arrays are padded with
null, and objects get a new last field. A write that meets a scalar, or a segment that is no position of the
array in its way, changes no value; containers made before that point stay. -/

namespace DataBound

/-- The segment as a value: a number or a string. -/
def Segment.toValue : Segment → Value
  | .index i => .ofInt64 i
  | .key name => .string name

/-- The path as an array of its segments. -/
def DataPath.toValue (path : DataPath) : Value := .array (path.map Segment.toValue)

/-- The array position that the segment names: an index that is not negative, or a key that is the decimal
    text of a number within 64 bits. -/
def Segment.position? : Segment → Option Nat
  | .index i => if 0 ≤ i.toInt then some i.toInt.toNat else none
  | .key name =>
    (Text.digits? name.toList).bind fun n =>
      if n < 0x1_0000_0000_0000_0000 ∧ toString n = name then some n else none

namespace Value

/-- The value one step down. -/
def child? : Value → Segment → Option Value
  | .array items, s => s.position?.bind fun i => items[i]?
  | .object fields, s => Fields.find? s.text fields
  | _, _ => none

def get? : Value → DataPath → Option Value
  | v, [] => some v
  | v, s :: rest => (v.child? s).bind fun next => next.get? rest

/-- The empty container that a segment asks for. -/
def containerFor : Segment → Value
  | .index _ => .array []
  | .key _ => .object []

/-- The items, padded with null up to a length. -/
def padded (items : List Value) (length : Nat) : List Value :=
  items ++ List.replicate (length - items.length) .null

/-- The value with the part at a path replaced by `new`. -/
def set : DataPath → Value → Value → Value
  | [], new, _ => new
  | s :: rest, new, old =>
    match if old.isNull then containerFor s else old with
    | .object fields => .object (Fields.update s.text (set rest new) fields)
    | .array items =>
      match s.position? with
      | some i => .array ((padded items (i + 1)).modify i (set rest new))
      | none => .array items
    | scalar => scalar

/-- The value with `new` at a path, where containers that do not fit are replaced: an index that is not
    negative goes into an array or object, every other segment into an object. -/
def place : DataPath → Value → Value → Value
  | [], new, _ => new
  | s :: rest, new, old =>
    let position := match s with
      | .index i => if 0 ≤ i.toInt then some i.toInt.toNat else none
      | .key _ => none
    match old, position with
    | .object fields, _ => .object (Fields.update s.text (place rest new) fields)
    | .array items, some i => .array ((padded items (i + 1)).modify i (place rest new))
    | _, some i => .array ((padded [] (i + 1)).modify i (place rest new))
    | _, none => .object [(s.text, place rest new .null)]

/-- The document after the writes of a transaction, in order. -/
def setAll (writes : List (DataPath × Value)) (document : Value) : Value :=
  writes.foldl (fun acc (path, new) => set path new acc) document

@[simp] theorem get?_nil (v : Value) : v.get? [] = some v := by cases v <;> rfl

theorem get?_cons (v : Value) (s : Segment) (rest : DataPath) :
    v.get? (s :: rest) = (v.child? s).bind fun next => next.get? rest := by cases v <;> rfl

@[simp] theorem set_nil (new old : Value) : set [] new old = new := rfl

end Value

end DataBound
