-- SUMMARY: Segments (indices and keys), data paths as segment lists, and their dotted text.
import DataBound.Text.Digits

/-! # Segments and data paths

A segment is an index into an array or a key of an object. A data path is a list of segments; its
text joins the texts of the segments with dots. Text is read back piece by piece, and a piece that
spells a 64-bit integer becomes an index, so `foo.1` and `foo.01` both name position 1 of `foo`,
while the key `1` can only be built directly. -/

namespace DataBound

/-- A step into a document: a position of an array, or a key of an object. -/
inductive Segment where
  | index (position : Int64)
  | key (name : String)
  deriving DecidableEq, Inhabited

namespace Segment

/-- The index that a text spells: an optional minus sign, digits, and a value within 64 bits. -/
def index? (text : String) : Option Int64 :=
  (Text.signed? text.toList).bind fun n =>
    if -0x8000_0000_0000_0000 ≤ n ∧ n < 0x8000_0000_0000_0000 then some (Int64.ofInt n) else none

/-- The segment that a piece of dotted text means: an index if it spells one, and else a key. -/
def ofText (text : String) : Segment :=
  match index? text with
  | some position => .index position
  | none => .key text

/-- The segment's text: the decimal digits of an index, the key itself. -/
def text : Segment → String
  | .index position => toString position.toInt
  | .key name => name

def asIndex : Segment → Option Int64
  | .index position => some position
  | .key _ => none

def asKey : Segment → Option String
  | .index _ => none
  | .key name => some name

/-- The array index of a position counted from the start of an array. -/
def ofPosition (n : Nat) : Segment := .index (Int64.ofNat n)

/-- A tagged spelling that tells indices from keys and shows where the segment ends: `#`, the digits
    and `;` for an index, `$`, the length in bytes, `:` and the name for a key. -/
def tagged : Segment → String
  | .index position => "#" ++ toString position.toInt ++ ";"
  | .key name => "$" ++ toString name.utf8ByteSize ++ ":" ++ name

@[simp] theorem text_key (name : String) : (Segment.key name).text = name := rfl

end Segment

/-- A path into a document, from the root. -/
abbrev DataPath := List Segment

namespace DataPath

/-- The texts of the segments, joined with dots. -/
def text (path : DataPath) : String :=
  String.ofList (List.intercalate ['.'] (path.map fun s => s.text.toList))

/-- The segments of a dotted text; the empty text is the empty path. -/
def ofText (raw : String) : DataPath :=
  if raw.isEmpty then []
  else (List.splitOn '.' raw.toList).map fun piece => Segment.ofText (String.ofList piece)

/-- The path itself or a path below it. -/
def contains (path other : DataPath) : Bool := path.isPrefixOf other

/-- The segments after as many leading ones as `other` has. -/
def relativeTo (path other : DataPath) : DataPath := path.drop other.length

/-- The path without its last segment; the empty path is its own parent. -/
def parent (path : DataPath) : DataPath := path.dropLast

/-- The path one goes to from `path` by following `below`. -/
def descend (path below : DataPath) : DataPath := path ++ below

/-- The tagged spellings of the segments one after the other. -/
def tagged (path : DataPath) : String := String.join (path.map Segment.tagged)

@[simp] theorem text_nil : text [] = "" := rfl

@[simp] theorem text_singleton (s : Segment) : text [s] = s.text := by
  simp [text, String.ofList_toList]

end DataPath

end DataBound
