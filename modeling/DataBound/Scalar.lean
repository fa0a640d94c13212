-- SUMMARY: Path text of scalars, loose equality, and the search for an array element.
import DataBound.Value
import DataBound.Number.Reading
import DataBound.Effect

/-! # Scalars in paths

Strings, booleans and numbers have a path text; the other values have none. Two values are loosely equal when
they are of one type and equal, or when both have a numeric reading and these agree; arrays and objects are
never loosely equal to anything. `findElement?` uses this to find the element that a query names. -/

namespace DataBound

/-- The path text of a number. A float with an integral value below 10¹⁵ is written like the integer. -/
def Number.pathText : Number → String
  | .int i _ => toString i
  | .float x =>
    match x.toInt? with
    | some i => if i.natAbs < 1_000_000_000_000_000 then toString i else x.text .path
    | none => x.text .path

namespace Value

def pathText : Value → Except Error String
  | .string text => .ok text
  | .bool flag => .ok (if flag then "true" else "false")
  | .number n => .ok n.pathText
  | other => .error (.notScalar other.typeName)

/-- The numeric reading of a scalar: true is one and false is zero. -/
def numeric? : Value → Option Binary64
  | .number n => n.toBinary64?
  | .string text => Text.number? text
  | .bool flag => Binary64.ofInt? (if flag then 1 else 0)
  | _ => none

/-- Equality across scalar types. -/
def looseEq : Value → Value → Bool
  | .null, .null => true
  | .string a, .string b => a == b
  | .bool a, .bool b => a == b
  | a, b =>
    match a.numeric?, b.numeric? with
    | some x, some y => x.sameValue y
    | _, _ => false

/-- Is the value an object whose field `key` is loosely equal to the wanted text? When no text is wanted the
    field has to be null or absent. -/
def matchesQuery (key : String) (wanted : Option String) : Value → Bool
  | .object fields =>
    match Fields.find? key fields, wanted with
    | found, none => found.all isNull
    | some v, some text => v.looseEq (.string text)
    | none, some _ => false
  | _ => false

end Value

/-- The position of the first element that a query names. -/
def findElement? (elements : List Value) (key : String) (wanted : Option String) : Option Nat :=
  elements.findIdx? (Value.matchesQuery key wanted)

end DataBound
