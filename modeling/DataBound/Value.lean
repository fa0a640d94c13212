-- SUMMARY: Document values: null, booleans, numbers, strings, arrays, and objects in field order.
import DataBound.Number.Shortest

/-! # Values

The values that documents hold and views are built from. Integers that fit 64 bits, signed or
unsigned, are kept apart from floats: `1` and `1.0` are different values. The fields of an object stand
in the order in which their keys first appeared. -/

namespace DataBound

/-- A number: an integer of 64 bits, signed or unsigned, or a binary64 float. -/
inductive Number where
  | int (value : Int) (inRange : -0x8000_0000_0000_0000 ≤ value ∧ value < 0x1_0000_0000_0000_0000)
  | float (value : Binary64)
  deriving DecidableEq

inductive Value where
  | null
  | bool (flag : Bool)
  | number (n : Number)
  | string (text : String)
  | array (items : List Value)
  | object (fields : List (String × Value))
  deriving Inhabited

/-! ## Fields -/

/-- The fields of an object in order. -/
abbrev Fields := List (String × Value)

namespace Fields

/-- The value of the first field with this key. -/
def find? (key : String) : Fields → Option Value
  | [] => none
  | (k, v) :: rest => if k = key then some v else find? key rest

def hasKey (fields : Fields) (key : String) : Bool := (find? key fields).isSome

/-- The fields with the value at `key` changed; an absent key is appended, with null to start from. -/
def update (key : String) (change : Value → Value) : Fields → Fields
  | [] => [(key, change .null)]
  | (k, v) :: rest => if k = key then (k, change v) :: rest else (k, v) :: update key change rest

/-- The fields with `value` at `key`: in place if the key is present, and else at the end. -/
def put (fields : Fields) (key : String) (value : Value) : Fields := update key (fun _ => value) fields

/-- Fields from a list of pairs; a repeated key keeps its first place and its last value. -/
def ofPairs (pairs : List (String × Value)) : Fields := pairs.foldl (fun acc (k, v) => put acc k v) []

def without (fields : Fields) (key : String) : Fields := fields.filter fun field => field.1 ≠ key

@[simp] theorem find?_nil (key : String) : find? key [] = none := rfl

@[simp] theorem find?_put_self (fields : Fields) (key : String) (value : Value) :
    find? key (fields.put key value) = some value := by
  induction fields with
  | nil => simp [put, update, find?]
  | cons field rest ih =>
    obtain ⟨k, v⟩ := field
    by_cases h : k = key
    · simp [put, update, find?, h]
    · simpa [put, update, find?, h] using ih

end Fields

/-! ## Numbers -/

namespace Number

/-- The integer as a number: exact within 64 bits, and else the nearest float. -/
def ofInt? (i : Int) : Option Number :=
  if h : -0x8000_0000_0000_0000 ≤ i ∧ i < 0x1_0000_0000_0000_0000 then some (.int i h)
  else (Binary64.ofInt? i).map .float

/-- The binary64 number nearest to the number. -/
def toBinary64? : Number → Option Binary64
  | .int i _ => Binary64.ofInt? i
  | .float x => some x

/-- The number as an index, if it is an integer within 64 signed bits. -/
def toInt64? : Number → Option Int64
  | .int i _ => if i < 0x8000_0000_0000_0000 then some (Int64.ofInt i) else none
  | .float _ => none

end Number

/-! ## Values -/

namespace Value

def ofNat (n : Nat) (h : n < 0x1_0000_0000_0000_0000) : Value := .number (.int n ⟨by omega, by omega⟩)

def ofInt64 (i : Int64) : Value :=
  .number (.int i.toInt ⟨i.le_toInt, Int.lt_trans i.toInt_lt (by decide)⟩)

/-- A count as a number; counts stay within 64 bits, the largest of which stands in beyond. -/
def ofCount (n : Nat) : Value :=
  if h : n < 0x1_0000_0000_0000_0000 then ofNat n h else ofNat (0x1_0000_0000_0000_0000 - 1) (by decide)

def typeName : Value → String
  | .null => "null"
  | .bool _ => "boolean"
  | .number _ => "number"
  | .string _ => "string"
  | .array _ => "array"
  | .object _ => "object"

def asString : Value → Option String
  | .string text => some text
  | _ => none

def asBool : Value → Option Bool
  | .bool flag => some flag
  | _ => none

def asArray : Value → Option (List Value)
  | .array items => some items
  | _ => none

def asObject : Value → Option Fields
  | .object fields => some fields
  | _ => none

def isObject : Value → Bool
  | .object _ => true
  | _ => false

def isArray : Value → Bool
  | .array _ => true
  | _ => false

def isNull : Value → Bool
  | .null => true
  | _ => false

/-- The value of an object's field; other values have none. -/
def field? (key : String) : Value → Option Value
  | .object fields => Fields.find? key fields
  | _ => none

/-- Does the value count as true? Null, false, zero and the empty string do not. -/
def isTruthy : Value → Bool
  | .null => false
  | .bool flag => flag
  | .number n =>
    match n.toBinary64? with
    | some x => !x.isZero
    | none => false
  | .string text => !text.isEmpty
  | .array _ => true
  | .object _ => true

end Value

/-! ## Equality -/

/-- The same number: integers by value, floats by the real number they stand for, and an integer never
    equals a float. -/
def Number.same : Number → Number → Bool
  | .int i _, .int j _ => i == j
  | .float x, .float y => x.sameValue y
  | _, _ => false

mutual

/-- The same value: the order of an object's fields does not matter. -/
def Value.same : Value → Value → Bool
  | .null, .null => true
  | .bool a, .bool b => a == b
  | .number a, .number b => a.same b
  | .string a, .string b => a == b
  | .array as, .array bs => sameItems as bs
  | .object as, .object bs => as.length == bs.length && sameFields as bs
  | _, _ => false

/-- The same items in the same order. -/
def sameItems : List Value → List Value → Bool
  | [], [] => true
  | a :: as, b :: bs => a.same b && sameItems as bs
  | _, _ => false

/-- Does every one of the fields occur, with the same value, among the others? -/
def sameFields : List (String × Value) → Fields → Bool
  | [], _ => true
  | (key, a) :: rest, others =>
    match Fields.find? key others with
    | some b => a.same b && sameFields rest others
    | none => false

end

end DataBound
