-- SUMMARY: The values that scalars of YAML documents stand for.
import DataBound.Value
import DataBound.Number.Reading
import DataBound.Text.Digits
import DataBound.Yaml.Tag

/-! # Values of scalars

A plain scalar without a tag is null, a boolean, a number or a string, whichever its text spells; any other scalar
without a tag is a string. The tags of the language for these types are obeyed, and a text that does not fit its
tag is refused; tags that start with an exclamation mark are refused, and others make strings. -/

namespace DataBound.Yaml

/-! ## Words -/

def isNullWord (text : String) : Bool := ["null", "Null", "NULL", "~"].contains text

def boolWord? (text : String) : Option Bool :=
  if ["true", "True", "TRUE"].contains text then some true
  else if ["false", "False", "FALSE"].contains text then some false
  else none

/-! ## Numbers -/

/-- Is the text a run of digits with a needless zero in front, after a sign? Such a text is a string. -/
def isZeroLed (cs : List Char) : Bool :=
  let digits := (Text.splitSign cs).2
  digits.length > 1 && digits.head? == some '0' && digits.all Char.isDigit

/-- The natural number that a text without sign spells: decimal, or in base 16, 8 or 2 after a mark. -/
def natural? : List Char → Option Nat
  | '0' :: 'x' :: digits => Text.inBase? 16 digits
  | '0' :: 'o' :: digits => Text.inBase? 8 digits
  | '0' :: 'b' :: digits => Text.inBase? 2 digits
  | digits => if isZeroLed digits then none else Text.digits? digits

/-- The integer within 128 bits, signed or unsigned, that a text spells. -/
def integer? (cs : List Char) : Option Int :=
  let (negative, unsigned) := Text.splitSign cs
  (natural? unsigned).bind fun n =>
    if negative then (if n ≤ 0x8000_0000_0000_0000_0000_0000_0000_0000 then some (-(n : Int)) else none)
    else if n < 0x1_0000_0000_0000_0000_0000_0000_0000_0000 then some (n : Int)
    else none

/-- The value of an integer, which must be within 64 bits. -/
def integerValue? (i : Int) : Option Value :=
  if h : -0x8000_0000_0000_0000 ≤ i ∧ i < 0x1_0000_0000_0000_0000 then some (.number (.int i h)) else none

/-- The texts that stand for numbers no document can hold; they are read as null. -/
def isNonFinite (text : String) : Bool :=
  [".inf", ".Inf", ".INF", "+.inf", "+.Inf", "+.INF", "-.inf", "-.Inf", "-.INF", ".nan", ".NaN",
    ".NAN"].contains text

/-- The value of a text that spells a float. -/
def floatValue? (cs : List Char) : Option Value :=
  if isNonFinite (String.ofList cs) then some .null
  else
    let (negative, unsigned) := Text.splitSign cs
    ((Text.decimal? unsigned).bind fun d => d.toBinary64? negative).map fun x => .number (.float x)

/-! ## Scalars -/

/-- The value of a plain scalar without a tag. An integer within 128 bits but not within 64 is refused, and a
    greater one is a float if it is decimal. -/
def plainValue? (text : String) : Option Value :=
  let cs := text.toList
  if text.isEmpty || isNullWord text then some .null
  else
    match boolWord? text, integer? cs with
    | some b, _ => some (.bool b)
    | none, some i => integerValue? i
    | none, none => if isZeroLed cs then some (.string text) else (floatValue? cs).or (some (.string text))

/-- Does a tag start with an exclamation mark? -/
def TagText.isLocal (t : TagText) : Bool := t.head? == some 0x21

/-- Does a tag name a type of its own, in characters, that a value cannot have? -/
def TagText.isForeign (t : TagText) : Bool :=
  t.isLocal && (String.fromUTF8? ⟨(t.drop 1).toArray⟩).isSome

/-- The tags of the language for types of scalars. -/
def boolTag : TagText := TagText.ofText "tag:yaml.org,2002:bool"
def intTag : TagText := TagText.ofText "tag:yaml.org,2002:int"
def floatTag : TagText := TagText.ofText "tag:yaml.org,2002:float"
def nullTag : TagText := TagText.ofText "tag:yaml.org,2002:null"

def scalarValue? (tag : Option TagText) (plain : Bool) (text : String) : Option Value :=
  match tag with
  | none => if plain then plainValue? text else some (.string text)
  | some t =>
    if t.isForeign then none
    else if t = boolTag then (boolWord? text).map .bool
    else if t = intTag then (integer? text.toList).bind integerValue?
    else if t = floatTag then floatValue? text.toList
    else if t = nullTag then (if isNullWord text then some .null else none)
    else if t.isLocal && plain then plainValue? text
    else some (.string text)

end DataBound.Yaml
