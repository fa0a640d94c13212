-- SUMMARY: Reading JSON text strictly, with a limit on nesting.
import DataBound.Value
import DataBound.Text.Digits

/-! # Reading JSON

The strict grammar: no comments, no trailing commas, no unescaped control characters, and surrogates
only in pairs. Integers outside 64 bits and `-0` are floats; floats too large for binary64 are refused.
A reader takes the rest of the text and gives what it read with what is left. The readers of values
are bounded by a step count, which `read` sets above the length of the text. -/

namespace DataBound.Json

/-! ## Leaves -/

/-- The four blanks that JSON allows between tokens. -/
def isSpace (c : Char) : Bool := c == ' ' || c == '\n' || c == '\t' || c == '\r'

def skipSpace (cs : List Char) : List Char := cs.dropWhile isSpace

/-- Four hexadecimal digits at the start of the text. -/
def hexQuad? : List Char → Option (Nat × List Char)
  | a :: b :: c :: d :: rest => do
    let a ← Text.hexValue? a
    let b ← Text.hexValue? b
    let c ← Text.hexValue? c
    let d ← Text.hexValue? d
    pure (((a * 16 + b) * 16 + c) * 16 + d, rest)
  | _ => none

/-- The character after `\u`: four digits, or two groups of four for a pair of surrogates. -/
def unicodeEscape? (cs : List Char) : Option (Char × List Char) := do
  let (high, rest) ← hexQuad? cs
  if 0xD800 ≤ high ∧ high < 0xDC00 then
    match rest with
    | '\\' :: 'u' :: rest => do
      let (low, rest) ← hexQuad? rest
      if 0xDC00 ≤ low ∧ low < 0xE000 then
        pure (Char.ofNat (0x10000 + (high - 0xD800) * 0x400 + (low - 0xDC00)), rest)
      else none
    | _ => none
  else if 0xDC00 ≤ high ∧ high < 0xE000 then none
  else pure (Char.ofNat high, rest)

/-- One character of a string, which may be written as an escape. -/
def unit? : List Char → Option (Char × List Char)
  | '\\' :: '"' :: rest => some ('"', rest)
  | '\\' :: '\\' :: rest => some ('\\', rest)
  | '\\' :: '/' :: rest => some ('/', rest)
  | '\\' :: 'b' :: rest => some ('\x08', rest)
  | '\\' :: 'f' :: rest => some ('\x0c', rest)
  | '\\' :: 'n' :: rest => some ('\n', rest)
  | '\\' :: 'r' :: rest => some ('\r', rest)
  | '\\' :: 't' :: rest => some ('\t', rest)
  | '\\' :: 'u' :: rest => unicodeEscape? rest
  | '\\' :: _ => none
  | c :: rest => if c.toNat < 0x20 then none else some (c, rest)
  | [] => none

/-- The characters up to the closing quote. -/
def stringRest? : Nat → List Char → Option (List Char × List Char)
  | 0, _ => none
  | _ + 1, '"' :: rest => some ([], rest)
  | steps + 1, cs => do
    let (c, rest) ← unit? cs
    let (text, rest) ← stringRest? steps rest
    pure (c :: text, rest)

/-! ## Numbers -/

/-- The coefficient of a float is kept below this bound; the digits after it only shift the exponent. -/
def coefficientLimit : Nat := 0x1_0000_0000_0000_0000

/-- The exponent of a float is read up to this bound. -/
def exponentLimit : Nat := 0x8000_0000

/-- The coefficient that the digits spell, and how many digits did not fit into it. From the first digit
    on that would carry it to the limit, digits are only counted. -/
def wholeCoefficient (cs : List Char) : Nat × Nat :=
  cs.foldl
    (fun (coefficient, dropped) c =>
      let next := 10 * coefficient + (c.toNat - '0'.toNat)
      if dropped = 0 ∧ next < coefficientLimit then (next, 0) else (coefficient, dropped + 1))
    (0, 0)

/-- The coefficient extended by the digits of a fraction, and how many of them were used. -/
def fractionCoefficient : Nat → List Char → Nat × Nat
  | coefficient, [] => (coefficient, 0)
  | coefficient, c :: rest =>
    let next := 10 * coefficient + (c.toNat - '0'.toNat)
    if next < coefficientLimit then
      let (result, used) := fractionCoefficient next rest
      (result, used + 1)
    else (coefficient, 0)

/-- A fraction at the start of the text: the digits after a point; at least one. -/
def fraction? : List Char → Option (Option (List Char) × List Char)
  | '.' :: rest =>
    let digits := rest.takeWhile Char.isDigit
    if digits = [] then none else some (some digits, rest.dropWhile Char.isDigit)
  | cs => some (none, cs)

/-- The sign and the digits of an exponent. -/
def exponentDigits? (cs : List Char) : Option (Bool × Nat × List Char) :=
  let (negative, rest) :=
    match cs with
    | '+' :: rest => (false, rest)
    | '-' :: rest => (true, rest)
    | _ => (false, cs)
  let digits := rest.takeWhile Char.isDigit
  if digits = [] then none
  else some (negative, Nat.ofDigitChars 10 digits 0, rest.dropWhile Char.isDigit)

/-- An exponent at the start of the text: `e` or `E`, a sign, and at least one digit. -/
def exponent? : List Char → Option (Option (Bool × Nat) × List Char)
  | c :: rest =>
    if c = 'e' ∨ c = 'E' then
      (exponentDigits? rest).map fun (negative, n, rest) => (some (negative, n), rest)
    else some (none, c :: rest)
  | [] => some (none, [])

/-- The float with a sign, digits before and after the point, and an exponent. An exponent beyond the
    limit decides the value alone: zero, or no number at all. -/
def floatValue? (negative : Bool) (whole fraction : List Char) (exponent : Option (Bool × Nat)) :
    Option Number :=
  let (start, dropped) := wholeCoefficient whole
  let (coefficient, used) := fractionCoefficient start fraction
  let shift : Int := dropped - used
  let number (e : Int) : Option Number :=
    (Decimal.toBinary64Stepwise? negative ⟨coefficient, e⟩).map .float
  match exponent with
  | none => number shift
  | some (down, n) =>
    if n < exponentLimit then number (if down then shift - n else shift + n)
    else if down ∨ coefficient = 0 then some (.float (.zero negative))
    else none

/-- The number of an integer text: an integer within 64 bits, and else a float; `-0` is a float. -/
def integerValue? (negative : Bool) (digits : List Char) : Option Number :=
  let i : Int := if negative then -Nat.ofDigitChars 10 digits 0 else Nat.ofDigitChars 10 digits 0
  if h : -0x8000_0000_0000_0000 ≤ i ∧ i < 0x1_0000_0000_0000_0000 ∧ ¬(negative = true ∧ i = 0) then
    some (.int i ⟨h.1, h.2.1⟩)
  else floatValue? negative digits [] none

/-- A number without its sign. -/
def unsigned? (negative : Bool) (cs : List Char) : Option (Number × List Char) := do
  let whole := cs.takeWhile Char.isDigit
  let rest := cs.dropWhile Char.isDigit
  if whole = [] ∨ (whole.head? = some '0' ∧ whole ≠ ['0']) then none
  else
    let (fraction, rest) ← fraction? rest
    let (exponent, rest) ← exponent? rest
    let number ←
      if fraction = none ∧ exponent = none then integerValue? negative whole
      else floatValue? negative whole (fraction.getD []) exponent
    pure (number, rest)

/-- A number at the start of the text. -/
def number? : List Char → Option (Number × List Char)
  | '-' :: rest => unsigned? true rest
  | cs => unsigned? false cs

/-! ## Values -/

mutual

/-- A value, which may nest `depth` deep. -/
def value? : (steps depth : Nat) → List Char → Option (Value × List Char)
  | 0, _, _ => none
  | steps + 1, depth, cs =>
    match skipSpace cs with
    | 'n' :: 'u' :: 'l' :: 'l' :: rest => some (.null, rest)
    | 't' :: 'r' :: 'u' :: 'e' :: rest => some (.bool true, rest)
    | 'f' :: 'a' :: 'l' :: 's' :: 'e' :: rest => some (.bool false, rest)
    | '"' :: rest => (stringRest? (rest.length + 1) rest).map fun (s, rest) => (.string (.ofList s), rest)
    | '[' :: rest =>
      match depth with
      | 0 => none
      | depth + 1 =>
        match skipSpace rest with
        | ']' :: rest => some (.array [], rest)
        | rest => (items? steps depth rest).map fun (items, rest) => (.array items, rest)
    | '{' :: rest =>
      match depth with
      | 0 => none
      | depth + 1 =>
        match skipSpace rest with
        | '}' :: rest => some (.object [], rest)
        | rest => (fields? steps depth rest).map fun (fields, rest) => (.object (Fields.ofPairs fields), rest)
    | rest => (number? rest).map fun (n, rest) => (.number n, rest)

/-- The items of an array, at least one, and the closing bracket. -/
def items? : (steps depth : Nat) → List Char → Option (List Value × List Char)
  | 0, _, _ => none
  | steps + 1, depth, cs => do
    let (v, rest) ← value? steps depth cs
    match skipSpace rest with
    | ',' :: rest => do
      let (more, rest) ← items? steps depth rest
      pure (v :: more, rest)
    | ']' :: rest => pure ([v], rest)
    | _ => none

/-- The fields of an object, at least one, and the closing brace. -/
def fields? : (steps depth : Nat) → List Char → Option (List (String × Value) × List Char)
  | 0, _, _ => none
  | steps + 1, depth, cs =>
    match skipSpace cs with
    | '"' :: rest => do
      let (key, rest) ← stringRest? (rest.length + 1) rest
      match skipSpace rest with
      | ':' :: rest => do
        let (v, rest) ← value? steps depth rest
        match skipSpace rest with
        | ',' :: rest => do
          let (more, rest) ← fields? steps depth rest
          pure ((String.ofList key, v) :: more, rest)
        | '}' :: rest => pure ([(String.ofList key, v)], rest)
        | _ => none
      | _ => none
    | _ => none

end

/-- How deep arrays and objects may nest. -/
def nestingLimit : Nat := 127

/-- The value of a whole text that nests at most `depth` deep. -/
def readNested? (depth : Nat) (cs : List Char) : Option Value :=
  match value? (2 * cs.length + 2) depth cs with
  | some (v, rest) => if skipSpace rest = [] then some v else none
  | none => none

/-- The value that a JSON text stands for. -/
def read? (text : String) : Option Value := readNested? nestingLimit text.toList

end DataBound.Json
