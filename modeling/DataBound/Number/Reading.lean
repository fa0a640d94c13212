-- SUMMARY: The number that a free-standing text spells.
import DataBound.Number.Decimal
import DataBound.Text.Blank

/-! # Numbers in text

The numeric reading of a text that stands for a number: blanks around it are ignored, the blank text is
zero, and otherwise it is a decimal with an optional sign of either kind, optional digits on both sides of
the point (one at least on one side) and an optional exponent. The value is rounded once. Texts of infinite
numbers and values beyond binary64 have no finite reading. -/

namespace DataBound.Text

def splitSign : List Char → Bool × List Char
  | '-' :: rest => (true, rest)
  | '+' :: rest => (false, rest)
  | cs => (false, cs)

/-- The exponent at the end of a decimal: nothing, or `e` or `E`, a sign and digits. -/
def exponent? : List Char → Option Int
  | [] => some 0
  | c :: rest =>
    if c = 'e' ∨ c = 'E' then
      let (negative, digits) := splitSign rest
      if digits ≠ [] ∧ digits.all Char.isDigit then
        let n := Nat.ofDigitChars 10 digits 0
        some (if negative then -(n : Int) else n)
      else none
    else none

def decimal? (cs : List Char) : Option Decimal :=
  let whole := cs.takeWhile Char.isDigit
  let rest := cs.dropWhile Char.isDigit
  let (fraction, rest) :=
    match rest with
    | '.' :: rest => (rest.takeWhile Char.isDigit, rest.dropWhile Char.isDigit)
    | _ => ([], rest)
  if whole = [] ∧ fraction = [] then none
  else (exponent? rest).map fun e => ⟨Nat.ofDigitChars 10 (whole ++ fraction) 0, e - fraction.length⟩

/-- The finite number that a text spells; blank text is zero. -/
def number? (text : String) : Option Binary64 :=
  match trimChars text.toList with
  | [] => some (.zero false)
  | cs =>
    let (negative, unsigned) := splitSign cs
    (decimal? unsigned).bind fun d => d.toBinary64? negative

end DataBound.Text
