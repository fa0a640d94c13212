-- SUMMARY: The shortest decimal that reads back as a given binary64 number, and its written forms.
import DataBound.Number.Decimal

/-! # Shortest decimals

`Binary64.shortest` finds the decimal with the fewest digits that rounds back to a number. For 1, 2, …
digits it looks at the two points of the decimal grid around the value; the first grid with a point
that reads back wins, and of two such points the nearer one. `FloatStyle` holds what differs between
the two places that write floats: JSON text and path text. -/

namespace DataBound

/-- Where a value half-way between two grid points goes. -/
inductive Tie where
  | up
  | even
  deriving DecidableEq

namespace Binary64

/-- Ten to the power -343 is below every positive number, so `10 ^ 343` makes each of them large. -/
def lift : Nat := 343

/-- The exponent of the leading decimal digit of a number that is not zero. -/
def leadingExponent (x : Binary64) : Int :=
  let scaled := x.units * Nat.pow 10 lift / unitsPerOne
  (Nat.toDigits 10 scaled).length - 1 - lift

/-- Does the decimal round to this number? -/
def readsBack (x : Binary64) (d : Decimal) : Bool := d.toBinary64? x.negative == some x

/-- The point of the grid of `10 ^ k` that reads back and is nearest to the number, if there is one. -/
def gridPoint? (tie : Tie) (x : Binary64) (k : Int) : Option Decimal :=
  let (num, den) : Nat × Nat :=
    match k with
    | .ofNat k => (x.units, unitsPerOne * Nat.pow 10 k)
    | .negSucc k => (x.units * Nat.pow 10 (k + 1), unitsPerOne)
  let lower : Decimal := ⟨num / den, k⟩
  let upper : Decimal := ⟨num / den + 1, k⟩
  let twice := 2 * (num % den)
  let preferUpper := den < twice ∨ (twice = den ∧ (tie = .up ∨ lower.coefficient % 2 = 1))
  match x.readsBack lower, x.readsBack upper with
  | true, true => some (if preferUpper then upper else lower)
  | true, false => some lower
  | false, true => some upper
  | false, false => none

/-- The first hit on the grids of `digits`, `digits + 1`, … digits, `tries` grids in all. -/
def searchGrids (tie : Tie) (x : Binary64) (leading : Int) : (tries digits : Nat) → Option Decimal
  | 0, _ => none
  | tries + 1, digits =>
    match gridPoint? tie x (leading - digits + 1) with
    | some d => some d
    | none => searchGrids tie x leading tries (digits + 1)

/-- The decimal with the fewest digits that reads back as the number; 17 digits always suffice. -/
def shortest (tie : Tie) (x : Binary64) : Decimal :=
  if x.isZero then ⟨0, 0⟩
  else (searchGrids tie x x.leadingExponent 17 1).getD ⟨x.units, 0⟩

end Binary64

/-- How a float is written: the exponents of the leading digit between which the notation is
    positional, whether an integral value keeps `.0`, and where a half-way value goes. -/
structure FloatStyle where
  positional : Int → Bool
  keepsFraction : Bool
  tie : Tie

namespace FloatStyle

/-- JSON text is positional for leading exponents from -5 to 15, keeps `.0`, and goes to the even digit
    on a tie. -/
def json : FloatStyle := ⟨fun e => decide (-5 ≤ e ∧ e ≤ 15), true, .even⟩

/-- Path text is always positional and has no fraction for integral values. -/
def path : FloatStyle := ⟨fun _ => true, false, .up⟩

end FloatStyle

namespace Decimal

/-- The digits of the coefficient without trailing zeros, and the exponent of the leading digit. -/
def digitsAndLeading (d : Decimal) : List Char × Int :=
  let digits := Nat.toDigits 10 d.coefficient
  let bare := (digits.reverse.dropWhile (· == '0')).reverse
  (if bare = [] then ['0'] else bare, d.exponent + digits.length - 1)

/-- Digits with the decimal point at its place. -/
def positionalChars (keepsFraction : Bool) (digits : List Char) (leading : Int) : List Char :=
  match leading with
  | .negSucc k => ['0', '.'] ++ List.replicate k '0' ++ digits
  | .ofNat e =>
    if digits.length ≤ e + 1 then
      digits ++ List.replicate (e + 1 - digits.length) '0' ++ (if keepsFraction then ['.', '0'] else [])
    else digits.take (e + 1) ++ '.' :: digits.drop (e + 1)

/-- One digit, the others after a point, and the signed exponent. -/
def scientificChars (digits : List Char) (leading : Int) : List Char :=
  let exponent := (if leading < 0 then ['-'] else ['+']) ++ Nat.toDigits 10 leading.natAbs
  match digits with
  | [] => []
  | [d] => d :: 'e' :: exponent
  | d :: rest => d :: '.' :: rest ++ 'e' :: exponent

end Decimal

/-- The text of a float in a style. -/
def Binary64.chars (style : FloatStyle) (x : Binary64) : List Char :=
  let (digits, leading) := (x.shortest style.tie).digitsAndLeading
  let unsigned :=
    if style.positional leading then Decimal.positionalChars style.keepsFraction digits leading
    else Decimal.scientificChars digits leading
  if x.negative then '-' :: unsigned else unsigned

/-- The text of a float in a style. -/
def Binary64.text (style : FloatStyle) (x : Binary64) : String := String.ofList (x.chars style)

end DataBound
