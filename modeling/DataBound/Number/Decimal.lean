-- SUMMARY: Decimals (digits times a power of ten): exact and stepwise conversion to binary64.
import DataBound.Number.Binary64

/-! # Decimals

A decimal is a natural number times a power of ten. `toBinary64?` rounds it once, to the nearest
binary64 number. `toBinary64Stepwise?` is the cheaper conversion of JSON numbers: the coefficient and the
power of ten are rounded separately and then multiplied or divided, which rounds again. -/

namespace DataBound

/-- The non-negative number `coefficient * 10 ^ exponent`. -/
structure Decimal where
  coefficient : Nat
  exponent : Int
  deriving DecidableEq

namespace Decimal

/-- Numerator and denominator of the value. -/
def quotient (d : Decimal) : Nat × Nat :=
  match d.exponent with
  | .ofNat k => (d.coefficient * Nat.pow 10 k, 1)
  | .negSucc k => (d.coefficient, Nat.pow 10 (k + 1))

/-- Powers of ten beyond which every coefficient of `digits` digits rounds to zero or overflows. -/
def exponentLimit : Nat := 400

/-- The nearest binary64 number, rounded once; none when the value is too large. Far from the range of
    the format the answer is known without computing the power. -/
def toBinary64? (negative : Bool) (d : Decimal) : Option Binary64 :=
  let digits := (Nat.toDigits 10 d.coefficient).length
  if d.coefficient = 0 then some (.zero negative)
  else if (exponentLimit : Int) < d.exponent then none
  else if d.exponent + digits < -(exponentLimit : Int) then some (.zero negative)
  else
    let (num, den) := d.quotient
    Binary64.ofQuotient? negative num den

/-- The greatest power of ten that is used as one factor. -/
def factorLimit : Nat := 308

def powerOfTen? (k : Nat) : Option Binary64 := Binary64.ofQuotient? false (Nat.pow 10 k) 1

/-- Division by `10 ^ k` in steps of at most `10 ^ 308`. -/
def divPowerOfTen? (x : Binary64) (k : Nat) : Option Binary64 :=
  if k ≤ factorLimit then (powerOfTen? k).bind x.div?
  else if x.isZero then some x
  else do
    let factor ← powerOfTen? factorLimit
    let y ← x.div? factor
    divPowerOfTen? y (k - factorLimit)
termination_by k
decreasing_by simp only [factorLimit] at *; omega

/-- The binary64 number reached from the rounded coefficient by multiplying or dividing by powers of
    ten; none when it leaves the range. -/
def toBinary64Stepwise? (negative : Bool) (d : Decimal) : Option Binary64 := do
  let start ← Binary64.ofQuotient? negative d.coefficient 1
  match d.exponent with
  | .ofNat k =>
    if k ≤ factorLimit then (powerOfTen? k).bind start.mul?
    else if start.isZero then some start
    else none
  | .negSucc k => divPowerOfTen? start (k + 1)

end Decimal

end DataBound
