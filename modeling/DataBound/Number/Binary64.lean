-- SUMMARY: Finite binary64 numbers by rank, rounding of quotients to the nearest one, product and quotient.

/-! # Binary64

The finite non-negative numbers of the binary64 format, listed in increasing order, are numbered
0, 1, 2, …; a number is a sign and such a rank. Every value is a whole number of *units* of 2⁻¹⁰⁷⁴,
so all arithmetic is exact arithmetic on natural numbers followed by one rounding, to the nearest
number and to the even rank on a tie. What rounds above the largest finite number has no result. -/

namespace DataBound

/-- A finite binary64 number: its sign, and the place of its absolute value among the non-negative
    finite numbers in increasing order. -/
structure Binary64 where
  negative : Bool
  rank : Nat
  rank_lt : rank < 0x7FF0_0000_0000_0000
  deriving DecidableEq

namespace Binary64

/-- How many units of 2⁻¹⁰⁷⁴ make one. -/
def unitsPerOne : Nat := Nat.pow 2 1074

/-- How many numbers a binade holds: 2⁵². -/
def perBinade : Nat := 0x10_0000_0000_0000

/-- How often the significand is doubled: 0 up to the second binade, one more in each later one. -/
def doublings (x : Binary64) : Nat := x.rank / perBinade - 1

/-- The significand, a natural number below 2⁵³. -/
def significand (x : Binary64) : Nat := x.rank - perBinade * x.doublings

/-- The absolute value in units of 2⁻¹⁰⁷⁴. -/
def units (x : Binary64) : Nat := x.significand * Nat.pow 2 x.doublings

/-- The quotient `num / den` rounded to the nearest natural number, a half to the even one. -/
def nearest (num den : Nat) : Nat :=
  let floor := num / den
  let twice := 2 * (num % den)
  if twice < den then floor
  else if den < twice then floor + 1
  else floor + floor % 2

/-- The rank of the number nearest to `num / den` units. The quotient is halved until its whole part
    has 53 bits; ranks grow by 2⁵² with each halving. -/
def nearestRank (num den : Nat) : Nat :=
  let halvings := Nat.log2 (num / den) - 52
  halvings * perBinade + nearest num (den * Nat.pow 2 halvings)

/-- The number nearest to `num / den`, unless that is beyond the largest finite one. -/
def ofQuotient? (negative : Bool) (num den : Nat) : Option Binary64 :=
  let rank := nearestRank (num * unitsPerOne) den
  if h : rank < 0x7FF0_0000_0000_0000 then some ⟨negative, rank, h⟩ else none

def zero (negative : Bool) : Binary64 := ⟨negative, 0, by decide⟩

def ofInt? (i : Int) : Option Binary64 := ofQuotient? (decide (i < 0)) i.natAbs 1

def mul? (x y : Binary64) : Option Binary64 :=
  ofQuotient? (x.negative != y.negative) (x.units * y.units) (unitsPerOne * unitsPerOne)

/-- The quotient by a number that is not zero, rounded. -/
def div? (x y : Binary64) : Option Binary64 :=
  ofQuotient? (x.negative != y.negative) x.units y.units

def isZero (x : Binary64) : Bool := x.rank == 0

/-- Do the two stand for the same real number? The two zeros do. -/
def sameValue (x y : Binary64) : Bool := (x.isZero && y.isZero) || x == y

/-- The integer that the number is, if it is one. -/
def toInt? (x : Binary64) : Option Int :=
  if x.units % unitsPerOne = 0 then
    let n := x.units / unitsPerOne
    some (if x.negative then -(n : Int) else n)
  else none

theorem sameValue_refl (x : Binary64) : sameValue x x = true := by simp [sameValue]

theorem sameValue_comm (x y : Binary64) : sameValue x y = sameValue y x := by
  simp only [sameValue, Bool.and_comm x.isZero, Bool.beq_comm (a := x)]

example : (ofInt? 1).map rank = some 0x3FF0000000000000 := by decide +kernel
example : (ofQuotient? false 1 3).map rank = some 0x3FD5555555555555 := by decide +kernel

end Binary64

end DataBound
