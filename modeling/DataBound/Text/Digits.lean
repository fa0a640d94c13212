-- SUMMARY: Digits: the numbers that plain and signed digit texts spell, in base ten and others.

/-! # Digit texts

`digits?` reads a non-empty run of ASCII digits, `signed?` allows one leading minus sign. Leading
zeros are allowed; a plus sign, blanks and separators are not. `inBase?` reads digits of any base up to
sixteen, and `hexChar?` the character whose number is written in hexadecimal. -/

namespace DataBound.Text

/-- The number that a non-empty text of ASCII digits spells. -/
def digits? (cs : List Char) : Option Nat :=
  if cs ≠ [] ∧ cs.all Char.isDigit then some (Nat.ofDigitChars 10 cs 0) else none

/-- The integer that digits with an optional minus sign spell. -/
def signed? : List Char → Option Int
  | '-' :: cs => (digits? cs).map fun n => -(n : Int)
  | cs => (digits? cs).map fun n => (n : Int)

/-- The value of a hexadecimal digit of either case. -/
def hexValue? (c : Char) : Option Nat :=
  if c.isDigit then some (c.toNat - '0'.toNat)
  else if 'a' ≤ c ∧ c ≤ 'f' then some (c.toNat - 'a'.toNat + 10)
  else if 'A' ≤ c ∧ c ≤ 'F' then some (c.toNat - 'A'.toNat + 10)
  else none

/-- The value of a digit in a base up to sixteen. -/
def digitIn? (base : Nat) (c : Char) : Option Nat := (hexValue? c).filter (· < base)

/-- The number that a non-empty text of digits in a base spells. -/
def inBase? (base : Nat) (cs : List Char) : Option Nat :=
  if cs = [] then none else cs.foldlM (fun n c => (digitIn? base c).map (base * n + ·)) 0

/-- The character whose number is spelled by the next `count` characters in hexadecimal. -/
def hexChar? (count : Nat) (cs : List Char) : Option (Char × List Char) :=
  let digits := cs.take count
  if digits.length < count then none
  else (inBase? 16 digits).bind fun n => if n.isValidChar then some (Char.ofNat n, cs.drop count) else none

/-- Writing a number in decimal and reading the digits gives the number back. -/
theorem digits?_toDigits (n : Nat) : digits? (Nat.toDigits 10 n) = some n := by
  have hall : (Nat.toDigits 10 n).all Char.isDigit = true :=
    List.all_eq_true.2 fun c hc => Nat.isDigit_of_mem_toDigits (by decide) (by decide) hc
  simp [digits?, Nat.toDigits_ne_nil, hall, Nat.ofDigitChars_ten_toDigits]

end DataBound.Text
