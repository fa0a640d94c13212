-- SUMMARY: Integers, floats, dates and times of TOML texts.
import DataBound.Value
import DataBound.Number.Reading
import DataBound.Text.Digits

/-! # Numbers, dates and times

Integers have 64 bits with a sign and are written in base ten, or without a sign in base 16, 8 or 2. Floats that
are not finite are read as null, since no document can hold them. Dates and times are kept as they are written.

A reader takes the rest of the text and gives what it read with what is left. -/

namespace DataBound.Toml

/-! ## Integers and floats -/

/-- Some digits, at least one, and what follows them. An underscore stands only between two digits. -/
def digitRun? (isDigit : Char → Bool) : List Char → Option (List Char × List Char)
  | [] => none
  | c :: rest =>
    if !isDigit c then none
    else
      match rest with
      | '_' :: rest => (digitRun? isDigit rest).map fun (digits, rest) => (c :: digits, rest)
      | d :: rest =>
        if isDigit d then (digitRun? isDigit (d :: rest)).map fun (digits, rest) => (c :: digits, rest)
        else some ([c], d :: rest)
      | [] => some ([c], [])

/-- The digits before a point, which have no needless zero in front. -/
def wholeDigits? : List Char → Option (List Char × List Char)
  | '0' :: rest => some (['0'], rest)
  | cs => digitRun? Char.isDigit cs

/-- The fraction: a point and digits, or nothing. -/
def fraction? : List Char → Option (List Char × List Char)
  | '.' :: rest => (digitRun? Char.isDigit rest).map fun (digits, rest) => ('.' :: digits, rest)
  | cs => some ([], cs)

/-- The exponent: a letter, a sign if need be, and digits, or nothing. -/
def exponent? : List Char → Option (List Char × List Char)
  | [] => some ([], [])
  | c :: rest =>
    if c = 'e' ∨ c = 'E' then
      let (sign, rest) := match rest with
        | '+' :: rest => (['+'], rest)
        | '-' :: rest => (['-'], rest)
        | rest => ([], rest)
      (digitRun? Char.isDigit rest).map fun (digits, rest) => ('e' :: sign ++ digits, rest)
    else some ([], c :: rest)

/-- The value of an integer, which must be within 64 bits. -/
def integerValue? (i : Int) : Option Value :=
  if h : -0x8000_0000_0000_0000 ≤ i ∧ i < 0x8000_0000_0000_0000 then some (.number (.int i ⟨h.1, by omega⟩)) else none

/-- An integer in a base other than ten. -/
def integerInBase? (base : Nat) (cs : List Char) : Option (Value × List Char) := do
  let (digits, rest) ← digitRun? (fun c => (Text.digitIn? base c).isSome) cs
  let n ← Text.inBase? base digits
  pure (← integerValue? n, rest)

/-- The value of the digits of a float. Beyond the range of floats there is the negative infinity but not the
    positive one. -/
def floatValue? (negative : Bool) (digits : List Char) : Option Value := do
  let d ← Text.decimal? digits
  match d.toBinary64? negative with
  | some x => pure (.number (.float x))
  | none => if negative then pure .null else none

def decimalNumber? (cs : List Char) : Option (Value × List Char) := do
  let (negative, rest) := Text.splitSign cs
  let (whole, rest) ← wholeDigits? rest
  let (fraction, rest) ← fraction? rest
  let (exponent, rest) ← exponent? rest
  if fraction = [] ∧ exponent = [] then
    let n ← Text.digits? whole
    pure (← integerValue? (if negative then -(n : Int) else n), rest)
  else pure (← floatValue? negative (whole ++ fraction ++ exponent), rest)

/-- A word for a float that is not finite, after a sign if need be. -/
def nonFinite? (cs : List Char) : Option (Value × List Char) :=
  match (Text.splitSign cs).2 with
  | 'i' :: 'n' :: 'f' :: rest => some (.null, rest)
  | 'n' :: 'a' :: 'n' :: rest => some (.null, rest)
  | _ => none

def number? (cs : List Char) : Option (Value × List Char) :=
  match cs with
  | '0' :: 'x' :: rest => integerInBase? 16 rest
  | '0' :: 'o' :: rest => integerInBase? 8 rest
  | '0' :: 'b' :: rest => integerInBase? 2 rest
  | _ => (nonFinite? cs).or (decimalNumber? cs)

/-! ## Dates and times -/

/-- A number of exactly this many digits, and what follows. -/
def fixedDigits? (count : Nat) (cs : List Char) : Option (Nat × List Char) :=
  let digits := cs.take count
  if digits.length < count then none else (Text.digits? digits).map fun n => (n, cs.drop count)

/-- A number of two digits within bounds, and what follows. -/
def twoDigits? (least most : Nat) (cs : List Char) : Option (Nat × List Char) :=
  (fixedDigits? 2 cs).filter fun (n, _) => least ≤ n && n ≤ most

/-- The text after a character that has to stand here. -/
def past? (c : Char) : List Char → Option (List Char)
  | [] => none
  | d :: rest => if c = d then some rest else none

def daysIn (year month : Nat) : Nat :=
  if month = 2 then (if year % 4 = 0 ∧ (year % 100 ≠ 0 ∨ year % 400 = 0) then 29 else 28)
  else if [4, 6, 9, 11].contains month then 30
  else 31

def pastDate? (cs : List Char) : Option (List Char) := do
  let (year, rest) ← fixedDigits? 4 cs
  let (month, rest) ← twoDigits? 1 12 (← past? '-' rest)
  let (day, rest) ← twoDigits? 1 31 (← past? '-' rest)
  if day ≤ daysIn year month then pure rest else none

def pastMinutes? (cs : List Char) : Option (List Char) := do
  let (_, rest) ← twoDigits? 0 23 cs
  let (_, rest) ← twoDigits? 0 59 (← past? ':' rest)
  pure rest

/-- What follows a time; its seconds may have a fraction. -/
def pastTime? (cs : List Char) : Option (List Char) := do
  let rest ← past? ':' (← pastMinutes? cs)
  let (_, rest) ← twoDigits? 0 60 rest
  match rest with
  | '.' :: digits => if digits.takeWhile Char.isDigit = [] then pure rest else pure (digits.dropWhile Char.isDigit)
  | _ => pure rest

/-- What follows an offset from universal time, or the same text if there is none. A sign starts an offset. -/
def pastOffset? : List Char → Option (List Char)
  | [] => some []
  | c :: rest =>
    if c = 'Z' ∨ c = 'z' then some rest
    else if c = '+' ∨ c = '-' then pastMinutes? rest
    else some (c :: rest)

/-- What follows a date with a time, a date, or a time. -/
def pastMoment? (cs : List Char) : Option (List Char) :=
  match pastDate? cs with
  | some [] => some []
  | some (c :: rest) =>
    if c = 'T' ∨ c = 't' ∨ c = ' ' then
      match pastTime? rest with
      | some rest => pastOffset? rest
      | none => some (c :: rest)
    else some (c :: rest)
  | none => pastTime? cs

/-- A date or a time as it is written, alone under a name for it. -/
def moment? (cs : List Char) : Option (Value × List Char) :=
  (pastMoment? cs).map fun rest =>
    (.object [("moment", .string (String.ofList (cs.take (cs.length - rest.length))))], rest)

end DataBound.Toml
