-- SUMMARY: Replacing every occurrence of one text inside another.

/-! # Occurrences

`replaceAll find value` replaces the occurrences of `find` from left to right; occurrences do not
overlap. The empty text occurs before every character and at the end. -/

namespace DataBound.Text

/-- The text with `skip` characters dropped first and every later occurrence of the non-empty `find`
    replaced. -/
def replaceFrom (find value : List Char) : Nat → List Char → List Char
  | _, [] => []
  | skip + 1, _ :: rest => replaceFrom find value skip rest
  | 0, c :: rest =>
    if find.isPrefixOf (c :: rest) then value ++ replaceFrom find value (find.length - 1) rest
    else c :: replaceFrom find value 0 rest

/-- The text with `value` written before every character and at the end. -/
def interleave (value : List Char) : List Char → List Char
  | [] => value
  | c :: rest => value ++ c :: interleave value rest

/-- The text with every non-overlapping occurrence of `find` replaced by `value`. -/
def replaceAll (find value cs : List Char) : List Char :=
  match find with
  | [] => interleave value cs
  | _ :: _ => replaceFrom find value 0 cs

example : replaceAll ['a', 'a'] ['b'] ['a', 'a', 'a'] = ['b', 'a'] := by decide
example : replaceAll [] ['-'] ['a', 'b'] = ['-', 'a', '-', 'b', '-'] := by decide

end DataBound.Text
