-- SUMMARY: JSON text of a value, compact and indented.
import DataBound.Value

/-! # Writing JSON

`Json.write` is the compact text, without blanks; `Json.writeIndented` puts every item and field on a
line of its own. Characters outside ASCII stand for themselves; control characters are escaped. -/

namespace DataBound.Json

/-! ## Leaves -/

def hexDigit (n : Nat) : Char := Nat.digitChar n

/-- A character inside quotes: quotes, backslashes and control characters are escaped. -/
def escape (c : Char) : List Char :=
  if c = '"' then ['\\', '"']
  else if c = '\\' then ['\\', '\\']
  else if c = '\n' then ['\\', 'n']
  else if c = '\r' then ['\\', 'r']
  else if c = '\t' then ['\\', 't']
  else if c = '\x08' then ['\\', 'b']
  else if c = '\x0c' then ['\\', 'f']
  else if c.toNat < 0x20 then ['\\', 'u', '0', '0', hexDigit (c.toNat / 16), hexDigit (c.toNat % 16)]
  else [c]

def quoted (s : String) : List Char := '"' :: s.toList.flatMap escape ++ ['"']

def numberChars : Number → List Char
  | .int i _ => (toString i).toList
  | .float x => x.chars .json

/-! ## Compact text -/

mutual

def chars : Value → List Char
  | .null => ['n', 'u', 'l', 'l']
  | .bool true => ['t', 'r', 'u', 'e']
  | .bool false => ['f', 'a', 'l', 's', 'e']
  | .number n => numberChars n
  | .string s => quoted s
  | .array items => '[' :: itemChars items ++ [']']
  | .object fields => '{' :: fieldChars fields ++ ['}']

def itemChars : List Value → List Char
  | [] => []
  | [v] => chars v
  | v :: rest => chars v ++ ',' :: itemChars rest

def fieldChars : List (String × Value) → List Char
  | [] => []
  | [(k, v)] => quoted k ++ ':' :: chars v
  | (k, v) :: rest => quoted k ++ ':' :: chars v ++ ',' :: fieldChars rest

end

def write (v : Value) : String := String.ofList (chars v)

/-! ## Indented text -/

/-- A line break and two blanks for each level. -/
def newLine (level : Nat) : List Char := '\n' :: List.replicate (2 * level) ' '

mutual

/-- The indented text of a value that starts at a level; empty containers stay on one line. -/
def indentedChars (level : Nat) : Value → List Char
  | .array [] => ['[', ']']
  | .array (v :: rest) =>
    '[' :: newLine (level + 1) ++ indentedChars (level + 1) v ++ indentedItems (level + 1) rest ++
      newLine level ++ [']']
  | .object [] => ['{', '}']
  | .object ((k, v) :: rest) =>
    '{' :: newLine (level + 1) ++ quoted k ++ [':', ' '] ++ indentedChars (level + 1) v ++
      indentedFields (level + 1) rest ++ newLine level ++ ['}']
  | v => chars v

/-- The items after the first, each after a comma and on its own line. -/
def indentedItems (level : Nat) : List Value → List Char
  | [] => []
  | v :: rest => ',' :: newLine level ++ indentedChars level v ++ indentedItems level rest

/-- The fields after the first, each after a comma and on its own line. -/
def indentedFields (level : Nat) : List (String × Value) → List Char
  | [] => []
  | (k, v) :: rest =>
    ',' :: newLine level ++ quoted k ++ [':', ' '] ++ indentedChars level v ++ indentedFields level rest

end

/-- The text of a value with each item and field on a line of its own. -/
def writeIndented (v : Value) : String := String.ofList (indentedChars 0 v)

end DataBound.Json
