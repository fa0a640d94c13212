-- SUMMARY: Reading TOML documents as values.
import DataBound.Toml.Number
import DataBound.Toml.Table
import DataBound.Toml.Text

/-! # TOML documents

A document is a list of lines: headers, which open tables, and keys with values. Arrays may run over several
lines, inline tables may not. What is read is a table, whose tables, arrays of tables and values are fields.

The readers of values take a bound on the steps still allowed, which `read?` sets above the length of the text, and
the depth to which arrays and inline tables may still nest. -/

namespace DataBound.Toml

/-! ## Values -/

/-- A value other than an array or an inline table. -/
def atom? (cs : List Char) : Option (Value × List Char) :=
  match cs with
  | 't' :: 'r' :: 'u' :: 'e' :: rest => some (.bool true, rest)
  | 'f' :: 'a' :: 'l' :: 's' :: 'e' :: rest => some (.bool false, rest)
  | c :: _ =>
    if c = '"' ∨ c = '\'' then (string? cs).map fun (text, rest) => (.string text, rest)
    else (moment? cs).or (number? cs)
  | [] => none

mutual

/-- A value at the start of the text. -/
def value? : Nat → (depth : Nat) → List Char → Option (Value × List Char)
  | 0, _, _ => none
  | steps + 1, depth, cs =>
    match cs, depth with
    | '[' :: _, 0 => none
    | '{' :: _, 0 => none
    | '[' :: rest, depth + 1 => (items? steps depth rest).map fun (items, rest) => (.array items, rest)
    | '{' :: rest, depth + 1 =>
      match skipSpace rest with
      | '}' :: rest => some (.object [], rest)
      | rest => (fields? steps depth [] rest).map fun (entries, rest) => (.object (fieldsOf entries), rest)
    | _, _ => atom? cs

/-- The items of an array and its closing bracket. -/
def items? : Nat → (depth : Nat) → List Char → Option (List Value × List Char)
  | 0, _, _ => none
  | steps + 1, depth, cs =>
    match skipLines false cs with
    | ']' :: rest => some ([], rest)
    | cs => do
      let (v, rest) ← value? steps depth cs
      match skipLines false rest with
      | ',' :: rest => do
        let (more, rest) ← items? steps depth rest
        pure (v :: more, rest)
      | ']' :: rest => pure ([v], rest)
      | _ => none

/-- The fields of an inline table, at least one, and its closing brace, after those read before. -/
def fields? : Nat → (depth : Nat) → Entries → List Char → Option (Entries × List Char)
  | 0, _, _, _ => none
  | steps + 1, depth, entries, cs => do
    match ← key? cs with
    | (key, '=' :: rest) =>
      let (v, rest) ← value? steps depth (skipSpace rest)
      let entries ← put v key true entries
      match skipSpace rest with
      | ',' :: rest => fields? steps depth entries rest
      | '}' :: rest => pure (entries, rest)
      | _ => none
    | _ => none

end

/-! ## Documents -/

/-- What was read so far, and the header of the table that is open. -/
structure Progress where
  entries : Entries
  header : List String

def Progress.start : Progress := ⟨[], []⟩

/-- A header of an array of tables, a header of a table, or a key with its value; and the text after its line. -/
def line? (progress : Progress) (cs : List Char) : Option (Progress × List Char) := do
  match cs with
  | '[' :: '[' :: rest =>
    match ← key? rest with
    | (header, ']' :: ']' :: rest) =>
      pure (⟨← changeAt extended header progress.entries, header⟩, ← pastLine? rest)
    | _ => none
  | '[' :: rest =>
    match ← key? rest with
    | (header, ']' :: rest) =>
      pure (⟨← changeAt opened header progress.entries, header⟩, ← pastLine? rest)
    | _ => none
  | cs =>
    match ← key? cs with
    | (key, '=' :: rest) =>
      let (v, rest) ← value? (2 * rest.length + 2) nestingLimit (skipSpace rest)
      pure ({ progress with entries := ← putIn v key progress.header progress.entries }, ← pastLine? rest)
    | _ => none

/-- What is read once the rest of the text is, with a bound on the lines still to be read. -/
def lines? : Nat → Progress → List Char → Option Progress
  | 0, _, _ => none
  | steps + 1, progress, cs =>
    match pastLine? cs, skipSpace cs with
    | _, [] => some progress
    | some rest, _ => lines? steps progress rest
    | none, cs => (line? progress cs).bind fun (progress, rest) => lines? steps progress rest

/-- The text without the mark in front that tells its encoding. -/
def withoutOrderMark : List Char → List Char
  | c :: rest => if c.toNat = 0xFEFF then rest else c :: rest
  | [] => []

def read? (text : String) : Option Value :=
  (lines? (text.length + 2) .start (withLineFeeds (withoutOrderMark text.toList))).map fun progress =>
    .object (fieldsOf progress.entries)

end DataBound.Toml
