-- SUMMARY: The characters of TOML texts, comments, strings and keys.
import DataBound.Text.Digits

/-! # TOML texts

A text is read with a line feed for a return with a line feed behind it. Control characters other than tabs stand
nowhere but at the end of a line. Strings stand in double quotes, with escapes, or in single quotes, as they are;
in three quotes they may run over several lines. A key is a word or a string on one line, or several of these with
dots between them.

A reader takes the rest of the text and gives what it read with what is left. -/

namespace DataBound.Toml

/-! ## Characters -/

/-- The text with a line feed for each return with a line feed behind it. -/
def withLineFeeds : List Char → List Char
  | [] => []
  | '\r' :: '\n' :: rest => '\n' :: withLineFeeds rest
  | c :: rest => c :: withLineFeeds rest

def isInline (c : Char) : Bool := c == '\t' || (0x20 ≤ c.toNat && c.toNat ≠ 0x7F)

/-- Is the character a space or a tab? -/
def isSpace (c : Char) : Bool := c == ' ' || c == '\t'

def skipSpace (cs : List Char) : List Char := cs.dropWhile isSpace

/-- The text after a comment, if one starts here. -/
def skipComment : List Char → List Char
  | '#' :: rest => rest.dropWhile isInline
  | cs => cs

/-- The text after the end of a line, if nothing but blanks and a comment stand before it. -/
def pastLine? (cs : List Char) : Option (List Char) :=
  match skipComment (skipSpace cs) with
  | [] => some []
  | '\n' :: rest => some rest
  | _ => none

/-- The text after blanks, comments and ends of lines. -/
def skipLines : (inComment : Bool) → List Char → List Char
  | _, [] => []
  | inComment, c :: rest =>
    if c = '\n' then skipLines false rest
    else if (inComment && isInline c) || isSpace c then skipLines inComment rest
    else if !inComment && c == '#' then skipLines true rest
    else c :: rest

/-! ## Strings -/

/-- The character after a backslash and what follows its escape. -/
def escape? : List Char → Option (Char × List Char)
  | 'b' :: rest => some (Char.ofNat 0x08, rest)
  | 't' :: rest => some ('\t', rest)
  | 'n' :: rest => some ('\n', rest)
  | 'f' :: rest => some (Char.ofNat 0x0C, rest)
  | 'r' :: rest => some ('\r', rest)
  | '"' :: rest => some ('"', rest)
  | '\\' :: rest => some ('\\', rest)
  | 'u' :: rest => Text.hexChar? 4 rest
  | 'U' :: rest => Text.hexChar? 8 rest
  | _ => none

/-- The text after blanks and the end of the line, and all blanks and ends of lines behind it. -/
def pastBreak? (cs : List Char) : Option (List Char) :=
  match skipSpace cs with
  | '\n' :: rest => some (rest.dropWhile fun c => isSpace c || c == '\n')
  | _ => none

def quotes (quote : Char) (cs : List Char) : Nat := (cs.takeWhile (· == quote)).length

/-- The rest of a string, with a bound on the characters still to be read. One over several lines ends at three
    quotes, and up to two more in front of them belong to it; in double quotes, a backslash at the end of a line
    takes away the blanks up to the next word. -/
def stringRest? (quote : Char) (lines : Bool) : Nat → List Char → Option (List Char × List Char)
  | 0, _ => none
  | _, [] => none
  | steps + 1, c :: rest =>
    if c = quote then
      let count := quotes quote (c :: rest)
      if !lines then some ([], rest)
      else if count < 3 then
        (stringRest? quote lines steps ((c :: rest).drop count)).map fun (text, rest) =>
          (List.replicate count quote ++ text, rest)
      else
        let inside := min (count - 3) 2
        some (List.replicate inside quote, (c :: rest).drop (inside + 3))
    else if c = '\\' ∧ quote = '"' then
      match if lines then pastBreak? rest else none with
      | some rest => stringRest? quote lines steps rest
      | none => do
        let (e, rest) ← escape? rest
        let (text, rest) ← stringRest? quote lines steps rest
        pure (e :: text, rest)
    else if isInline c || (lines && c == '\n') then
      (stringRest? quote lines steps rest).map fun (text, rest) => (c :: text, rest)
    else none

def lineString? : List Char → Option (String × List Char)
  | c :: rest =>
    if c = '"' ∨ c = '\'' then
      (stringRest? c false (rest.length + 1) rest).map fun (text, rest) => (String.ofList text, rest)
    else none
  | [] => none

/-- A string on one line or several. A line break right behind three quotes does not count. -/
def string? (cs : List Char) : Option (String × List Char) :=
  match cs with
  | a :: b :: c :: rest =>
    if (a = '"' ∨ a = '\'') ∧ a = b ∧ b = c then
      let rest := match rest with
        | '\n' :: rest => rest
        | rest => rest
      (stringRest? a true (rest.length + 1) rest).map fun (text, rest) => (String.ofList text, rest)
    else lineString? cs
  | _ => lineString? cs

/-! ## Keys -/

/-- How many parts a key has, and how deep arrays and inline tables nest, at most. -/
def nestingLimit : Nat := 79

def isWordChar (c : Char) : Bool := c.isAlphanum || c == '_' || c == '-'

def keyPart? (cs : List Char) : Option (String × List Char) :=
  match cs.takeWhile isWordChar with
  | [] => lineString? cs
  | word => some (String.ofList word, cs.dropWhile isWordChar)

/-- The parts of a key, at most this many, and the text after it and blanks. -/
def keyParts? : Nat → List Char → Option (List String × List Char)
  | 0, _ => none
  | parts + 1, cs => do
    let (part, rest) ← keyPart? (skipSpace cs)
    match skipSpace rest with
    | '.' :: rest => do
      let (more, rest) ← keyParts? parts rest
      pure (part :: more, rest)
    | rest => pure ([part], rest)

/-- A key. Blanks around its parts do not count. -/
def key? (cs : List Char) : Option (List String × List Char) := keyParts? nestingLimit cs

end DataBound.Toml
