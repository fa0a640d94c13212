-- SUMMARY: The characters of YAML texts, line breaks and separators, and places in a text.

/-! # YAML texts

A text holds tabs, line breaks and printable characters. A line ends at a line feed, which every other way of
ending a line in one or two characters is first turned into, or at one of the separators of Unicode, which stay
what they are. A `Place` is where reading has come to: what is left of the text, and the `Position` of that, since
what a line means depends on its column. -/

namespace DataBound.Yaml

/-! ## Characters -/

def isAdmitted (c : Char) : Bool :=
  let n := c.toNat
  n == 0x09 || n == 0x0A || n == 0x0D || n == 0x85 || (0x20 ≤ n && n ≤ 0x7E) || (0xA0 ≤ n && n ≤ 0xFFFD) ||
    0x10000 ≤ n

def isBreak (c : Char) : Bool := c == '\n' || c.toNat == 0x2028 || c.toNat == 0x2029

/-- Is the character a space or a tab? -/
def isSpace (c : Char) : Bool := c == ' ' || c == '\t'

/-- A character of names: ASCII letters, digits, underscores and dashes. -/
def isNameChar (c : Char) : Bool := c.isAlphanum || c == '_' || c == '-'

/-- The mark that may stand in front of a text to tell its encoding. -/
def isOrderMark (c : Char) : Bool := c.toNat == 0xFEFF

/-- Is what comes next no part of a word: a blank, the end of the line, or the end of the text? -/
def separates : List Char → Bool
  | [] => true
  | c :: _ => isSpace c || isBreak c

def startsWithAny (marks : List Char) : List Char → Bool
  | [] => false
  | c :: _ => marks.contains c

/-- Is there a mark between documents, three dashes or three dots that stand alone? -/
def isDocumentMark : List Char → Bool
  | '-' :: '-' :: '-' :: rest => separates rest
  | '.' :: '.' :: '.' :: rest => separates rest
  | _ => false

/-- The text with line feeds for returns, with or without a line feed behind, and for next-line characters. -/
def withLineFeeds : List Char → List Char
  | [] => []
  | '\r' :: '\n' :: rest => '\n' :: withLineFeeds rest
  | c :: rest => (if c = '\r' ∨ c.toNat = 0x85 then '\n' else c) :: withLineFeeds rest

/-! ## Places -/

/-- A position: how many lines stand before it, and how many characters of its line, which take `width` bytes in
    UTF-8. -/
structure Position where
  line : Nat
  column : Nat
  width : Nat
  deriving DecidableEq

namespace Position

def start : Position := ⟨0, 0, 0⟩

/-- The position behind a character in the line. -/
def past (pos : Position) (c : Char) : Position := ⟨pos.line, pos.column + 1, pos.width + c.utf8Size⟩

/-- The position behind some characters in the line. -/
def pastAll (pos : Position) (cs : List Char) : Position := cs.foldl past pos

def nextLine (pos : Position) : Position := ⟨pos.line + 1, 0, 0⟩

end Position

/-- A place in a text: what is still to be read, and the position of that. -/
structure Place where
  rest : List Char
  position : Position

namespace Place

def start (cs : List Char) : Place := ⟨cs, .start⟩

/-- The number of characters of the line before the place. -/
def column (p : Place) : Nat := p.position.column

/-- The place some characters further in the line. -/
def skip (p : Place) (count : Nat) : Place := ⟨p.rest.drop count, p.position.pastAll (p.rest.take count)⟩

/-- The place further in the line where this is the rest of the text. -/
def upTo (p : Place) (rest : List Char) : Place := p.skip (p.rest.length - rest.length)

/-- The place after the end of the line, if nothing but blanks and a comment stand before it. -/
def pastLine? (p : Place) : Option Place :=
  let rest := match p.rest.dropWhile isSpace with
    | '#' :: rest => rest.dropWhile (!isBreak ·)
    | rest => rest
  match rest with
  | [] => some (p.upTo [])
  | c :: rest => if isBreak c then some ⟨rest, p.position.nextLine⟩ else none

end Place

example : (Position.start.pastAll ['a', 'é']) = ⟨0, 2, 3⟩ := by decide
example : withLineFeeds ['a', '\r', '\n', '\r', 'b'] = ['a', '\n', '\n', 'b'] := by decide

end DataBound.Yaml
