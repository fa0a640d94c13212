-- SUMMARY: Anchors, tags and directives of YAML texts.
import DataBound.Yaml.Text
import DataBound.Text.Digits

/-! # Anchors, tags and directives

A tag is written in full between angle brackets or as a handle with the text behind it; directives at the start
of a document say what texts handles stand for. Tag texts hold escapes for single bytes, so they are kept as
bytes. A zero byte ends a tag text. -/

namespace DataBound.Yaml

/-- The text of a tag as bytes in UTF-8. -/
abbrev TagText := List UInt8

def TagText.ofText (text : String) : TagText := text.toUTF8.toList

/-- A tag as it is written. The handle of a tag that is written in full is empty. -/
structure Tag where
  handle : String
  suffix : TagText
  deriving DecidableEq

/-- A directive: the version of the language, or the text that a handle stands for. -/
inductive Directive where
  | version
  | handle (name : String) (text : TagText)
  deriving DecidableEq

/-! ## Anchors -/

/-- The name of an anchor, and the place after it. -/
def anchorName? (p : Place) : Option (String × Place) :=
  let name := p.rest.takeWhile isNameChar
  let after := p.skip name.length
  if name ≠ [] ∧ (separates after.rest ∨ startsWithAny ['?', ':', ',', ']', '}', '%', '@', '`'] after.rest) then
    some (String.ofList name, after)
  else none

/-! ## Tags -/

/-- A character of tag texts. Some characters are allowed only in `wide` texts, between angle brackets and in
    directives. -/
def isTagChar (wide : Bool) (c : Char) : Bool :=
  isNameChar c ||
    [';', '/', '?', ':', '@', '&', '=', '+', '$', '.', '!', '~', '*', '\'', '(', ')'].contains c ||
    wide && [',', '[', ']'].contains c

/-- How many bytes follow a byte that starts the UTF-8 form of a character. -/
def followers? (byte : Nat) : Option Nat :=
  if byte < 0x80 then some 0
  else if 0xC0 ≤ byte ∧ byte < 0xE0 then some 1
  else if 0xE0 ≤ byte ∧ byte < 0xF0 then some 2
  else if 0xF0 ≤ byte ∧ byte < 0xF8 then some 3
  else none

/-- How many bytes are still due after one more, which starts a character if none is due. -/
def dueAfter? (byte : Nat) : (due : Nat) → Option Nat
  | 0 => followers? byte
  | due + 1 => if 0x80 ≤ byte ∧ byte < 0xC0 then some due else none

/-- The bytes of a tag text and what follows it. While bytes of a character are due, only an escape can stand
    next. -/
def tagBytes? (wide : Bool) : (due : Nat) → List Char → Option (TagText × List Char)
  | due, '%' :: a :: b :: rest => do
    let byte := 16 * (← Text.hexValue? a) + (← Text.hexValue? b)
    let (bytes, rest) ← tagBytes? wide (← dueAfter? byte due) rest
    pure (UInt8.ofNat byte :: bytes, rest)
  | _ + 1, _ => none
  | 0, '%' :: _ => none
  | 0, c :: rest =>
    if isTagChar wide c then
      (tagBytes? wide 0 rest).map fun (bytes, rest) => (UInt8.ofNat c.toNat :: bytes, rest)
    else some ([], c :: rest)
  | 0, [] => some ([], [])

/-- The bytes before the first zero. -/
def untilZero (bytes : TagText) : TagText := bytes.takeWhile (· ≠ 0)

/-- A tag text that is not empty, and what follows it. -/
def tagText? (wide : Bool) (cs : List Char) : Option (TagText × List Char) :=
  match tagBytes? wide 0 cs with
  | some (byte :: bytes, rest) => some (untilZero (byte :: bytes), rest)
  | _ => none

/-- The tag after the exclamation mark that starts it, and what follows. A handle is a name between exclamation
    marks; without one, the mark alone is the handle, and a mark with nothing behind is a tag of its own. -/
def tagAfterMark? : List Char → Option (Tag × List Char)
  | '<' :: rest => do
    match ← tagText? true rest with
    | (text, '>' :: rest) => pure (⟨"", text⟩, rest)
    | _ => none
  | cs =>
    let name := String.ofList (cs.takeWhile isNameChar)
    match cs.dropWhile isNameChar with
    | '!' :: rest => (tagText? false rest).map fun (text, rest) => (⟨"!" ++ name ++ "!", text⟩, rest)
    | rest => do
      let (bytes, rest) ← tagBytes? false 0 rest
      match untilZero (TagText.ofText name ++ bytes) with
      | [] => pure (⟨"", TagText.ofText "!"⟩, rest)
      | text => pure (⟨"!", text⟩, rest)

/-- The tag at a place, which starts with an exclamation mark, and the place after it. -/
def tag? (inFlow : Bool) (p : Place) : Option (Tag × Place) := do
  let (tag, rest) ← tagAfterMark? (p.rest.drop 1)
  if separates rest ∨ (inFlow ∧ startsWithAny [','] rest) then pure (tag, p.upTo rest) else none

/-! ## Directives -/

/-- A number of at most nine digits, and what follows it. -/
def versionNumber? (cs : List Char) : Option (Nat × List Char) :=
  let digits := cs.takeWhile Char.isDigit
  if digits.length ≤ 9 then (Text.digits? digits).map fun n => (n, cs.drop digits.length) else none

/-- The version of the language, which is 1.1 or 1.2. -/
def versionDirective? (cs : List Char) : Option (Directive × List Char) := do
  match ← versionNumber? (cs.dropWhile isSpace) with
  | (1, '.' :: rest) =>
    let (minor, rest) ← versionNumber? rest
    if minor = 1 ∨ minor = 2 then pure (.version, rest) else none
  | _ => none

def handle? : List Char → Option (String × List Char)
  | '!' :: cs =>
    let name := String.ofList (cs.takeWhile isNameChar)
    match cs.dropWhile isNameChar with
    | '!' :: rest => some ("!" ++ name ++ "!", rest)
    | rest => if name.isEmpty then some ("!", rest) else none
  | _ => none

/-- A handle and the text that it stands for. -/
def handleDirective? (cs : List Char) : Option (Directive × List Char) := do
  let (name, rest) ← handle? (cs.dropWhile isSpace)
  if startsWithAny [' ', '\t'] rest then
    let (text, rest) ← tagText? true (rest.dropWhile isSpace)
    if separates rest then pure (.handle name text, rest) else none
  else none

/-- The directive at a place, which starts with a percent sign, and the place after its line. -/
def directive? (p : Place) : Option (Directive × Place) := do
  let cs := p.rest.drop 1
  let after := cs.dropWhile isNameChar
  let (directive, rest) ←
    if !separates after then none
    else
      match String.ofList (cs.takeWhile isNameChar) with
      | "YAML" => versionDirective? after
      | "TAG" => handleDirective? after
      | _ => none
  pure (directive, ← (p.upTo rest).pastLine?)

end DataBound.Yaml
