-- SUMMARY: Plain and quoted scalars of YAML texts, whose lines are folded into one.
import DataBound.Yaml.Text
import DataBound.Text.Digits

/-! # Folded scalars

Plain scalars and scalars in quotes may run over several lines, which are folded: one line break between two words
stands for a space, and of several line breaks the first is dropped. `Gap` is what stands between two words, and
`Gap.text` what it stands for. -/

namespace DataBound.Yaml

/-! ## Gaps -/

/-- What stands between two words: blanks in one line, or line breaks, the first of which may be escaped. Blanks
    around line breaks do not count. -/
inductive Gap where
  | blanks (cs : List Char)
  | breaks (first : Option Char) (more : List Char)

namespace Gap

def none : Gap := .blanks []

def isNone : Gap → Bool
  | .blanks [] => true
  | _ => false

def isBroken : Gap → Bool
  | .blanks _ => false
  | .breaks _ _ => true

def addBlank (c : Char) : Gap → Gap
  | .blanks cs => .blanks (cs ++ [c])
  | gap => gap

def addBreak (c : Char) : Gap → Gap
  | .blanks _ => .breaks (some c) []
  | .breaks first more => .breaks first (more ++ [c])

/-- What the gap stands for. The separators of Unicode are never folded. -/
def text : Gap → List Char
  | .blanks cs => cs
  | .breaks .none more => more
  | .breaks (some c) more =>
    if c = '\n' then (if more = [] then [' '] else more) else c :: more

end Gap

example : (Gap.none.addBreak '\n').text = [' '] := rfl
example : ((Gap.none.addBreak '\n').addBreak '\n').text = ['\n'] := rfl

/-! ## Plain scalars -/

/-- Can a plain scalar start like this? The marks of other constructs cannot, unless they stand where they mean
    nothing else. -/
def canStartPlain (inFlow : Bool) : List Char → Bool
  | [] => false
  | '-' :: rest => !startsWithAny [' ', '\t'] rest
  | c :: rest =>
    if c = '?' ∨ c = ':' then !inFlow && !separates rest
    else
      !separates [c] &&
        !([',', '[', ']', '{', '}', '#', '&', '*', '!', '|', '>', '\'', '"', '%', '@', '`'].contains c)

/-- Is a colon followed by a mark of flow collections, as none may be inside one? -/
def isBadColon : List Char → Bool
  | ':' :: rest => startsWithAny [',', '?', '[', ']', '{', '}'] rest
  | _ => false

/-- Does a plain scalar end here, in the middle of a line? -/
def endsPlain (inFlow : Bool) : List Char → Bool
  | ':' :: rest => separates rest
  | c :: _ => inFlow && [',', '[', ']', '{', '}'].contains c
  | [] => true

/-- Does a plain scalar end before the first word after a gap? Outside of flow collections it ends where a line
    is not indented far enough. -/
def endsPlainAfterGap (inFlow : Bool) (least column : Nat) (cs : List Char) : Bool :=
  (!inFlow && column < least) || (column == 0 && isDocumentMark cs) || startsWithAny ['#'] cs

/-- The text of a plain scalar from a place on, the gap before the place where it ends, and that place. Lines
    after the first are indented by `least` at least, with spaces. -/
def plain? (inFlow : Bool) (least : Nat) :
    Gap → Position → List Char → Option (List Char × Gap × Place)
  | gap, pos, [] => some ([], gap, ⟨[], pos⟩)
  | gap, pos, c :: rest =>
    if isBreak c then plain? inFlow least (gap.addBreak c) pos.nextLine rest
    else if isSpace c then
      if c = '\t' ∧ gap.isBroken ∧ pos.column < least then none
      else plain? inFlow least (gap.addBlank c) (pos.past c) rest
    else if !gap.isNone && endsPlainAfterGap inFlow least pos.column (c :: rest) then
      some ([], gap, ⟨c :: rest, pos⟩)
    else if inFlow && isBadColon (c :: rest) then none
    else if endsPlain inFlow (c :: rest) then some ([], gap, ⟨c :: rest, pos⟩)
    else
      (plain? inFlow least .none (pos.past c) rest).map fun (text, after) => (gap.text ++ c :: text, after)

/-! ## Quoted scalars -/

/-- The text up to a closing single quote; a doubled quote stands for one. -/
def singleQuoted? : Gap → Position → List Char → Option (List Char × Place)
  | _, _, [] => none
  | gap, pos, c :: rest =>
    if isBreak c then singleQuoted? (gap.addBreak c) pos.nextLine rest
    else if isSpace c then singleQuoted? (gap.addBlank c) (pos.past c) rest
    else if pos.column = 0 ∧ isDocumentMark (c :: rest) then none
    else if c = '\'' then
      match rest with
      | '\'' :: rest =>
        (singleQuoted? .none (pos.pastAll ['\'', '\'']) rest).map fun (text, p) => (gap.text ++ '\'' :: text, p)
      | rest => some (gap.text, ⟨rest, pos.past c⟩)
    else (singleQuoted? .none (pos.past c) rest).map fun (text, p) => (gap.text ++ c :: text, p)

/-- The character after a backslash and what follows its escape. -/
def escape? : List Char → Option (Char × List Char)
  | [] => none
  | c :: rest =>
    match c with
    | '0' => some (Char.ofNat 0x00, rest)
    | 'a' => some (Char.ofNat 0x07, rest)
    | 'b' => some (Char.ofNat 0x08, rest)
    | 't' => some ('\t', rest)
    | '\t' => some ('\t', rest)
    | 'n' => some ('\n', rest)
    | 'v' => some (Char.ofNat 0x0B, rest)
    | 'f' => some (Char.ofNat 0x0C, rest)
    | 'r' => some ('\r', rest)
    | 'e' => some (Char.ofNat 0x1B, rest)
    | ' ' => some (' ', rest)
    | '"' => some ('"', rest)
    | '/' => some ('/', rest)
    | '\\' => some ('\\', rest)
    | 'N' => some (Char.ofNat 0x85, rest)
    | '_' => some (Char.ofNat 0xA0, rest)
    | 'L' => some (Char.ofNat 0x2028, rest)
    | 'P' => some (Char.ofNat 0x2029, rest)
    | 'x' => Text.hexChar? 2 rest
    | 'u' => Text.hexChar? 4 rest
    | 'U' => Text.hexChar? 8 rest
    | _ => none

/-- The text up to a closing double quote, with a bound on the characters still to be read. A backslash at the
    end of a line takes the line break away. -/
def doubleQuoted? : Nat → Gap → Place → Option (List Char × Place)
  | 0, _, _ => none
  | steps + 1, gap, p =>
    match p.rest with
    | [] => none
    | c :: rest =>
      if isBreak c then doubleQuoted? steps (gap.addBreak c) ⟨rest, p.position.nextLine⟩
      else if isSpace c then doubleQuoted? steps (gap.addBlank c) (p.skip 1)
      else if p.column = 0 ∧ isDocumentMark p.rest then none
      else if c = '"' then some (gap.text, p.skip 1)
      else do
        let (shown, gap', next) ←
          if c ≠ '\\' then some ([c], Gap.none, p.skip 1)
          else
            match rest with
            | [] => none
            | b :: after =>
              if isBreak b then some ([], Gap.breaks .none [], ⟨after, p.position.nextLine⟩)
              else (escape? rest).map fun (e, after) => ([e], Gap.none, p.upTo after)
        let (text, after) ← doubleQuoted? steps gap' next
        pure (gap.text ++ shown ++ text, after)

/-- The text of a quoted scalar at a place, and the place after it. -/
def quoted? (p : Place) : Option (List Char × Place) :=
  match p.rest with
  | '\'' :: rest => singleQuoted? .none (p.position.past '\'') rest
  | '"' :: rest => doubleQuoted? (rest.length + 1) .none (p.skip 1)
  | _ => none

end DataBound.Yaml
