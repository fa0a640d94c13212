-- SUMMARY: Block scalars of YAML texts: literal and folded lines under an indentation.
import DataBound.Yaml.Text

/-! # Block scalars

The lines of a block scalar stand under its mark and are indented; the indentation is given with the mark or read
off the first line with text. Line breaks are kept, or folded between lines that do not start with blanks, and an
indicator says which line breaks at the end stay. -/

namespace DataBound.Yaml

/-! ## Indicators -/

/-- Which line breaks at the end stay: none, the one that ends the last line with text, or all. -/
inductive Ending where
  | strip
  | clip
  | keep
  deriving DecidableEq

/-- The indicator of an ending, if there is one. -/
def takeEnding : List Char → Option Ending × List Char
  | '+' :: rest => (some .keep, rest)
  | '-' :: rest => (some .strip, rest)
  | cs => (none, cs)

/-- The digit that gives the indentation, or zero. The digit zero is refused. -/
def takeIndent? : List Char → Option (Nat × List Char)
  | [] => some (0, [])
  | c :: rest =>
    if c = '0' then none else if c.isDigit then some (c.toNat - '0'.toNat, rest) else some (0, c :: rest)

/-- The indicators after the mark of a block scalar, in either order, and what follows them. -/
def indicators? (cs : List Char) : Option (Ending × Nat × List Char) := do
  let (before, rest) := takeEnding cs
  let (indent, rest) ← takeIndent? rest
  match before with
  | some ending => pure (ending, indent, rest)
  | none =>
    let (after, rest) := takeEnding rest
    pure (after.getD .clip, indent, rest)

/-! ## Lines -/

/-- The widest indentation in the blank lines at the start of the text and in the line after them. No tab may
    stand in an indentation. -/
def widestIndent? : (widest column : Nat) → List Char → Option Nat
  | widest, column, [] => some (max widest column)
  | widest, column, c :: rest =>
    if c = ' ' then widestIndent? widest (column + 1) rest
    else if c = '\t' then none
    else if isBreak c then widestIndent? (max widest column) 0 rest
    else some (max widest column)

/-- A line of a block scalar without its indentation: one with nothing else, or one with text, which may be the
    last line of the document. -/
inductive BlockLine where
  | blank (ending : Char)
  | text (cs : List Char) (ending : Option Char)

/-- The lines of a block scalar with this indentation and the place after them, with a bound on their number. -/
def blockLines? (indent : Nat) : Nat → Position → List Char → Option (List BlockLine × Place)
  | 0, _, _ => none
  | steps + 1, start, cs =>
    let spaces := min indent (cs.takeWhile (· == ' ')).length
    let pos := start.pastAll (cs.take spaces)
    match cs.drop spaces with
    | [] => some ([], ⟨[], pos⟩)
    | c :: rest =>
      if isBreak c then (blockLines? indent steps start.nextLine rest).map fun (lines, p) => (.blank c :: lines, p)
      else if spaces < indent then (if c = '\t' then none else some ([], ⟨c :: rest, pos⟩))
      else
        let text := (c :: rest).takeWhile (!isBreak ·)
        match (c :: rest).dropWhile (!isBreak ·) with
        | [] => some ([.text text none], ⟨[], pos.pastAll text⟩)
        | b :: rest =>
          (blockLines? indent steps start.nextLine rest).map fun (lines, p) => (.text text (some b) :: lines, p)

/-- Does a line of text start with a blank? Such lines are not folded. -/
def startsBlank (cs : List Char) : Bool := startsWithAny [' ', '\t'] cs

/-- The text that lines stand for after a line that ended with `last` and then `more` line breaks; `blank` tells
    whether that line started with a blank. -/
def blockText (folded : Bool) (ending : Ending) :
    (last : Option Char) → (blank : Bool) → (more : List Char) → List BlockLine → List Char
  | last, _, more, [] =>
    match ending with
    | .strip => []
    | .clip => last.toList
    | .keep => last.toList ++ more
  | last, blank, more, .blank c :: rest => blockText folded ending last blank (more ++ [c]) rest
  | last, blank, more, .text cs c :: rest =>
    let joint :=
      if folded && last == some '\n' && !blank && !startsBlank cs then (if more = [] then [' '] else [])
      else last.toList
    joint ++ more ++ cs ++ blockText folded ending c (startsBlank cs) [] rest

example : blockText true .clip none false [] [.text ['a'] '\n', .text ['b'] '\n', .blank '\n'] =
    ['a', ' ', 'b', '\n'] := by decide

/-! ## Scalars -/

/-- The text of a block scalar at a place, which starts with its mark, and the place after it. `outer` is the
    indentation of the block that it stands in, if it stands in one. -/
def blockScalar? (outer : Option Nat) (p : Place) : Option (List Char × Place) := do
  let folded := p.rest.head? == some '>'
  let (ending, given, rest) ← indicators? (p.rest.drop 1)
  let body ← (p.upTo rest).pastLine?
  let indent ←
    if given = 0 then
      (widestIndent? 0 0 body.rest).map fun widest => max (max widest (outer.elim 0 (· + 1))) 1
    else some (outer.getD 0 + given)
  let (lines, after) ←
    if body.rest = [] then some ([], body) else blockLines? indent (body.rest.length + 1) body.position body.rest
  pure (blockText folded ending none false [] lines, after)

end DataBound.Yaml
