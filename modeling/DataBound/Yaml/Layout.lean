-- SUMMARY: The tokens of a YAML text, with those that indentation implies.
import DataBound.Yaml.Token
import DataBound.Yaml.Folded
import DataBound.Yaml.Literal

/-! # Layout

A text is read from left to right. A block opens where a key or an item stands further right than the block around
it, and closes where something stands further left. Whether a word is a key shows only at the colon behind it, so
the last place where a key may have started is kept as a `Candidate`: one for the block, and one for each flow
collection that is open. A key and its colon stand in one line, at most 1024 bytes apart in UTF-8.

`Layout.step?` reads one token, and `tokens?` all of them. -/

namespace DataBound.Yaml

/-- A place where a key may have started. `index` is the number of tokens before it; a `needed` one stands where
    its block can only go on with a key. -/
structure Candidate where
  needed : Bool
  index : Nat
  position : Position

/-- How many bytes a key and its colon may be apart. -/
def Candidate.reach : Nat := 1024

/-- Can what was started there no longer become a key at this place? -/
def Candidate.isStale (c : Candidate) (p : Place) : Bool :=
  c.position.line < p.position.line || c.position.width + reach < p.position.width

/-- The candidate as it is at a place; a needed one must not be lost. -/
def Candidate.at? (p : Place) : Option Candidate → Option (Option Candidate)
  | none => some none
  | some c =>
    if c.isStale p then (if c.needed then none else some none) else some (some c)

/-- What was read so far: the tokens, the last one first, the columns of the open blocks, the innermost one first,
    and the candidates of the innermost collection and of those around it. -/
structure Layout where
  place : Place
  tokens : List Token
  blocks : List Nat
  mayStartKey : Bool
  candidate : Option Candidate
  enclosing : List (Option Candidate)

namespace Layout

def start (cs : List Char) : Layout := ⟨.start cs, [], [], true, none, []⟩

def inFlow (l : Layout) : Bool := !l.enclosing.isEmpty

/-- The least indentation of what belongs to the innermost block. -/
def leastIndent (l : Layout) : Nat := l.blocks.head?.elim 0 (· + 1)

/-! ## Tokens, blocks and candidates -/

/-- The layout with one more token, which takes some characters. -/
def emit (l : Layout) (t : Token) (count : Nat) : Layout :=
  { l with tokens := t :: l.tokens, place := l.place.skip count }

/-- The layout with a token inserted behind the first `index` tokens. -/
def insert (l : Layout) (index : Nat) (t : Token) : Layout :=
  let later := l.tokens.length - index
  { l with tokens := l.tokens.take later ++ t :: l.tokens.drop later }

/-- The blocks that stay open and the tokens so far once those right of a column are closed, or all blocks. -/
def closing (column : Option Nat) : List Nat → List Token → List Nat × List Token
  | [], tokens => ([], tokens)
  | b :: blocks, tokens =>
    if column.all (· < b) then closing column blocks (.closeBlock :: tokens) else (b :: blocks, tokens)

/-- The layout with the blocks right of a column closed, or with all closed; none is closed inside a flow
    collection. -/
def closeBlocks (l : Layout) (column : Option Nat) : Layout :=
  if l.inFlow then l
  else
    let (blocks, tokens) := closing column l.blocks l.tokens
    { l with blocks, tokens }

/-- The layout with a block at a column, which is opened by a token behind the first `index` tokens unless it is
    open already. -/
def openBlock (l : Layout) (column index : Nat) (t : Token) : Layout :=
  if l.inFlow || column < l.leastIndent then l
  else { l.insert index t with blocks := column :: l.blocks }

/-- The layout without a candidate, which must not be needed. -/
def dropCandidate? (l : Layout) : Option Layout :=
  if l.candidate.any (·.needed) then none else some { l with candidate := none }

/-- The layout where a key may have started at this place. -/
def markKey? (l : Layout) : Option Layout := do
  if l.mayStartKey then
    let l ← l.dropCandidate?
    let needed := !l.inFlow && l.blocks.head? == some l.place.column
    pure { l with candidate := some ⟨needed, l.tokens.length, l.place.position⟩ }
  else pure l

/-! ## Blanks -/

/-- The place of the next token, after blanks, comments and ends of lines, and whether a key may start there.
    Tabs are no indentation: they are skipped only inside flow collections and where no key may start. -/
def skipBlanks (inFlow : Bool) :
    (inComment mayStartKey : Bool) → Position → List Char → Place × Bool
  | _, may, pos, [] => (⟨[], pos⟩, may)
  | inComment, may, pos, c :: rest =>
    if isBreak c then skipBlanks inFlow false (may || !inFlow) pos.nextLine rest
    else if inComment || c == ' ' || (c == '\t' && (inFlow || !may)) || (pos.column == 0 && isOrderMark c) then
      skipBlanks inFlow inComment may (pos.past c) rest
    else if c = '#' then skipBlanks inFlow true may (pos.past c) rest
    else (⟨c :: rest, pos⟩, may)

/-- The layout at the next token, with candidates and blocks as they are there. -/
def settle? (l : Layout) : Option Layout := do
  let (place, mayStartKey) := skipBlanks l.inFlow false l.mayStartKey l.place.position l.place.rest
  let candidate ← Candidate.at? place l.candidate
  let enclosing ← l.enclosing.mapM (Candidate.at? place)
  pure ({ l with place, mayStartKey, candidate, enclosing }.closeBlocks (some place.column))

/-! ## One token -/

/-- The layout outside of all blocks, where directives and marks between documents stand. -/
def leave? (l : Layout) : Option Layout :=
  (l.closeBlocks none).dropCandidate?.map fun l => { l with mayStartKey := false }

def directive? (l : Layout) : Option Layout := do
  let l ← l.leave?
  let (d, place) ← Yaml.directive? l.place
  pure { l with tokens := .directive d :: l.tokens, place }

def documentMark? (l : Layout) (t : Token) : Option Layout := l.leave?.map fun l => l.emit t 3

/-- The layout after the mark that opens a flow collection. -/
def openFlow? (l : Layout) (t : Token) : Option Layout := do
  let l ← l.markKey?
  pure { l.emit t 1 with mayStartKey := true, candidate := none, enclosing := l.candidate :: l.enclosing }

/-- The layout after the mark that closes a flow collection. -/
def closeFlow? (l : Layout) (t : Token) : Option Layout := do
  let l := { (← l.dropCandidate?).emit t 1 with mayStartKey := false }
  match l.enclosing with
  | [] => pure l
  | candidate :: enclosing => pure { l with candidate, enclosing }

def comma? (l : Layout) : Option Layout :=
  l.dropCandidate?.map fun l => { l.emit .comma 1 with mayStartKey := true }

/-- The layout where a mark may stand that opens a block if none is open at its column. -/
def openBlockHere? (l : Layout) (t : Token) : Option Layout :=
  if l.inFlow then some l
  else if l.mayStartKey then some (l.openBlock l.place.column l.tokens.length t)
  else none

/-- The layout after the dash before an item. -/
def item? (l : Layout) : Option Layout := do
  let l ← (← l.openBlockHere? .openBlockSequence).dropCandidate?
  pure { l.emit .item 1 with mayStartKey := true }

/-- The layout after the question mark before a key. -/
def key? (l : Layout) : Option Layout := do
  let l ← (← l.openBlockHere? .openBlockMapping).dropCandidate?
  pure { l.emit .key 1 with mayStartKey := !l.inFlow }

/-- The layout after the colon before a value: what stands at the candidate is a key, if there is one. -/
def value? (l : Layout) : Option Layout :=
  match l.candidate with
  | some c =>
    let l := (l.insert c.index .key).openBlock c.position.column c.index .openBlockMapping
    some { l.emit .value 1 with candidate := none, mayStartKey := false }
  | none => do
    let l ← l.openBlockHere? .openBlockMapping
    pure { l.emit .value 1 with mayStartKey := !l.inFlow }

/-- The layout after a token that a key can start with, given how it is read. -/
def word? (l : Layout) (read : Place → Option (Token × Place)) : Option Layout := do
  let l ← l.markKey?
  let (t, place) ← read l.place
  pure { l with tokens := t :: l.tokens, place, mayStartKey := false }

/-- The layout after a plain scalar. If it ends behind a line break, a key may start there. -/
def plain? (l : Layout) : Option Layout := do
  let l ← l.markKey?
  let (text, gap, place) ← Yaml.plain? l.inFlow l.leastIndent .none l.place.position l.place.rest
  pure { l with tokens := .scalar true (String.ofList text) :: l.tokens, place, mayStartKey := gap.isBroken }

def blockScalar? (l : Layout) : Option Layout := do
  let l ← l.dropCandidate?
  let (text, place) ← Yaml.blockScalar? l.blocks.head? l.place
  pure { l with tokens := .scalar false (String.ofList text) :: l.tokens, place, mayStartKey := true }

/-- The layout after the token that starts with this character. -/
def token? (l : Layout) (c : Char) (rest : List Char) : Option Layout :=
  if l.place.column = 0 ∧ c = '%' then l.directive?
  else if l.place.column = 0 ∧ isDocumentMark (c :: rest) then
    l.documentMark? (if c = '-' then .documentStart else .documentEnd)
  else
    match c with
    | '[' => l.openFlow? .openSequence
    | '{' => l.openFlow? .openMapping
    | ']' => l.closeFlow? .closeSequence
    | '}' => l.closeFlow? .closeMapping
    | ',' => l.comma?
    | '*' => l.word? fun p => (anchorName? (p.skip 1)).map fun (name, p) => (.alias name, p)
    | '&' => l.word? fun p => (anchorName? (p.skip 1)).map fun (name, p) => (.anchor name, p)
    | '!' => l.word? fun p => (tag? l.inFlow p).map fun (t, p) => (.tag t, p)
    | _ =>
      if c = '\'' ∨ c = '"' then
        l.word? fun p => (quoted? p).map fun (text, p) => (.scalar false (String.ofList text), p)
      else if c = '-' ∧ separates rest then l.item?
      else if c = '?' ∧ (l.inFlow ∨ separates rest) then l.key?
      else if c = ':' ∧ (l.inFlow ∨ separates rest) then l.value?
      else if (c = '|' ∨ c = '>') ∧ !l.inFlow then l.blockScalar?
      else if canStartPlain l.inFlow (c :: rest) then l.plain?
      else none

/-- One more token read, or none at the end of the text, where all blocks are closed; and whether that is the
    end. -/
def step? (l : Layout) : Option (Layout × Bool) := do
  let l ← l.settle?
  match l.place.rest with
  | [] => l.leave?.map fun l => (l, true)
  | c :: rest => (l.token? c rest).map fun l => (l, false)

/-- The layout at the end of the text, with a bound on the tokens still to be read. -/
def finish? : Nat → Layout → Option Layout
  | 0, _ => none
  | steps + 1, l => do
    let (l, done) ← l.step?
    if done then pure l else finish? steps l

end Layout

def tokens? (text : String) : Option (List Token) :=
  if text.toList.all isAdmitted then
    ((Layout.start (withLineFeeds text.toList)).finish? (text.length + 2)).map fun l => l.tokens.reverse
  else none

end DataBound.Yaml
