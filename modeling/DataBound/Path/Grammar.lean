-- SUMMARY: Reading a path text into its tree.
import DataBound.Path.Node
import DataBound.Path.Fault

/-! # The grammar of path texts

```text
path       := [ item { '.' item } [ '.' ] ]
item       := segment { bracket }
segment    := part { part }
part       := '{{' path '}}'  |  '`' source '`'  |  name
bracket    := '[' operand [ '=' { '=' } [ operand ] ] ']'
operand    := part  |  quoted text
```

Spaces are allowed around operands only. A name is a run of characters without a meaning of their own.
The readers take the rest of the text and a bound on the steps still allowed; each gives what it read
and what is left. When the steps run out a reader stops as if nothing more could be read;
`readSteps` allows more than any text needs. -/

namespace DataBound.Path

/-- Where reading stopped, as the text from there on, and why. -/
structure Stop where
  rest : List Char
  cause : Fault.Cause
  deriving DecidableEq

/-- What was read, or where reading stopped. -/
abbrev Reading := Except Stop

/-! ## Characters -/

/-- A character that can stand in a name. -/
def isNameChar (c : Char) : Bool :=
  !([' ', '"', '\'', '(', ')', '*', '.', '=', '[', ']', '`', '{', '}'].contains c)

def isQuote (c : Char) : Bool := c == '\'' || c == '"'

def skipSpaces (cs : List Char) : List Char := cs.dropWhile (· == ' ')

/-- The text after one certain character. -/
def expect (wanted : Char) : List Char → Reading (List Char)
  | [] => .error ⟨[], .expected wanted none⟩
  | c :: rest => if c = wanted then .ok rest else .error ⟨c :: rest, .expected wanted (some c)⟩

/-! ## Leaves -/

/-- A name, if one starts here. -/
def name? (cs : List Char) : Option Node × List Char :=
  match cs.takeWhile isNameChar with
  | [] => (none, cs)
  | c :: more => (some (.literal (String.ofList (c :: more)) false), cs.dropWhile isNameChar)

/-- The source of an expression up to its closing backtick. -/
def source (cs : List Char) : Reading (Node × List Char) := do
  let text := cs.takeWhile (· != '`')
  let rest ← expect '`' (cs.dropWhile (· != '`'))
  if text = [] then .error ⟨rest, .emptyExpression⟩
  else .ok (.expression (String.ofList text), rest)

/-- The text up to a closing quote; empty text is no operand. Neither quote can stand inside. -/
def quotedText (quote : Char) (cs : List Char) : Reading (Option Node × List Char) := do
  let text := cs.takeWhile (!isQuote ·)
  let rest ← expect quote (cs.dropWhile (!isQuote ·))
  if text = [] then .ok (none, rest)
  else .ok (some (.literal (String.ofList text) true), rest)

/-! ## Paths -/

mutual

/-- Items up to the end of the text or a closing brace. -/
def path : Nat → List Char → Reading (List Node × List Char)
  | 0, cs => .ok ([], cs)
  | steps + 1, cs => do
    let (nodes, rest) ← item steps cs
    match rest with
    | [] => .ok (nodes, [])
    | c :: after =>
      if c = '}' then .ok (nodes, c :: after)
      else if nodes.isEmpty then .error ⟨c :: after, .unexpected c⟩
      else if c = '.' then
        let (more, rest) ← path steps after
        .ok (nodes ++ more, rest)
      else .error ⟨c :: after, .expected '.' (some c)⟩

/-- A segment and its brackets; nothing if no segment starts here. -/
def item : Nat → List Char → Reading (List Node × List Char)
  | 0, cs => .ok ([], cs)
  | steps + 1, cs => do
    let (found, rest) ← parts steps cs
    if found.isEmpty then .ok ([], rest)
    else
      let (selected, rest) ← brackets steps rest
      .ok (Node.ofParts found :: selected, rest)

def parts : Nat → List Char → Reading (List Node × List Char)
  | 0, cs => .ok ([], cs)
  | steps + 1, cs => do
    let (first, rest) ← part steps cs
    match first with
    | none => .ok ([], rest)
    | some node =>
      let (more, rest) ← parts steps rest
      .ok (node :: more, rest)

def part : Nat → List Char → Reading (Option Node × List Char)
  | 0, cs => .ok (none, cs)
  | steps + 1, cs =>
    match cs with
    | '{' :: '{' :: rest => do
      let (nodes, rest) ← path steps rest
      let rest ← expect '}' rest
      let rest ← expect '}' rest
      .ok (some (.reference nodes), rest)
    | '{' :: rest => .error ⟨rest, .loneBrace⟩
    | '`' :: rest => (source rest).map fun (node, rest) => (some node, rest)
    | cs => .ok (name? cs)

def brackets : Nat → List Char → Reading (List Node × List Char)
  | 0, cs => .ok ([], cs)
  | steps + 1, cs =>
    match cs with
    | '[' :: rest => do
      let (node, rest) ← bracket steps rest
      let (more, rest) ← brackets steps rest
      .ok (node :: more, rest)
    | cs => .ok ([], cs)

/-- What stands between brackets, and the closing one. -/
def bracket : Nat → List Char → Reading (Node × List Char)
  | 0, cs => .error ⟨cs, .noOperand⟩
  | steps + 1, cs => do
    let (first, rest) ← operand steps cs
    match first with
    | none => .error ⟨rest, .noOperand⟩
    | some key =>
      match skipSpaces rest with
      | '=' :: rest =>
        let (value, rest) ← operand steps (rest.dropWhile (· == '='))
        let rest ← expect ']' (skipSpaces rest)
        .ok (.query key value, rest)
      | rest =>
        let rest ← expect ']' rest
        .ok (key, rest)

/-- A part or quoted text after spaces, if there is one. -/
def operand : Nat → List Char → Reading (Option Node × List Char)
  | 0, cs => .ok (none, cs)
  | steps + 1, cs =>
    match skipSpaces cs with
    | '\'' :: rest => quotedText '\'' rest
    | '"' :: rest => quotedText '"' rest
    | rest => part steps rest

end

/-- Enough steps to read a text of this length. -/
def readSteps (length : Nat) : Nat := 4 * length + 8

def read (raw : String) : Except Fault (List Node) :=
  let cs := raw.toList
  let fault (rest : List Char) (cause : Fault.Cause) : Fault := ⟨cs.length - rest.length, cause⟩
  match path (readSteps cs.length) cs with
  | .error stop => .error (fault stop.rest stop.cause)
  | .ok (nodes, []) => .ok nodes
  | .ok (_, c :: rest) => .error (fault (c :: rest) (.unexpected c))

end DataBound.Path
