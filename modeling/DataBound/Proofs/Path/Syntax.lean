-- SUMMARY: The grammar of path texts as relations between a text and the nodes it spells.
import DataBound.Path.Grammar
import Mathlib.Data.List.Chain

/-!
# The reference grammar of path texts

One relation for each phrase of the grammar. A relation holds of exactly the text that a phrase takes up,
without what follows it, and of the nodes that the phrase stands for. Nothing here says how a text is
read: a phrase may be cut into parts in any way that the rules allow.
-/

namespace DataBound

/-- Is the part a name? -/
def Node.isName : Node → Bool
  | .literal .. => true
  | _ => false

namespace Path

/-- Two names never follow each other: they would be one longer name. -/
def NoAdjacentNames (parts : List Node) : Prop :=
  parts.IsChain fun a b => ¬ (a.isName ∧ b.isName)

/-- Some spaces. -/
def spaces (count : Nat) : List Char := List.replicate count ' '

mutual

/-- The text of a path: nothing, or items with dots between them and at most one dot at the end. -/
inductive PathText : List Char → List Node → Prop where
  | empty : PathText [] []
  | items {cs nodes} : ItemsText cs nodes → PathText cs nodes
  | trailingDot {cs nodes} : ItemsText cs nodes → PathText (cs ++ ['.']) nodes

/-- One or more items with dots between them. -/
inductive ItemsText : List Char → List Node → Prop where
  | last {cs nodes} : ItemText cs nodes → ItemsText cs nodes
  | cons {cs nodes ds more} :
      ItemText cs nodes → ItemsText ds more → ItemsText (cs ++ '.' :: ds) (nodes ++ more)

/-- A segment and its brackets. -/
inductive ItemText : List Char → List Node → Prop where
  | mk {cs parts ds selected} :
      PartsText cs parts → parts ≠ [] → NoAdjacentNames parts → BracketsText ds selected →
      ItemText (cs ++ ds) (Node.ofParts parts :: selected)

/-- Parts one after the other. -/
inductive PartsText : List Char → List Node → Prop where
  | nil : PartsText [] []
  | cons {cs node ds more} :
      PartText cs node → PartsText ds more → PartsText (cs ++ ds) (node :: more)

/-- A reference, an expression, or a name. -/
inductive PartText : List Char → Node → Prop where
  | reference {cs nodes} :
      PathText cs nodes → PartText ('{' :: '{' :: (cs ++ ['}', '}'])) (.reference nodes)
  | expression {cs} :
      cs ≠ [] → '`' ∉ cs → PartText ('`' :: (cs ++ ['`'])) (.expression (String.ofList cs))
  | name {cs} :
      cs ≠ [] → (∀ c ∈ cs, isNameChar c) → PartText cs (.literal (String.ofList cs) false)

/-- Brackets one after the other. -/
inductive BracketsText : List Char → List Node → Prop where
  | nil : BracketsText [] []
  | cons {cs node ds more} :
      BracketText cs node → BracketsText ds more → BracketsText (cs ++ ds) (node :: more)

/-- A bracket around one operand, or around a query: a key, equals signs, and what is wanted. -/
inductive BracketText : List Char → Node → Prop where
  | operand {cs node} (before after : Nat) :
      OperandText cs node →
      BracketText ('[' :: (spaces before ++ cs ++ spaces after ++ [']'])) node
  | query {cs key ds value} (before after equals inner outer : Nat) :
      OperandText cs key → WantedText ds value →
      BracketText
        ('[' :: (spaces before ++ cs ++ spaces after ++ List.replicate (equals + 1) '=' ++
          spaces inner ++ ds ++ spaces outer ++ [']']))
        (.query key value)

/-- A part, or text between two equal quotes that contains no quote. -/
inductive OperandText : List Char → Node → Prop where
  | part {cs node} : PartText cs node → OperandText cs node
  | quoted {quote cs} :
      isQuote quote → cs ≠ [] → (∀ c ∈ cs, ¬ isQuote c) →
      OperandText (quote :: (cs ++ [quote])) (.literal (String.ofList cs) true)

/-- What a query wants: nothing, which empty quotes say as well, or an operand. -/
inductive WantedText : List Char → Option Node → Prop where
  | nothing : WantedText [] none
  | emptyQuotes {quote} : isQuote quote → WantedText [quote, quote] none
  | operand {cs node} : OperandText cs node → WantedText cs (some node)

end

end Path

end DataBound
