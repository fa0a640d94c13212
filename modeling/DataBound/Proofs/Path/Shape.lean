-- SUMMARY: The shape of the trees that path texts spell.
import DataBound.Proofs.Path.Reading

/-!
# The shape of path trees

Resolving a tree can only take the text of a literal, a reference or an expression. The type of trees allows queries
and joined parts in their places; the grammar does not. `Node.WellFormed` says what the grammar allows at every depth
of a tree, and every tree that is read has it.
-/

namespace DataBound

namespace Node

/-- Does the node stand for one text? Queries and joined parts do not. -/
def givesText : Node → Bool
  | .query .. => false
  | .joined _ => false
  | _ => true

/-- A node that a path text can spell, down to its leaves. -/
inductive WellFormed : Node → Prop where
  | literal {text quoted} : text ≠ "" → WellFormed (.literal text quoted)
  | reference {path} : (∀ node ∈ path, WellFormed node) → WellFormed (.reference path)
  | expression {source} : source ≠ "" → WellFormed (.expression source)
  | query {key value} :
      key.givesText → WellFormed key → (∀ wanted ∈ value, wanted.givesText) → (∀ wanted ∈ value, WellFormed wanted) →
      WellFormed (.query key value)
  | joined {parts} :
      2 ≤ parts.length → Path.NoAdjacentNames parts → (∀ part ∈ parts, part.givesText) →
      (∀ part ∈ parts, WellFormed part) → WellFormed (.joined parts)

/-- A single part is the node itself, and more than one are joined. -/
theorem wellFormed_ofParts {parts : List Node} (hne : parts ≠ []) (hchain : Path.NoAdjacentNames parts)
    (hparts : ∀ part ∈ parts, part.givesText ∧ part.WellFormed) : (Node.ofParts parts).WellFormed := by
  cases parts with
  | nil => exact absurd rfl hne
  | cons first more =>
    cases more with
    | nil => exact (hparts first List.mem_cons_self).2
    | cons second more =>
      refine .joined ?_ hchain (fun part hpart => (hparts part hpart).1) fun part hpart => (hparts part hpart).2
      simp only [List.length_cons]
      omega

end Node

namespace Path

theorem ofList_ne_empty {cs : List Char} (h : cs ≠ []) : String.ofList cs ≠ "" := by
  intro heq
  apply h
  rw [← String.toList_ofList (l := cs), heq]
  rfl

mutual

/-- What a path text spells is well-formed. -/
theorem PathText.wellFormed {cs : List Char} {nodes : List Node} : PathText cs nodes → ∀ node ∈ nodes, node.WellFormed
  | .empty => nofun
  | .items h => h.wellFormed
  | .trailingDot h => h.wellFormed

theorem ItemsText.wellFormed {cs : List Char} {nodes : List Node} : ItemsText cs nodes → ∀ node ∈ nodes, node.WellFormed
  | .last h, node, hnode => h.wellFormed node hnode
  | .cons h hmore, node, hnode => (List.mem_append.1 hnode).elim (h.wellFormed node) (hmore.wellFormed node)

theorem ItemText.wellFormed {cs : List Char} {nodes : List Node} : ItemText cs nodes → ∀ node ∈ nodes, node.WellFormed
  | .mk h hne hchain hbrackets =>
    List.forall_mem_cons.2 ⟨Node.wellFormed_ofParts hne hchain h.wellFormed, hbrackets.wellFormed⟩

theorem PartsText.wellFormed {cs : List Char} {nodes : List Node} :
    PartsText cs nodes → ∀ node ∈ nodes, node.givesText ∧ node.WellFormed
  | .nil => nofun
  | .cons h hmore => List.forall_mem_cons.2 ⟨h.wellFormed, hmore.wellFormed⟩

theorem PartText.wellFormed {cs : List Char} {node : Node} : PartText cs node → node.givesText ∧ node.WellFormed
  | .reference h => ⟨rfl, .reference h.wellFormed⟩
  | .expression hne _ => ⟨rfl, .expression (ofList_ne_empty hne)⟩
  | .name hne _ => ⟨rfl, .literal (ofList_ne_empty hne)⟩

theorem BracketsText.wellFormed {cs : List Char} {nodes : List Node} :
    BracketsText cs nodes → ∀ node ∈ nodes, node.WellFormed
  | .nil => nofun
  | .cons h hmore => List.forall_mem_cons.2 ⟨h.wellFormed, hmore.wellFormed⟩

theorem BracketText.wellFormed {cs : List Char} {node : Node} : BracketText cs node → node.WellFormed
  | .operand _ _ h => h.wellFormed.2
  | .query _ _ _ _ _ hkey hvalue =>
    .query hkey.wellFormed.1 hkey.wellFormed.2 (fun wanted hwanted => (hvalue.wellFormed wanted hwanted).1)
      fun wanted hwanted => (hvalue.wellFormed wanted hwanted).2

theorem OperandText.wellFormed {cs : List Char} {node : Node} : OperandText cs node → node.givesText ∧ node.WellFormed
  | .part h => h.wellFormed
  | .quoted _ hne _ => ⟨rfl, .literal (ofList_ne_empty hne)⟩

theorem WantedText.wellFormed {cs : List Char} {value : Option Node} :
    WantedText cs value → ∀ wanted ∈ value, wanted.givesText ∧ wanted.WellFormed
  | .nothing => nofun
  | .emptyQuotes _ => nofun
  | .operand h => by
    intro wanted hwanted
    obtain rfl := Option.mem_some_iff.1 hwanted
    exact h.wellFormed

end

/-- Every tree that is read is well-formed. -/
theorem wellFormed_of_read {raw : String} {tree : List Node} (h : read raw = .ok tree) : ∀ node ∈ tree, node.WellFormed :=
  (pathText_of_read_eq_ok h).wellFormed

end Path

end DataBound
