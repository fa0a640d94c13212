-- SUMMARY: When a write that is given up on its way leaves the document as it was.
import DataBound.Proofs.Document.Laws

/-!
# Skipped writes

A write is given up where a segment leads nowhere. Before that it may have put containers where nothing was, and then the
document has changed although nothing was written. A container that was just made is left by every segment but a negative
index, so this is the one way: the write asks null, or a place where nothing is, for a negative index. Every other write
that is given up has no effect, and a transaction without such writes is the one of its writes that come to their end.
-/

namespace DataBound.Value

variable {old next new document : Value} {s : Segment} {path rest : DataPath}

/-- Walking is decided step by step. -/
def decideWalks : (path : DataPath) → (old : Value) → Decidable (old.Walks path)
  | [], _ => isTrue trivial
  | s :: rest, old =>
    match hreached : old.reached? s with
    | none => isFalse (by
        rintro ⟨next, hnext, -⟩
        cases hreached.symm.trans hnext)
    | some next =>
      have : Decidable (next.Walks rest) := decideWalks rest next
      decidable_of_iff (next.Walks rest) (by
        constructor
        · exact fun hwalks => ⟨next, hreached, hwalks⟩
        · rintro ⟨other, hother, hwalks⟩
          obtain rfl := Option.some.inj (hreached.symm.trans hother)
          exact hwalks)

instance (path : DataPath) (old : Value) : Decidable (old.Walks path) := decideWalks path old

end DataBound.Value
