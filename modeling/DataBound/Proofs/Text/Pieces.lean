-- SUMMARY: What the pieces of a text contain.

/-!
# Characters of pieces

The pieces of a text contain its characters apart from the separators; a text with a separator has at least two pieces.
-/

namespace DataBound.Text

variable {sep c : Char} {cs piece : List Char}

theorem intercalate_cons (sep : Char) (piece : List Char) {more : List (List Char)} (h : more ≠ []) :
    List.intercalate [sep] (piece :: more) = piece ++ sep :: List.intercalate [sep] more := by
  rw [List.intercalate_cons_of_ne_nil h, List.append_assoc, List.singleton_append]

/-- What is joined is cut again where it was joined, and wherever the parts are cut themselves. -/
theorem splitOn_intercalate_eq_flatMap {parts : List (List Char)} (hne : parts ≠ []) :
    List.splitOn sep (List.intercalate [sep] parts) = parts.flatMap (List.splitOn sep) := by
  induction parts with
  | nil => exact absurd rfl hne
  | cons part more ih =>
    cases more with
    | nil => rw [List.intercalate_singleton, List.flatMap_singleton]
    | cons next more =>
      rw [intercalate_cons sep part (List.cons_ne_nil _ _), List.splitOn_append_cons_self, List.flatMap_cons,
        ih (List.cons_ne_nil _ _)]

theorem flatMap_splitOn_of_not_mem {parts : List (List Char)} (h : ∀ part ∈ parts, sep ∉ part) :
    parts.flatMap (List.splitOn sep) = parts := by
  induction parts with
  | nil => rfl
  | cons part more ih =>
    rw [List.flatMap_cons, List.splitOn_eq_singleton (h part List.mem_cons_self),
      ih fun other hmem => h other (List.mem_cons_of_mem _ hmem), List.singleton_append]

theorem not_mem_of_mem_splitOn (h : piece ∈ List.splitOn sep cs) : sep ∉ piece := by
  induction cs generalizing piece with
  | nil =>
    rw [List.splitOn_nil, List.mem_singleton] at h
    exact h ▸ List.not_mem_nil
  | cons d cs ih =>
    rw [List.splitOn_cons_eq_if_modifyHead] at h
    split at h
    · rcases List.mem_cons.1 h with rfl | h
      · exact List.not_mem_nil
      · exact ih h
    · rename_i hd
      cases hpieces : List.splitOn sep cs with
      | nil => exact absurd hpieces (List.splitOn_ne_nil sep cs)
      | cons first more =>
        rw [hpieces] at h ih
        rcases List.mem_cons.1 h with rfl | h
        · intro hmem
          rcases List.mem_cons.1 hmem with rfl | hmem
          · exact hd (beq_self_eq_true _)
          · exact ih List.mem_cons_self hmem
        · exact ih (List.mem_cons_of_mem _ h)

theorem exists_mem_splitOn (h : c ∈ cs) (hc : c ≠ sep) : ∃ piece ∈ List.splitOn sep cs, c ∈ piece := by
  have hjoin : List.intercalate [sep] (List.splitOn sep cs) = cs := List.intercalate_splitOn sep
  rw [← hjoin] at h
  generalize List.splitOn sep cs = all at h
  induction all with
  | nil => cases h
  | cons piece more ih =>
    cases more with
    | nil =>
      rw [List.intercalate_singleton] at h
      exact ⟨piece, List.mem_cons_self, h⟩
    | cons next more =>
      rw [intercalate_cons sep piece (List.cons_ne_nil _ _)] at h
      rcases List.mem_append.1 h with h | h
      · exact ⟨piece, List.mem_cons_self, h⟩
      · rcases List.mem_cons.1 h with rfl | h
        · exact absurd rfl hc
        · obtain ⟨found, hfound, hmem⟩ := ih h
          exact ⟨found, List.mem_cons_of_mem _ hfound, hmem⟩

/-- A text with a separator is cut at least once. -/
theorem splitOn_of_mem (h : sep ∈ cs) :
    ∃ piece next more, List.splitOn sep cs = piece :: next :: more ∧ sep ∉ piece := by
  cases hpieces : List.splitOn sep cs with
  | nil => exact absurd hpieces (List.splitOn_ne_nil sep cs)
  | cons piece more =>
    have hpiece : sep ∉ piece := not_mem_of_mem_splitOn (hpieces ▸ List.mem_cons_self)
    cases more with
    | nil =>
      have hjoin : List.intercalate [sep] (List.splitOn sep cs) = cs := List.intercalate_splitOn sep
      rw [hpieces, List.intercalate_singleton] at hjoin
      exact absurd h (hjoin ▸ hpiece)
    | cons next more => exact ⟨piece, next, more, rfl, hpiece⟩

end DataBound.Text
