-- SUMMARY: How a replacement goes through a text piece by piece.
import DataBound.Text.Occurrence

/-!
# Replacing piece by piece

What is replaced in a text is replaced in its parts, as long as no occurrence reaches over from one part into the next.
An occurrence begins with the first character of what is looked for, so a part without this character stays as it is and
the next part begins afresh.
-/

namespace DataBound.Text

variable {c first : Char} {find tail value cs : List Char}

@[simp] theorem replaceAll_cons (first : Char) (tail value cs : List Char) :
    replaceAll (first :: tail) value cs = replaceFrom (first :: tail) value 0 cs := rfl

theorem replaceFrom_skip (find value : List Char) (skip : Nat) (cs : List Char) :
    replaceFrom find value skip cs = replaceFrom find value 0 (cs.drop skip) := by
  induction cs generalizing skip with
  | nil => cases skip <;> rfl
  | cons c cs ih =>
    cases skip with
    | zero => rfl
    | succ skip => rw [replaceFrom, ih, List.drop_succ_cons]

theorem replaceAll_of_not_isPrefixOf (h : (first :: tail).isPrefixOf (c :: cs) = false) :
    replaceAll (first :: tail) value (c :: cs) = c :: replaceAll (first :: tail) value cs := by
  rw [replaceAll_cons, replaceFrom, h, if_neg Bool.false_ne_true, replaceAll_cons]

/-- An occurrence at the start of the text is replaced, and the rest begins behind it. -/
theorem replaceAll_prefix_append (first : Char) (tail value rest : List Char) :
    replaceAll (first :: tail) value (first :: tail ++ rest) = value ++ replaceAll (first :: tail) value rest := by
  have hbegins : (first :: tail).isPrefixOf (first :: (tail ++ rest)) = true :=
    List.isPrefixOf_iff_prefix.2 (List.prefix_append (first :: tail) rest)
  rw [List.cons_append, replaceAll_cons, replaceFrom, hbegins, if_pos rfl, replaceFrom_skip, List.length_cons,
    Nat.add_sub_cancel, List.drop_left, replaceAll_cons]

theorem replaceAll_cons_of_ne (h : c ≠ first) :
    replaceAll (first :: tail) value (c :: cs) = c :: replaceAll (first :: tail) value cs := by
  apply replaceAll_of_not_isPrefixOf
  rw [List.isPrefixOf_cons_cons, beq_false_of_ne (Ne.symm h), Bool.false_and]

theorem replaceAll_append_of_not_mem {before : List Char} (h : first ∉ before) :
    replaceAll (first :: tail) value (before ++ cs) = before ++ replaceAll (first :: tail) value cs := by
  induction before with
  | nil => rfl
  | cons c before ih =>
    rw [List.mem_cons, not_or] at h
    rw [List.cons_append, replaceAll_cons_of_ne (Ne.symm h.1), ih h.2, List.cons_append]

theorem replaceAll_of_not_mem (h : first ∉ cs) : replaceAll (first :: tail) value cs = cs := by
  have happend : replaceAll (first :: tail) value (cs ++ []) = cs ++ [] := replaceAll_append_of_not_mem h
  rwa [List.append_nil] at happend

/-- Where anything is replaced, the replacement stands in the text. -/
theorem replaceAll_eq_self_or (first : Char) (tail value cs : List Char) :
    replaceAll (first :: tail) value cs = cs ∨ ∀ c ∈ value, c ∈ replaceAll (first :: tail) value cs := by
  induction cs with
  | nil => exact .inl rfl
  | cons c cs ih =>
    cases hbegins : (first :: tail).isPrefixOf (c :: cs) with
    | true =>
      obtain ⟨rest, hrest⟩ := List.isPrefixOf_iff_prefix.1 hbegins
      rw [← hrest, replaceAll_prefix_append]
      exact .inr fun d hd => List.mem_append_left _ hd
    | false =>
      rw [replaceAll_of_not_isPrefixOf hbegins]
      rcases ih with heq | hmem
      · exact .inl (congrArg _ heq)
      · exact .inr fun d hd => List.mem_cons_of_mem _ (hmem d hd)

/-- The second text is the first one with the occurrences of `find` replaced from left to right. Each is looked for behind
the one before it. -/
inductive Replaced (find value : List Char) : List Char → List Char → Prop
  | nil : Replaced find value [] []
  | occurrence {cs out : List Char} : Replaced find value cs out → Replaced find value (find ++ cs) (value ++ out)
  | other {c : Char} {cs out : List Char} :
      ¬ find <+: c :: cs → Replaced find value cs out → Replaced find value (c :: cs) (c :: out)

/-- What replacing is: the leftmost occurrences that do not overlap, and nothing else. -/
theorem replaced_iff {out : List Char} :
    Replaced (first :: tail) value cs out ↔ replaceAll (first :: tail) value cs = out := by
  constructor
  · intro h
    induction h with
    | nil => rfl
    | occurrence _ ih => rw [replaceAll_prefix_append, ih]
    | other hnot _ ih =>
      rw [← List.isPrefixOf_iff_prefix, Bool.not_eq_true] at hnot
      rw [replaceAll_of_not_isPrefixOf hnot, ih]
  · rintro rfl
    induction hlength : cs.length using Nat.strongRecOn generalizing cs with
    | ind n ih =>
      subst hlength
      cases cs with
      | nil => exact .nil
      | cons c cs =>
        cases hbegins : (first :: tail).isPrefixOf (c :: cs) with
        | true =>
          obtain ⟨rest, hrest⟩ := List.isPrefixOf_iff_prefix.1 hbegins
          have hlt : rest.length < (c :: cs).length := by
            rw [← hrest, List.length_append, List.length_cons]
            omega
          rw [← hrest, replaceAll_prefix_append]
          exact .occurrence (ih rest.length hlt rfl)
        | false =>
          rw [replaceAll_of_not_isPrefixOf hbegins]
          refine .other ?_ (ih cs.length (Nat.lt_succ_self _) rfl)
          rw [← List.isPrefixOf_iff_prefix, hbegins]
          exact Bool.false_ne_true

end DataBound.Text
