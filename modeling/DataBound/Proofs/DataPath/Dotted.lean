-- SUMMARY: Exactly which data paths are read back from their dotted texts; those that come from a text are.
import DataBound.Binding
import DataBound.Proofs.DataPath

/-!
# Paths and dotted texts

Three things get lost when a path is written as dotted text: a key with a dot in it falls apart, a key that spells a
64-bit integer turns into an index, and the path of the empty key alone has the text of the empty path. All other
paths are read back from their texts. What was read from a text has none of these keys, so reading a text, writing and
reading it again gives what the first reading gave.
-/

namespace DataBound

/-! ## Integer texts -/

/-- The text of an integer within 64 signed bits: an optional minus sign, and then ASCII digits. -/
inductive Text.IsIntegerText : List Char → Prop
  | plain {digits : List Char} : digits ≠ [] → (∀ c ∈ digits, c.isDigit = true) →
      Nat.ofDigitChars 10 digits 0 < 0x8000_0000_0000_0000 → IsIntegerText digits
  | minus {digits : List Char} : digits ≠ [] → (∀ c ∈ digits, c.isDigit = true) →
      Nat.ofDigitChars 10 digits 0 ≤ 0x8000_0000_0000_0000 → IsIntegerText ('-' :: digits)

theorem Text.digits?_eq_some_iff {cs : List Char} {n : Nat} :
    digits? cs = some n ↔ cs ≠ [] ∧ (∀ c ∈ cs, c.isDigit = true) ∧ Nat.ofDigitChars 10 cs 0 = n := by
  rw [digits?, Option.ite_none_right_eq_some, Option.some.injEq, List.all_eq_true, and_assoc]

theorem Text.signed?_minus (cs : List Char) :
    signed? ('-' :: cs) = (digits? cs).map fun n : Nat => -(n : Int) := by
  rw [signed?]
  cases digits? cs <;> rfl

theorem Text.signed?_of_head {cs : List Char} (h : cs.head? ≠ some '-') :
    signed? cs = (digits? cs).map fun n : Nat => (n : Int) := by
  unfold signed?
  split
  · exact absurd rfl h
  · cases digits? cs <;> rfl

theorem Segment.isSome_index?_iff_signed? (name : String) : (index? name).isSome ↔
    ∃ i, Text.signed? name.toList = some i ∧ -0x8000_0000_0000_0000 ≤ i ∧ i < 0x8000_0000_0000_0000 := by
  rw [index?]
  cases Text.signed? name.toList with
  | none => simp
  | some i => simp [Option.isSome_ite]

/-- Indices are spelled by the integer texts and by no others. -/
theorem Segment.isSome_index?_iff (name : String) : (index? name).isSome ↔ Text.IsIntegerText name.toList := by
  rw [isSome_index?_iff_signed?]
  generalize name.toList = cs
  constructor
  · rintro ⟨i, hi, hmin, hmax⟩
    by_cases hminus : cs.head? = some '-'
    · obtain ⟨digits, rfl⟩ := List.head?_eq_some_iff.1 hminus
      rw [Text.signed?_minus] at hi
      obtain ⟨n, hn, rfl⟩ := Option.map_eq_some_iff.1 hi
      obtain ⟨hne, hdigits, rfl⟩ := Text.digits?_eq_some_iff.1 hn
      exact .minus hne hdigits (by omega)
    · rw [Text.signed?_of_head hminus] at hi
      obtain ⟨n, hn, rfl⟩ := Option.map_eq_some_iff.1 hi
      obtain ⟨hne, hdigits, rfl⟩ := Text.digits?_eq_some_iff.1 hn
      exact .plain hne hdigits (by omega)
  · intro h
    cases h with
    | plain hne hdigits hmax =>
      have hminus : cs.head? ≠ some '-' := by
        intro hhead
        exact absurd (hdigits '-' (List.mem_of_head? hhead)) (by decide)
      rw [Text.signed?_of_head hminus, Text.digits?_eq_some_iff.2 ⟨hne, hdigits, rfl⟩]
      exact ⟨Nat.ofDigitChars 10 cs 0, rfl, by omega, by omega⟩
    | @minus digits hne hdigits hmin =>
      rw [Text.signed?_minus, Text.digits?_eq_some_iff.2 ⟨hne, hdigits, rfl⟩]
      exact ⟨-(Nat.ofDigitChars 10 digits 0 : Int), rfl, by omega, by omega⟩

namespace DataPath

/-! ## Paths that are read back -/

/-- No key is mistaken for something else in the path's dotted text. -/
structure Dottable (path : DataPath) : Prop where
  ne_empty_key : path ≠ [.key ""]
  no_dot : ∀ name, .key name ∈ path → '.' ∉ name.toList
  no_integer : ∀ name, .key name ∈ path → ¬ Text.IsIntegerText name.toList

variable {path : DataPath}

theorem Dottable.ofText_text (h : path.Dottable) : ofText path.text = path := by
  by_cases hne : path = []
  · rw [hne]
    rfl
  · have hnames : path.map Segment.text ≠ [] := fun hnil => hne (List.map_eq_nil_iff.1 hnil)
    have hempty : path.map Segment.text ≠ [""] := by
      intro hsingle
      obtain ⟨s, rfl, hs⟩ := List.map_eq_singleton_iff.1 hsingle
      cases s with
      | index position => exact Text.intRepr_ne_nil _ (congrArg String.toList hs)
      | key name => exact h.ne_empty_key (congrArg (fun name => [Segment.key name]) hs)
    have hdots : ∀ s ∈ path, '.' ∉ s.text.toList := by
      intro s hs
      cases s with
      | index position => exact Text.not_mem_intRepr (by decide) (by decide) _
      | key name => exact h.no_dot name hs
    have hread := ofText_join hnames hempty (List.forall_mem_map.2 hdots)
    rw [List.map_map, List.map_map] at hread
    refine hread.trans ((List.map_congr_left fun s hs => ?_).trans (List.map_id path))
    cases s with
    | index position => exact Segment.ofText_text_index position
    | key name =>
      have hnone : Segment.index? name = none := by
        rw [← Option.not_isSome_iff_eq_none, Segment.isSome_index?_iff]
        exact h.no_integer name hs
      exact Segment.ofText_of_index?_eq_none hnone

theorem mem_pieces_of_mem_ofText {raw name : String} (h : .key name ∈ ofText raw) :
    name.toList ∈ List.splitOn '.' raw.toList ∧ Segment.index? name = none := by
  rw [ofText] at h
  split at h
  · cases h
  · obtain ⟨piece, hpiece, hsegment⟩ := List.mem_map.1 h
    rw [Segment.ofText] at hsegment
    split at hsegment
    · cases hsegment
    · rename_i hnone
      cases hsegment
      rw [String.toList_ofList]
      exact ⟨hpiece, hnone⟩

/-- What is read from a text can be written as text. -/
theorem dottable_ofText (raw : String) : (ofText raw).Dottable where
  ne_empty_key h := by
    have hmem := (mem_pieces_of_mem_ofText (h ▸ List.mem_cons_self : .key "" ∈ ofText raw)).1
    have hlength := congrArg List.length h
    rw [ofText] at h hlength
    split at h
    · cases h
    · rename_i hsome
      -- a text whose only piece is empty is empty
      rw [if_neg hsome, List.length_map, List.length_singleton, List.length_eq_one_iff] at hlength
      obtain ⟨piece, hpieces⟩ := hlength
      rw [hpieces, List.mem_singleton] at hmem
      have hjoin : List.intercalate ['.'] (List.splitOn '.' raw.toList) = raw.toList := List.intercalate_splitOn '.'
      rw [hpieces, List.intercalate_singleton, ← hmem] at hjoin
      exact hsome (String.isEmpty_iff.2 (String.toList_inj.1 hjoin.symm))
  no_dot name h := Text.not_mem_of_mem_splitOn (mem_pieces_of_mem_ofText h).1
  no_integer name h := by
    rw [← Segment.isSome_index?_iff, (mem_pieces_of_mem_ofText h).2]
    exact Bool.false_ne_true

/-- A path is read back from its dotted text exactly if it is not the path of the empty key, and no key in it has a dot
or is the text of an integer. What is read from a text always is: a binding made from the text of a binding that was
made from a text has the same path. -/
theorem reread_iff :
    (∀ path : DataPath, ofText path.text = path ↔ path ≠ [.key ""] ∧
      ∀ name, .key name ∈ path → '.' ∉ name.toList ∧ ¬ Text.IsIntegerText name.toList) ∧
    (∀ raw : String, ofText (ofText raw).text = ofText raw) ∧
    ∀ (raw : String) (i i' : Interner), let b := (i.standalone (ofText raw)).1
      (i'.standalone (ofText b.text)).1.path = b.path := by
  have hraw : ∀ raw : String, ofText (ofText raw).text = ofText raw := fun raw => (dottable_ofText raw).ofText_text
  refine ⟨?_, hraw, fun raw _ _ => hraw raw⟩
  intro path
  constructor
  · intro h
    obtain ⟨hne, hdot, hinteger⟩ := h ▸ dottable_ofText path.text
    exact ⟨hne, fun name hmem => ⟨hdot name hmem, hinteger name hmem⟩⟩
  · rintro ⟨hne, hkeys⟩
    exact Dottable.ofText_text ⟨hne, fun name hmem => (hkeys name hmem).1, fun name hmem => (hkeys name hmem).2⟩

/-- One more than the largest index is a key, and pieces between dots may be empty. -/
example : ofText "9223372036854775808..-01" = [.key "9223372036854775808", .key "", .index (-1)] := by decide +kernel

end DataPath

end DataBound
