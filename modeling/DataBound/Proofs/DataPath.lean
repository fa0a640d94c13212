-- SUMMARY: When a data path can be read back from its dotted text.
import DataBound.Proofs.Segment
import DataBound.Proofs.Text.Pieces

/-!
# Data paths and their texts

The text of an index spells that index, so a segment that was read from a text is read back from its own. A path is
read back from its dotted text if this holds of each of its segments, and none of them is empty or has a dot in its text.
-/

namespace DataBound

/-! ## Integers -/

theorem Text.of_mem_intRepr {c : Char} {i : Int} (h : c ∈ (toString i).toList) : c.isDigit = true ∨ c = '-' := by
  cases hdigit : c.isDigit with
  | true => exact .inl rfl
  | false =>
    refine .inr (Decidable.byContradiction fun hminus => ?_)
    exact not_mem_intRepr hdigit hminus i h

theorem Text.intRepr_ne_nil (i : Int) : (toString i).toList ≠ [] := by
  rw [Int.toString_eq_repr, Int.repr_eq_if]
  split
  · rw [Nat.toList_repr]
    exact Nat.toDigits_ne_nil
  · rw [String.toList_append]
    exact List.append_ne_nil_of_left_ne_nil (by decide) _

/-- Writing an integer in decimal and reading it gives it back. -/
theorem Text.signed?_intRepr (i : Int) : signed? (toString i).toList = some i := by
  rw [Int.toString_eq_repr, Int.repr_eq_if]
  split
  · rename_i hi
    rw [Nat.toList_repr]
    unfold signed?
    split
    · rename_i cs hcs
      have hminus : '-' ∈ Nat.toDigits 10 i.toNat := hcs ▸ List.mem_cons_self
      exact absurd (Nat.isDigit_of_mem_toDigits (by decide) (by decide) hminus) (by decide)
    · rw [digits?_toDigits]
      exact congrArg some (Int.toNat_of_nonneg hi)
  · rename_i hi
    have hcs : ("-" ++ (-i).toNat.repr).toList = '-' :: Nat.toDigits 10 (-i).toNat := by
      rw [String.toList_append, Nat.toList_repr]
      rfl
    rw [hcs, signed?, digits?_toDigits]
    exact congrArg some (by omega : -((-i).toNat : Int) = i)

namespace Segment

theorem index?_text_index (position : Int64) : index? (index position).text = some position := by
  have hrange : -0x8000_0000_0000_0000 ≤ position.toInt ∧ position.toInt < 0x8000_0000_0000_0000 :=
    ⟨position.le_toInt, position.toInt_lt⟩
  rw [index?, text, Text.signed?_intRepr, Option.bind_some, if_pos hrange, Int64.ofInt_toInt]

theorem ofText_text_index (position : Int64) : ofText (index position).text = .index position := by
  rw [ofText, index?_text_index]

theorem ofText_of_index?_eq_none {name : String} (h : index? name = none) : ofText name = .key name := by
  rw [ofText, h]

/-- The segment can be read back from its text wherever that stands between dots. -/
structure Rereads (s : Segment) : Prop where
  ofText_text : ofText s.text = s
  ne_nil : s.text.toList ≠ []
  not_mem : '.' ∉ s.text.toList

theorem rereads_index (position : Int64) : Rereads (.index position) where
  ofText_text := ofText_text_index position
  ne_nil := Text.intRepr_ne_nil _
  not_mem := Text.not_mem_intRepr (by decide) (by decide) _

theorem rereads_key {name : String} (hindex : index? name = none) (hne : name.toList ≠ []) (hdot : '.' ∉ name.toList) :
    Rereads (.key name) where
  ofText_text := ofText_of_index?_eq_none hindex
  ne_nil := hne
  not_mem := hdot

theorem rereads_ofText {raw : String} (hne : raw.toList ≠ []) (hdot : '.' ∉ raw.toList) : Rereads (ofText raw) := by
  cases h : index? raw with
  | some position =>
    rw [ofText, h]
    exact rereads_index position
  | none =>
    rw [ofText_of_index?_eq_none h]
    exact rereads_key h hne hdot

end Segment

namespace DataPath

/-- Texts without dots are the pieces of the text that they make with dots between them, unless that is empty. -/
theorem ofText_join {names : List String} (hne : names ≠ []) (hempty : names ≠ [""])
    (h : ∀ name ∈ names, '.' ∉ name.toList) :
    ofText (String.ofList (List.intercalate ['.'] (names.map String.toList))) = names.map Segment.ofText := by
  have hpieces : List.splitOn '.' (List.intercalate ['.'] (names.map String.toList)) = names.map String.toList :=
    List.splitOn_intercalate '.' (List.forall_mem_map.2 h) fun hnil => hne (List.map_eq_nil_iff.1 hnil)
  have hsome : (String.ofList (List.intercalate ['.'] (names.map String.toList))).isEmpty = false := by
    rw [Bool.eq_false_iff, ne_eq, String.isEmpty_iff, String.ofList_eq_empty_iff]
    intro hjoin
    rw [hjoin] at hpieces
    -- the empty text has one piece, and that is empty
    obtain ⟨name, rfl, hname⟩ := List.map_eq_singleton_iff.1 hpieces.symm
    exact hempty (congrArg ([·]) (String.toList_eq_nil_iff.1 hname))
  rw [ofText, hsome, String.toList_ofList, hpieces, List.map_map]
  exact List.map_congr_left fun name _ => congrArg Segment.ofText String.ofList_toList

variable {path : DataPath}

/-- A path is read back from its text if its segments are. -/
theorem ofText_text (h : ∀ s ∈ path, s.Rereads) : ofText path.text = path := by
  by_cases hne : path = []
  · rw [hne]
    rfl
  · have hnames : path.map Segment.text ≠ [] := fun hnil => hne (List.map_eq_nil_iff.1 hnil)
    have hempty : path.map Segment.text ≠ [""] := by
      intro hsingle
      obtain ⟨s, rfl, hs⟩ := List.map_eq_singleton_iff.1 hsingle
      exact (h s List.mem_cons_self).ne_nil (congrArg String.toList hs)
    have hread := ofText_join hnames hempty (List.forall_mem_map.2 fun s hs => (h s hs).not_mem)
    rw [List.map_map, List.map_map] at hread
    refine hread.trans ((List.map_congr_left fun s hs => ?_).trans (List.map_id path))
    exact (h s hs).ofText_text

theorem text_eq_empty_iff (h : ∀ s ∈ path, s.Rereads) : path.text = "" ↔ path = [] := by
  constructor
  · intro htext
    rw [← ofText_text h, htext]
    rfl
  · rintro rfl
    rfl

end DataPath

end DataBound
