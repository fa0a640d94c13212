-- SUMMARY: Substituting in the text of a template body is substituting in the body.
import DataBound.Proofs.Json.Joining
import DataBound.Proofs.View.Copies

/-!
# Substitution in bodies

A copy is made by way of a text, but it can be told without it: the index stands for the marker in every string and key of
the body, and keys that become equal are joined. Numbers, flags and the structure of the body are not touched, so the copy
is as deep as the body unless a deeper value is lost with its key.
-/

namespace DataBound

mutual

@[simp] theorem nesting_mapTexts (f : String → String) : ∀ v : Value, (v.mapTexts f).nesting = v.nesting
  | .null => rfl
  | .bool _ => rfl
  | .number _ => rfl
  | .string _ => rfl
  | .array items => congrArg (· + 1) (itemsNesting_mapTexts f items)
  | .object fields => congrArg (· + 1) (fieldsNesting_mapTexts f fields)

theorem itemsNesting_mapTexts (f : String → String) : ∀ items : List Value,
    itemsNesting (itemsMapTexts f items) = itemsNesting items
  | [] => rfl
  | v :: rest => by
    rw [itemsMapTexts, itemsNesting, itemsNesting, nesting_mapTexts f v, itemsNesting_mapTexts f rest]

theorem fieldsNesting_mapTexts (f : String → String) : ∀ fields : List (String × Value),
    fieldsNesting (fieldsMapTexts f fields) = fieldsNesting fields
  | [] => rfl
  | (k, v) :: rest => by
    rw [fieldsMapTexts, fieldsNesting, fieldsNesting, nesting_mapTexts f v, fieldsNesting_mapTexts f rest]

end

mutual

/-- What does not depend on strings and keys still holds throughout when they are changed. -/
theorem throughout_mapTexts {p : Value → Prop} {f : String → String} (hp : ∀ v, p v → p (v.mapTexts f)) :
    ∀ {v : Value}, v.Throughout p → (v.mapTexts f).Throughout p
  | .null, h => hp .null h
  | .bool flag, h => hp (.bool flag) h
  | .number n, h => hp (.number n) h
  | .string s, h => hp (.string s) h
  | .array items, h => ⟨hp (.array items) h.1, itemsThroughout_mapTexts hp h.2⟩
  | .object fields, h => ⟨hp (.object fields) h.1, fieldsThroughout_mapTexts hp h.2⟩

theorem itemsThroughout_mapTexts {p : Value → Prop} {f : String → String} (hp : ∀ v, p v → p (v.mapTexts f)) :
    ∀ {items : List Value}, itemsThroughout p items → itemsThroughout p (itemsMapTexts f items)
  | [], _ => trivial
  | _ :: _, h => ⟨throughout_mapTexts hp h.1, itemsThroughout_mapTexts hp h.2⟩

theorem fieldsThroughout_mapTexts {p : Value → Prop} {f : String → String} (hp : ∀ v, p v → p (v.mapTexts f)) :
    ∀ {fields : List (String × Value)}, fieldsThroughout p fields → fieldsThroughout p (fieldsMapTexts f fields)
  | [], _ => trivial
  | (_, _) :: _, h => ⟨throughout_mapTexts hp h.1, fieldsThroughout_mapTexts hp h.2⟩

end

namespace Json

theorem FloatReread.mapTexts {v : Value} (h : FloatReread v) (f : String → String) : FloatReread (v.mapTexts f) := by
  cases v with
  | number n => exact h
  | _ => trivial

end Json

namespace View.Template

open Json Text

/-- An index stands for the leftmost markers that do not overlap. -/
theorem replaced_fill (depth index : Nat) (s : String) :
    Replaced (marker depth).toList (toString index).toList s.toList (fill depth index s).toList := by
  obtain ⟨tail, hmarker, -⟩ := exists_marker_eq depth
  rw [fill, String.toList_ofList, hmarker, replaced_iff]

/-- A body that does not nest too deep is copied as a value, without a text in between. -/
theorem copy?_eq_joined {body : Value} (hnesting : body.nesting ≤ nestingLimit) (hfloats : body.Throughout FloatReread)
    (item : TemplateItem) : copy? ∅ body item = some (body.mapTexts (fill item.depth item.index)).joined := by
  rw [copy?_eq]
  apply reread?_eq_joined
  · rwa [nesting_mapTexts]
  · exact throughout_mapTexts (fun _ h => h.mapTexts _) hfloats

/-- A copy nests no deeper than the body, whether its text is read back as it was written or not. -/
theorem nesting_le_of_copy? {body copy : Value} {item : TemplateItem} (h : copy? ∅ body item = some copy) :
    copy.nesting ≤ body.nesting := by
  rw [copy?_eq] at h
  have hle := nesting_le_of_reread? h
  rwa [nesting_mapTexts] at hle

/-- Substituting in the text of a body is substituting in the body. Without handlers every body that nests at most 127
deep, and whose floats are read back from their texts, has a copy for every item: the body with the leftmost markers in
each string and each key replaced by the index, and with keys that become equal joined. The copy nests no deeper than
the body. If no keys of an object become equal, nothing else is changed, and the copy nests as deep as the body. -/
theorem copy?_substitutes (body : Value) (item : TemplateItem) (hnesting : body.nesting ≤ 127)
    (hfloats : body.Throughout FloatReread) :
    ∃ f : String → String,
      (∀ s, Replaced (marker item.depth).toList (toString item.index).toList s.toList (f s).toList) ∧
      copy? ∅ body item = some (body.mapTexts f).joined ∧ (body.mapTexts f).joined.nesting ≤ body.nesting ∧
      ((body.mapTexts f).Throughout Value.KeysDiffer →
        (body.mapTexts f).joined = body.mapTexts f ∧ (body.mapTexts f).joined.nesting = body.nesting) := by
  refine ⟨fill item.depth item.index, replaced_fill _ _, copy?_eq_joined hnesting hfloats item, ?_, ?_⟩
  · exact nesting_le_of_copy? (copy?_eq_joined hnesting hfloats item)
  · intro hkeys
    rw [joined_of_keysDiffer hkeys]
    exact ⟨rfl, nesting_mapTexts _ body⟩

/-- A body with markers in strings and in a key, and with a float, at the item 12. -/
theorem copy?_substitutes_item :
    let half : Binary64 := ⟨false, 0x3FE0_0000_0000_0000, by decide⟩
    let body : Value := .object [("id", .string "item-_index_"), ("share", .number (.float half)),
      ("rows", .array [.object [("row_index_", .null)]])]
    let item : TemplateItem := ⟨12, .null, 0⟩
    body.nesting ≤ 127 ∧ body.Throughout FloatReread ∧
    ∃ f : String → String,
      (∀ s, Replaced (marker item.depth).toList (toString item.index).toList s.toList (f s).toList) ∧
      copy? ∅ body item = some (body.mapTexts f).joined ∧ (body.mapTexts f).joined.nesting ≤ body.nesting ∧
      ((body.mapTexts f).Throughout Value.KeysDiffer →
        (body.mapTexts f).joined = body.mapTexts f ∧ (body.mapTexts f).joined.nesting = body.nesting) := by
  intro half body item
  have hnesting : body.nesting ≤ 127 := by decide
  have hhalf : rereadNumber? (.float half) = some (.float half) := by decide +kernel
  have hfloats : body.Throughout FloatReread :=
    ⟨trivial, trivial, hhalf, ⟨trivial, ⟨trivial, trivial, trivial⟩, trivial⟩, trivial⟩
  exact ⟨hnesting, hfloats, copy?_substitutes body item hnesting hfloats⟩

/-- Where a key becomes equal to a later one, its value is lost, and the copy can nest less deep than the body. -/
theorem copy?_nests_less :
    let body : Value := .object [("_index_", .object [("a", .bool true)]), ("0", .bool true)]
    let item : TemplateItem := ⟨0, .null, 0⟩
    body.nesting ≤ 127 ∧ body.Throughout FloatReread ∧
      copy? ∅ body item = some (.object [("0", .bool true)]) ∧
      (Value.object [("0", .bool true)]).nesting ≠ body.nesting := by
  intro body item
  have hnesting : body.nesting ≤ nestingLimit := by decide
  have hfloats : body.Throughout FloatReread := ⟨trivial, ⟨trivial, trivial, trivial⟩, trivial, trivial⟩
  have hindex : fill 0 0 "_index_" = "0" := by decide +kernel
  have hzero : fill 0 0 "0" = "0" := by decide +kernel
  have hcopy := copy?_eq_joined hnesting hfloats item
  simp only [body, item, Value.mapTexts, fieldsMapTexts, hindex, hzero] at hcopy
  refine ⟨hnesting, hfloats, hcopy.trans ?_, by decide⟩
  simp [Value.joined, fieldsJoined, Fields.joined, List.eraseDups_cons, Fields.find?]

end View.Template

end DataBound
