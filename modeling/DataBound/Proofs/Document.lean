-- SUMMARY: Where a write comes down in a document, and what is read there afterwards.
import DataBound.Document

/-!
# Writes in documents

A write goes down one segment at a time. `reached?` is the value that it comes to in one step, null if nothing is there
yet; there is none where the write gives up. A path that can be walked to its end is read back as it was written, and
what is written below it changes the value there and nothing above.
-/

namespace DataBound

namespace Fields

theorem find?_update (key : String) (change : Value → Value) (fields : Fields) :
    find? key (update key change fields) = some (change ((find? key fields).getD .null)) := by
  induction fields with
  | nil => simp [update, find?]
  | cons field rest ih =>
    obtain ⟨k, v⟩ := field
    by_cases h : k = key
    · simp [update, find?, h]
    · simpa [update, find?, h] using ih

theorem find?_update_of_ne {key other : String} (h : other ≠ key) (change : Value → Value) (fields : Fields) :
    find? other (update key change fields) = find? other fields := by
  induction fields with
  | nil => simp [update, find?, Ne.symm h]
  | cons field rest ih =>
    obtain ⟨k, v⟩ := field
    by_cases hk : k = key
    · subst hk
      simp [update, find?, Ne.symm h]
    · simp only [update, if_neg hk, find?, ih]

theorem mem_keys_update {key other : String} {change : Value → Value} {fields : Fields} :
    other ∈ (update key change fields).map Prod.fst ↔ other = key ∨ other ∈ fields.map Prod.fst := by
  induction fields with
  | nil => simp [update]
  | cons field rest ih =>
    obtain ⟨k, v⟩ := field
    by_cases hk : k = key
    · simp [update, hk]
    · simp only [update, if_neg hk, List.map_cons, List.mem_cons, ih]
      exact or_left_comm

theorem nodup_keys_update {key : String} {change : Value → Value} {fields : Fields}
    (h : (fields.map Prod.fst).Nodup) : ((update key change fields).map Prod.fst).Nodup := by
  induction fields with
  | nil => simp [update]
  | cons field rest ih =>
    obtain ⟨k, v⟩ := field
    obtain ⟨hnot, hrest⟩ := List.nodup_cons.1 h
    by_cases hk : k = key
    · simpa [update, hk] using h
    · simp only [update, if_neg hk, List.map_cons, List.nodup_cons, mem_keys_update, not_or]
      exact ⟨⟨hk, hnot⟩, ih hrest⟩

theorem mem_of_find? {key : String} {v : Value} {fields : Fields} (h : find? key fields = some v) :
    (key, v) ∈ fields := by
  induction fields with
  | nil => cases h
  | cons field rest ih =>
    obtain ⟨k, w⟩ := field
    by_cases hk : k = key
    · rw [find?, if_pos hk, Option.some.injEq] at h
      exact hk ▸ h ▸ List.mem_cons_self
    · rw [find?, if_neg hk] at h
      exact List.mem_cons_of_mem _ (ih h)

theorem find?_eq_none {key : String} {fields : Fields} (h : key ∉ fields.map Prod.fst) : find? key fields = none := by
  cases hfind : find? key fields with
  | none => rfl
  | some v => exact absurd (List.mem_map_of_mem (mem_of_find? hfind)) h

theorem find?_of_mem {key : String} {v : Value} {fields : Fields} (hnodup : (fields.map Prod.fst).Nodup)
    (h : (key, v) ∈ fields) : find? key fields = some v := by
  induction fields with
  | nil => cases h
  | cons field rest ih =>
    obtain ⟨k, w⟩ := field
    obtain ⟨hnot, hrest⟩ := List.nodup_cons.1 hnodup
    rcases List.mem_cons.1 h with heq | hmem
    · cases heq
      exact if_pos rfl
    · have hne : k ≠ key := by
        rintro rfl
        exact hnot (List.mem_map.2 ⟨_, hmem, rfl⟩)
      rw [find?, if_neg hne]
      exact ih hrest hmem

end Fields

namespace Value

/-- The value that a write comes to in one step. -/
def reached? (old : Value) (s : Segment) : Option Value :=
  match if old.isNull then containerFor s else old with
  | .object fields => some ((Fields.find? s.text fields).getD .null)
  | .array items => s.position?.map fun i => items[i]?.getD .null
  | _ => none

/-- A write at the path goes down to its end. -/
def Walks : DataPath → Value → Prop
  | [], _ => True
  | s :: rest, old => ∃ next, old.reached? s = some next ∧ Walks rest next

variable {old next new : Value} {s : Segment} {path rest : DataPath}

/-! ## One step -/

theorem getElem?_padded (items : List Value) (i : Nat) :
    (padded items (i + 1))[i]? = some (items[i]?.getD .null) := by
  unfold padded
  by_cases h : i < items.length
  · rw [List.getElem?_append_left h, List.getElem?_eq_getElem h, Option.getD_some]
  · have hlen : items.length ≤ i := Nat.le_of_not_lt h
    rw [List.getElem?_append_right hlen, List.getElem?_eq_none hlen, List.getElem?_replicate]
    have hlt : i - items.length < i + 1 - items.length := by omega
    rw [if_pos hlt, Option.getD_none]

theorem child?_of_reached (h : old.reached? s = some next) : (old.child? s).getD .null = next := by
  unfold reached? at h
  cases old with
  | null =>
    cases s with
    | index i =>
      obtain ⟨p, -, rfl⟩ := Option.map_eq_some_iff.1 h
      rfl
    | key name => exact Option.some.inj h
  | object fields => exact Option.some.inj h
  | array items =>
    obtain ⟨i, hi, hnext⟩ := Option.map_eq_some_iff.1 h
    rw [child?, hi]
    exact hnext
  | bool flag => cases h
  | number n => cases h
  | string text => cases h

theorem reached_of_child? (h : old.child? s = some next) : old.reached? s = some next := by
  cases old with
  | object fields =>
    rw [child?] at h
    simp [reached?, isNull, h]
  | array items =>
    obtain ⟨i, hi, hnext⟩ := Option.bind_eq_some_iff.1 h
    simp [reached?, isNull, hi, hnext]
  | null => cases h
  | bool flag => cases h
  | number n => cases h
  | string text => cases h

theorem child?_set_cons (h : old.reached? s = some next) :
    (set (s :: rest) new old).child? s = some (set rest new next) := by
  unfold reached? at h
  rw [set]
  generalize (if old.isNull then containerFor s else old) = container at h ⊢
  cases container with
  | object fields =>
    simp only [child?, Fields.find?_update]
    rw [Option.some.inj h]
  | array items =>
    obtain ⟨i, hi, hnext⟩ := Option.map_eq_some_iff.1 h
    simp only [hi, child?, Option.bind_some, List.getElem?_modify_eq, getElem?_padded, hnext]
    rfl
  | null => cases h
  | bool flag => cases h
  | number n => cases h
  | string text => cases h

/-! ## Whole paths -/

theorem walks_of_get? (h : old.get? path = some next) : old.Walks path := by
  induction path generalizing old with
  | nil => trivial
  | cons s path ih =>
    rw [get?_cons] at h
    obtain ⟨child, hchild, hnext⟩ := Option.bind_eq_some_iff.1 h
    exact ⟨child, reached_of_child? hchild, ih hnext⟩

theorem walks_of_append (h : old.Walks (path ++ rest)) : old.Walks path := by
  induction path generalizing old with
  | nil => trivial
  | cons s path ih =>
    obtain ⟨next, hnext, hwalks⟩ := h
    exact ⟨next, hnext, ih hwalks⟩

/-- A write below a path changes the value at the path as a write in that value does. -/
theorem get?_set_append (h : old.Walks path) :
    (set (path ++ rest) new old).get? path = some (set rest new ((old.get? path).getD .null)) := by
  induction path generalizing old with
  | nil => simp
  | cons s path ih =>
    obtain ⟨next, hnext, hwalks⟩ := h
    rw [List.cons_append, get?_cons, child?_set_cons hnext, Option.bind_some, ih hwalks, get?_cons]
    have hchild := child?_of_reached hnext
    cases hold : old.child? s with
    | some child =>
      rw [hold, Option.getD_some] at hchild
      rw [hchild, Option.bind_some]
    | none =>
      -- the write makes a container of the null that stands for the missing child
      rw [hold, Option.getD_none] at hchild
      subst hchild
      cases path with
      | nil => rfl
      | cons t path => rfl

end Value

end DataBound
