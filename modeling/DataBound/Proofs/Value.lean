-- SUMMARY: Values as trees: how deep they nest, and what holds throughout them.
import DataBound.Value

/-!
# Values as trees

Arrays and objects nest; the nesting of a value bounds that of everything in it. A condition can be asked of a value
throughout, that is, of the value and of every value in it.
-/

namespace DataBound

/-! ## Nesting -/

mutual

/-- How deep containers nest in a value; primitives do not. -/
def Value.nesting : Value → Nat
  | .object fields => fieldsNesting fields + 1
  | .array items => itemsNesting items + 1
  | _ => 0

/-- How deep containers nest in fields. -/
def fieldsNesting : List (String × Value) → Nat
  | [] => 0
  | (_, v) :: rest => max v.nesting (fieldsNesting rest)

/-- How deep containers nest in items. -/
def itemsNesting : List Value → Nat
  | [] => 0
  | v :: rest => max v.nesting (itemsNesting rest)

end

theorem nesting_le_fieldsNesting {fields : Fields} {field : String × Value} (h : field ∈ fields) :
    field.2.nesting ≤ fieldsNesting fields := by
  induction fields with
  | nil => cases h
  | cons first rest ih =>
    rw [fieldsNesting]
    rcases List.mem_cons.1 h with rfl | h
    · exact Nat.le_max_left _ _
    · exact Nat.le_trans (ih h) (Nat.le_max_right _ _)

theorem nesting_le_itemsNesting {items : List Value} {v : Value} (h : v ∈ items) :
    v.nesting ≤ itemsNesting items := by
  induction items with
  | nil => cases h
  | cons first rest ih =>
    rw [itemsNesting]
    rcases List.mem_cons.1 h with rfl | h
    · exact Nat.le_max_left _ _
    · exact Nat.le_trans (ih h) (Nat.le_max_right _ _)

theorem fieldsNesting_le {fields : Fields} {n : Nat} (h : ∀ field ∈ fields, field.2.nesting ≤ n) :
    fieldsNesting fields ≤ n := by
  induction fields with
  | nil => exact Nat.zero_le n
  | cons field rest ih =>
    obtain ⟨hfield, hrest⟩ := List.forall_mem_cons.1 h
    exact Nat.max_le.2 ⟨hfield, ih hrest⟩

/-! ## Conditions throughout a value -/

mutual

/-- Such is the value, and so is every value in it. -/
def Value.Throughout (p : Value → Prop) : Value → Prop
  | .null => p .null
  | .bool flag => p (.bool flag)
  | .number n => p (.number n)
  | .string s => p (.string s)
  | .array items => p (.array items) ∧ itemsThroughout p items
  | .object fields => p (.object fields) ∧ fieldsThroughout p fields

/-- Such are the items throughout. -/
def itemsThroughout (p : Value → Prop) : List Value → Prop
  | [] => True
  | v :: rest => v.Throughout p ∧ itemsThroughout p rest

/-- Such are the values of the fields throughout. -/
def fieldsThroughout (p : Value → Prop) : List (String × Value) → Prop
  | [] => True
  | (_, v) :: rest => v.Throughout p ∧ fieldsThroughout p rest

end

mutual

/-- Whether a condition holds throughout a value can be decided where the condition can. -/
def Value.decideThroughout (p : Value → Prop) [DecidablePred p] : (v : Value) → Decidable (v.Throughout p)
  | .null => inferInstanceAs (Decidable (p .null))
  | .bool flag => inferInstanceAs (Decidable (p (.bool flag)))
  | .number n => inferInstanceAs (Decidable (p (.number n)))
  | .string s => inferInstanceAs (Decidable (p (.string s)))
  | .array items =>
    have := decideItemsThroughout p items
    inferInstanceAs (Decidable (p (.array items) ∧ itemsThroughout p items))
  | .object fields =>
    have := decideFieldsThroughout p fields
    inferInstanceAs (Decidable (p (.object fields) ∧ fieldsThroughout p fields))

/-- The same for the items of an array. -/
def decideItemsThroughout (p : Value → Prop) [DecidablePred p] : (items : List Value) → Decidable (itemsThroughout p items)
  | [] => isTrue trivial
  | v :: rest =>
    have := v.decideThroughout p
    have := decideItemsThroughout p rest
    inferInstanceAs (Decidable (v.Throughout p ∧ itemsThroughout p rest))

/-- The same for the fields of an object. -/
def decideFieldsThroughout (p : Value → Prop) [DecidablePred p] :
    (fields : List (String × Value)) → Decidable (fieldsThroughout p fields)
  | [] => isTrue trivial
  | (_, v) :: rest =>
    have := v.decideThroughout p
    have := decideFieldsThroughout p rest
    inferInstanceAs (Decidable (v.Throughout p ∧ fieldsThroughout p rest))

end

instance (p : Value → Prop) [DecidablePred p] : DecidablePred (Value.Throughout p) := Value.decideThroughout p

section

variable {p : Value → Prop}

theorem Value.Throughout.self {v : Value} (h : v.Throughout p) : p v := by
  cases v with
  | array items => exact h.1
  | object fields => exact h.1
  | _ => exact h

theorem Value.Throughout.item {items : List Value} (h : (Value.array items).Throughout p) {v : Value} (hv : v ∈ items) :
    v.Throughout p := by
  have hitems := h.2
  clear h
  induction items with
  | nil => cases hv
  | cons first rest ih =>
    rcases List.mem_cons.1 hv with rfl | hv
    · exact hitems.1
    · exact ih hv hitems.2

theorem Value.Throughout.field {fields : Fields} (h : (Value.object fields).Throughout p) {field : String × Value}
    (hfield : field ∈ fields) : field.2.Throughout p := by
  have hfields := h.2
  clear h
  induction fields with
  | nil => cases hfield
  | cons first rest ih =>
    rcases List.mem_cons.1 hfield with rfl | hfield
    · exact hfields.1
    · exact ih hfield hfields.2

end

/-- An object has no key twice; other values have no keys. -/
def Value.KeysDiffer : Value → Prop
  | .object fields => (fields.map Prod.fst).Nodup
  | _ => True

end DataBound
