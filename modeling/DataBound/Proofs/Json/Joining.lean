-- SUMMARY: Writing a value and reading it back changes nothing but repeated keys.
import DataBound.Proofs.Json.Rereading
import DataBound.Proofs.Value

/-!
# Repeated keys in what is read back

A value that does not nest too deep and whose floats are read back from their texts is read back whole: only where an
object repeats a key do its fields become one, with the first place and the last value. So the value that comes back
nests no deeper than the one that was written, and it is the same value if no object in it repeats a key.
-/

namespace DataBound

/-! ## Fields -/

namespace Fields

theorem put_of_not_mem {fields : Fields} {key : String} (h : key ∉ fields.map Prod.fst) (v : Value) :
    put fields key v = fields ++ [(key, v)] := by
  induction fields with
  | nil => rfl
  | cons field rest ih =>
    obtain ⟨k, old⟩ := field
    rw [List.map_cons, List.mem_cons, not_or] at h
    rw [put, update, if_neg (Ne.symm h.1), List.cons_append]
    exact congrArg _ (ih h.2)

theorem keys_put_of_mem {fields : Fields} {key : String} (h : key ∈ fields.map Prod.fst) (v : Value) :
    (put fields key v).map Prod.fst = fields.map Prod.fst := by
  induction fields with
  | nil => cases h
  | cons field rest ih =>
    obtain ⟨k, old⟩ := field
    rw [put, update]
    split
    · rfl
    · rename_i hne
      rw [List.map_cons, List.mem_cons] at h
      exact congrArg (k :: ·) (ih (h.resolve_left fun heq => hne heq.symm))

/-- A repeated key keeps its first place. -/
theorem keys_ofPairs (pairs : List (String × Value)) : (ofPairs pairs).map Prod.fst = (pairs.map Prod.fst).eraseDups := by
  induction pairs using List.reverseRecOn with
  | nil => rfl
  | append_singleton pairs pair ih =>
    obtain ⟨key, v⟩ := pair
    have hmem : key ∈ (ofPairs pairs).map Prod.fst ↔ key ∈ pairs.map Prod.fst := by rw [ih, List.mem_eraseDups]
    rw [ofPairs_concat, List.map_append, List.eraseDups_append, ← ih]
    by_cases hkey : key ∈ pairs.map Prod.fst
    · rw [keys_put_of_mem (hmem.2 hkey)]
      simp [List.removeAll, hkey]
    · rw [put_of_not_mem (mt hmem.1 hkey), List.map_append]
      simp [List.removeAll, hkey, List.eraseDups_cons]

theorem mem_of_mem_ofPairs {pairs : List (String × Value)} {field : String × Value} (h : field ∈ ofPairs pairs) :
    field ∈ pairs := by
  obtain ⟨key, v⟩ := field
  have hfind := find?_of_mem (nodup_keys_ofPairs pairs) h
  rw [find?_ofPairs] at hfind
  exact List.mem_reverse.1 (mem_of_find? hfind)

/-- The fields with each key once: at its first place, with its last value. -/
def joined (pairs : List (String × Value)) : Fields :=
  (pairs.map Prod.fst).eraseDups.map fun key => (key, (find? key pairs.reverse).getD .null)

/-- What becomes of pairs whose keys are repeated. -/
theorem ofPairs_eq_joined (pairs : List (String × Value)) : ofPairs pairs = joined pairs := by
  have hfields : ∀ field ∈ ofPairs pairs, (field.1, (find? field.1 pairs.reverse).getD .null) = field := by
    intro field hfield
    rw [← find?_ofPairs, find?_of_mem (nodup_keys_ofPairs pairs) hfield, Option.getD_some]
  rw [joined, ← keys_ofPairs, List.map_map]
  exact ((List.map_congr_left hfields).trans (List.map_id _)).symm

/-- Keys that are not repeated stay as they are. -/
theorem ofPairs_of_nodup {pairs : List (String × Value)} (h : (pairs.map Prod.fst).Nodup) : ofPairs pairs = pairs := by
  induction pairs using List.reverseRecOn with
  | nil => rfl
  | append_singleton pairs pair ih =>
    obtain ⟨key, v⟩ := pair
    rw [List.map_append, List.nodup_append] at h
    have hpairs := ih h.1
    have hnot : key ∉ pairs.map Prod.fst := fun hmem => h.2.2 _ hmem _ List.mem_cons_self rfl
    rw [ofPairs_concat, hpairs, put_of_not_mem hnot]

end Fields

/-! ## Values -/

mutual

/-- The value with the fields of a repeated key joined, in every object of it. -/
def Value.joined : Value → Value
  | .null => .null
  | .bool flag => .bool flag
  | .number n => .number n
  | .string s => .string s
  | .array items => .array (itemsJoined items)
  | .object fields => .object (Fields.joined (fieldsJoined fields))

/-- The items with repeated keys joined in them. -/
def itemsJoined : List Value → List Value
  | [] => []
  | v :: rest => v.joined :: itemsJoined rest

/-- The fields with repeated keys joined in their values. -/
def fieldsJoined : List (String × Value) → List (String × Value)
  | [] => []
  | (k, v) :: rest => (k, v.joined) :: fieldsJoined rest

end

mutual

/-- Where no key is repeated there is nothing to join. -/
theorem joined_of_keysDiffer : ∀ {v : Value}, v.Throughout Value.KeysDiffer → v.joined = v
  | .null, _ => rfl
  | .bool _, _ => rfl
  | .number _, _ => rfl
  | .string _, _ => rfl
  | .array items, h => by rw [Value.joined, itemsJoined_of_keysDiffer h.2]
  | .object fields, h => by
    rw [Value.joined, fieldsJoined_of_keysDiffer h.2, ← Fields.ofPairs_eq_joined, Fields.ofPairs_of_nodup h.1]

theorem itemsJoined_of_keysDiffer : ∀ {items : List Value}, itemsThroughout Value.KeysDiffer items →
    itemsJoined items = items
  | [], _ => rfl
  | v :: rest, h => by rw [itemsJoined, joined_of_keysDiffer h.1, itemsJoined_of_keysDiffer h.2]

theorem fieldsJoined_of_keysDiffer : ∀ {fields : List (String × Value)}, fieldsThroughout Value.KeysDiffer fields →
    fieldsJoined fields = fields
  | [], _ => rfl
  | (k, v) :: rest, h => by rw [fieldsJoined, joined_of_keysDiffer h.1, fieldsJoined_of_keysDiffer h.2]

end

namespace Json

/-! ## Reading back -/

mutual

/-- What a value is read back as nests no deeper. -/
theorem nesting_le_of_reread? : ∀ {v v' : Value} {room : Nat}, reread? room v = some v' → v'.nesting ≤ v.nesting
  | .null, _, _, h | .bool _, _, _, h | .string _, _, _, h => by
    cases h
    exact Nat.le_refl _
  | .number _, _, _, h => by
    obtain ⟨_, -, rfl⟩ := Option.map_eq_some_iff.1 h
    exact Nat.le_refl _
  | .array items, _, 0, h | .object fields, _, 0, h => by cases h
  | .array items, _, room + 1, h => by
    obtain ⟨items', hitems, rfl⟩ := Option.map_eq_some_iff.1 h
    exact Nat.succ_le_succ (itemsNesting_le_of_rereadItems? hitems)
  | .object fields, _, room + 1, h => by
    obtain ⟨fields', hfields, rfl⟩ := Option.map_eq_some_iff.1 h
    have hjoined : fieldsNesting (Fields.ofPairs fields') ≤ fieldsNesting fields' :=
      fieldsNesting_le fun field hfield => nesting_le_fieldsNesting (Fields.mem_of_mem_ofPairs hfield)
    exact Nat.succ_le_succ (Nat.le_trans hjoined (fieldsNesting_le_of_rereadFields? hfields))

theorem itemsNesting_le_of_rereadItems? : ∀ {items items' : List Value} {room : Nat},
    rereadItems? room items = some items' → itemsNesting items' ≤ itemsNesting items
  | [], _, _, h => by
    cases h
    exact Nat.le_refl _
  | v :: rest, _, room, h => by
    obtain ⟨v', hv, h⟩ := Option.bind_eq_some_iff.1 h
    obtain ⟨rest', hrest, h⟩ := Option.bind_eq_some_iff.1 h
    cases h
    have hv := nesting_le_of_reread? hv
    have hrest := itemsNesting_le_of_rereadItems? hrest
    rw [itemsNesting, itemsNesting]
    omega

theorem fieldsNesting_le_of_rereadFields? : ∀ {fields fields' : List (String × Value)} {room : Nat},
    rereadFields? room fields = some fields' → fieldsNesting fields' ≤ fieldsNesting fields
  | [], _, _, h => by
    cases h
    exact Nat.le_refl _
  | (k, v) :: rest, _, room, h => by
    obtain ⟨v', hv, h⟩ := Option.bind_eq_some_iff.1 h
    obtain ⟨rest', hrest, h⟩ := Option.bind_eq_some_iff.1 h
    cases h
    have hv := nesting_le_of_reread? hv
    have hrest := fieldsNesting_le_of_rereadFields? hrest
    rw [fieldsNesting, fieldsNesting]
    omega

end

/-- A float is read back from its text; other values are not floats. -/
def FloatReread : Value → Prop
  | .number (.float x) => rereadNumber? (.float x) = some (.float x)
  | _ => True

theorem rereadNumber?_of_floatReread {n : Number} (h : FloatReread (.number n)) : rereadNumber? n = some n := by
  cases n with
  | int i hrange => rw [rereadNumber?, number?_numberChars_int, Option.map_some]
  | float x => exact h

mutual

/-- A value that fits into the room is read back with its repeated keys joined. -/
theorem reread?_eq_joined : ∀ {v : Value} {room : Nat}, v.nesting ≤ room → v.Throughout FloatReread →
    reread? room v = some v.joined
  | .null, _, _, _ => by simp only [reread?, Value.joined]
  | .bool _, _, _, _ => by simp only [reread?, Value.joined]
  | .number n, _, _, h => by
    have hn : FloatReread (.number n) := h
    simp only [reread?, rereadNumber?_of_floatReread hn, Option.map_some, Value.joined]
  | .string _, _, _, _ => by simp only [reread?, Value.joined]
  | .array items, 0, hroom, _ => absurd hroom (Nat.not_succ_le_zero _)
  | .array items, room + 1, hroom, h => by
    rw [reread?, rereadItems?_eq_joined (Nat.le_of_succ_le_succ hroom) h.2, Option.map_some, Value.joined]
  | .object fields, 0, hroom, _ => absurd hroom (Nat.not_succ_le_zero _)
  | .object fields, room + 1, hroom, h => by
    rw [reread?, rereadFields?_eq_joined (Nat.le_of_succ_le_succ hroom) h.2, Option.map_some, Value.joined,
      Fields.ofPairs_eq_joined]

theorem rereadItems?_eq_joined : ∀ {items : List Value} {room : Nat}, itemsNesting items ≤ room →
    itemsThroughout FloatReread items → rereadItems? room items = some (itemsJoined items)
  | [], _, _, _ => rfl
  | v :: rest, room, hroom, h => by
    obtain ⟨hv, hrest⟩ := Nat.max_le.1 hroom
    rw [rereadItems?, reread?_eq_joined hv h.1, rereadItems?_eq_joined hrest h.2]
    rfl

theorem rereadFields?_eq_joined : ∀ {fields : List (String × Value)} {room : Nat}, fieldsNesting fields ≤ room →
    fieldsThroughout FloatReread fields → rereadFields? room fields = some (fieldsJoined fields)
  | [], _, _, _ => rfl
  | (k, v) :: rest, room, hroom, h => by
    obtain ⟨hv, hrest⟩ := Nat.max_le.1 hroom
    rw [rereadFields?, reread?_eq_joined hv h.1, rereadFields?_eq_joined hrest h.2]
    rfl

end

end Json

end DataBound
