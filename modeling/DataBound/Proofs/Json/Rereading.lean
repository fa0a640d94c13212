-- SUMMARY: What comes of a value that is written as JSON text and read back.
import DataBound.Proofs.Document
import DataBound.Proofs.Json.Replacing

/-!
# Writing and reading back

A value that is written and read back need not be the same one: floats may move, repeated keys are joined, and what nests
too deep is not read. What comes of it is said here value by value, without the text in between.
-/

namespace DataBound

/-! ## Repeated keys -/

namespace Fields

theorem ofPairs_concat (pairs : List (String × Value)) (key : String) (v : Value) :
    ofPairs (pairs ++ [(key, v)]) = put (ofPairs pairs) key v := List.foldl_concat _ _ _ _

/-- Of a repeated key the last value counts. -/
theorem find?_ofPairs (key : String) (pairs : List (String × Value)) :
    find? key (ofPairs pairs) = find? key pairs.reverse := by
  induction pairs using List.reverseRecOn with
  | nil => rfl
  | append_singleton pairs pair ih =>
    obtain ⟨k, v⟩ := pair
    rw [ofPairs_concat, List.reverse_concat, find?]
    split
    · rename_i hk
      rw [hk, find?_put_self]
    · rename_i hk
      rw [put, find?_update_of_ne (Ne.symm hk), ih]

theorem nodup_keys_ofPairs (pairs : List (String × Value)) : ((ofPairs pairs).map Prod.fst).Nodup := by
  induction pairs using List.reverseRecOn with
  | nil => exact List.nodup_nil
  | append_singleton pairs pair ih =>
    obtain ⟨key, v⟩ := pair
    rw [ofPairs_concat]
    exact nodup_keys_update ih

theorem find?_reverse {fields : Fields} (h : (fields.map Prod.fst).Nodup) (key : String) :
    find? key fields.reverse = find? key fields := by
  have hreverse : (fields.reverse.map Prod.fst).Nodup := by
    rw [List.map_reverse]
    exact (List.reverse_perm _).nodup_iff.2 h
  cases hfind : find? key fields with
  | some v => exact find?_of_mem hreverse (List.mem_reverse.2 (mem_of_find? hfind))
  | none =>
    cases hfind' : find? key fields.reverse with
    | none => rfl
    | some v =>
      have hmem := find?_of_mem h (List.mem_reverse.1 (mem_of_find? hfind'))
      rw [hfind] at hmem
      cases hmem

/-- Fields that are changed one by one keep what is found under a key that no other key is changed into. -/
theorem find?_rel {Rel : Value → Value → Prop} {rename : String → String} {fields changed : Fields} {key : String}
    (hkey : ∀ k, rename k = key ↔ k = key)
    (h : List.Forall₂ (fun field field' => field'.1 = rename field.1 ∧ Rel field.2 field'.2) fields changed) :
    Option.Rel Rel (find? key fields) (find? key changed) := by
  induction h with
  | nil => exact .none
  | @cons field field' rest rest' hfield _ ih =>
    obtain ⟨k, v⟩ := field
    obtain ⟨k', v'⟩ := field'
    obtain ⟨rfl, hv⟩ := hfield
    rw [find?, find?]
    by_cases hk : k = key
    · rw [if_pos hk, if_pos ((hkey k).2 hk)]
      exact .some hv
    · rw [if_neg hk, if_neg fun h => hk ((hkey k).1 h)]
      exact ih

end Fields

namespace Json

open DataBound.Path (NotAhead notAhead_nil notAhead_cons)

/-! ## What comes back -/

/-- What a number is read back as. -/
def rereadNumber? (n : Number) : Option Number := (number? (numberChars n)).map Prod.fst

mutual

/-- What a value is read back as where arrays and objects may nest `room` deep. -/
def reread? : (room : Nat) → Value → Option Value
  | _, .null => some .null
  | _, .bool flag => some (.bool flag)
  | _, .number n => (rereadNumber? n).map .number
  | _, .string s => some (.string s)
  | 0, .array _ => none
  | 0, .object _ => none
  | room + 1, .array items => (rereadItems? room items).map .array
  | room + 1, .object fields => (rereadFields? room fields).map fun fields => .object (Fields.ofPairs fields)

/-- What the items of an array are read back as. -/
def rereadItems? : (room : Nat) → List Value → Option (List Value)
  | _, [] => some []
  | room, v :: rest => do
    let v ← reread? room v
    let rest ← rereadItems? room rest
    pure (v :: rest)

/-- What the fields of an object are read back as, before repeated keys are joined. -/
def rereadFields? : (room : Nat) → List (String × Value) → Option (List (String × Value))
  | _, [] => some []
  | room, (k, v) :: rest => do
    let v ← reread? room v
    let rest ← rereadFields? room rest
    pure ((k, v) :: rest)

end

/-! ## Strings -/

theorem hexValue?_hexDigit {n : Nat} (h : n < 16) : Text.hexValue? (hexDigit n) = some n := by
  have hall : ∀ n : Fin 16, Text.hexValue? (hexDigit n) = some n.val := by decide
  exact hall ⟨n, h⟩

theorem unicodeEscape?_control {c : Char} (h : c.toNat < 0x20) (rest : List Char) :
    unicodeEscape? ('0' :: '0' :: hexDigit (c.toNat / 16) :: hexDigit (c.toNat % 16) :: rest) = some (c, rest) := by
  have hzero : Text.hexValue? '0' = some 0 := by decide
  have hquad : hexQuad? ('0' :: '0' :: hexDigit (c.toNat / 16) :: hexDigit (c.toNat % 16) :: rest) =
      some (c.toNat, rest) := by
    have hnumber : ((0 * 16 + 0) * 16 + c.toNat / 16) * 16 + c.toNat % 16 = c.toNat := by omega
    simp only [hexQuad?, hzero, hexValue?_hexDigit (show c.toNat / 16 < 16 by omega),
      hexValue?_hexDigit (show c.toNat % 16 < 16 by omega), Option.bind_eq_bind, Option.bind_some, hnumber]
    rfl
  rw [unicodeEscape?, hquad]
  simp only [Option.bind_eq_bind, Option.bind_some]
  rw [if_neg (by omega), if_neg (by omega), Char.ofNat_toNat]
  rfl

/-- A character is read back from its escape. -/
theorem unit?_escape (c : Char) (rest : List Char) : unit? (escape c ++ rest) = some (c, rest) := by
  unfold escape
  split
  · rename_i hc
    rw [hc]
    rfl
  split
  · rename_i hc
    rw [hc]
    rfl
  split
  · rename_i hc
    rw [hc]
    rfl
  split
  · rename_i hc
    rw [hc]
    rfl
  split
  · rename_i hc
    rw [hc]
    rfl
  split
  · rename_i hc
    rw [hc]
    rfl
  split
  · rename_i hc
    rw [hc]
    rfl
  split
  · rename_i hcontrol
    exact unicodeEscape?_control hcontrol rest
  · rename_i hbackslash _ _ _ _ _ hcontrol
    rw [List.singleton_append]
    unfold unit?
    split
    all_goals simp_all

theorem stringRest?_succ {cs : List Char} (h : ∀ more, cs ≠ '"' :: more) (steps : Nat) :
    stringRest? (steps + 1) cs = (do
      let (c, rest) ← unit? cs
      let (text, rest) ← stringRest? steps rest
      pure (c :: text, rest)) := by
  rw [stringRest?]
  exact h

/-- A text is read back up to its closing quote. -/
theorem stringRest?_escaped (cs rest : List Char) {steps : Nat} (hsteps : cs.length < steps) :
    stringRest? steps (cs.flatMap escape ++ '"' :: rest) = some (cs, rest) := by
  induction cs generalizing steps with
  | nil =>
    obtain ⟨steps, rfl⟩ := Nat.exists_eq_succ_of_ne_zero (Nat.ne_of_gt hsteps)
    rfl
  | cons c cs ih =>
    obtain ⟨steps, rfl⟩ := Nat.exists_eq_succ_of_ne_zero (Nat.ne_of_gt (Nat.zero_lt_of_lt hsteps))
    rw [List.length_cons, Nat.succ_lt_succ_iff] at hsteps
    rw [List.flatMap_cons, List.append_assoc, Nat.succ_eq_add_one, stringRest?_succ (escape_append_ne_quote c _),
      unit?_escape, Option.bind_eq_bind, Option.bind_some]
    dsimp only
    rw [ih hsteps]
    rfl

theorem length_le_flatMap_escape (cs : List Char) : cs.length ≤ (cs.flatMap escape).length := by
  induction cs with
  | nil => exact Nat.le_refl _
  | cons c cs ih =>
    have hpos : 0 < (escape c).length := List.length_pos_of_ne_nil (escape_ne_nil c)
    rw [List.flatMap_cons, List.length_append, List.length_cons]
    omega

/-- What stands behind an opening quote is read back. -/
theorem stringRest?_quoted (s : String) (rest : List Char) :
    stringRest? ((s.toList.flatMap escape ++ '"' :: rest).length + 1) (s.toList.flatMap escape ++ '"' :: rest) =
      some (s.toList, rest) := by
  have hlength := length_le_flatMap_escape s.toList
  apply stringRest?_escaped
  rw [List.length_append]
  omega

/-! ## Values -/

theorem skipSpace_cons {c : Char} (h : isSpace c = false) (cs : List Char) : skipSpace (c :: cs) = c :: cs := by
  rw [skipSpace, List.dropWhile_cons, h, if_neg Bool.false_ne_true]

theorem quoted_append (s : String) (rest : List Char) :
    quoted s ++ rest = '"' :: (s.toList.flatMap escape ++ '"' :: rest) := by
  rw [quoted, List.append_assoc, List.cons_append, List.singleton_append]

theorem isSpace_of_isNumberChar {c : Char} (h : isNumberChar c) : isSpace c = false := by
  cases hspace : isSpace c with
  | false => rfl
  | true =>
    simp only [isSpace, Bool.or_eq_true, beq_iff_eq] at hspace
    rcases hspace with ((rfl | rfl) | rfl) | rfl <;> exact absurd h (by decide)

/-- The text of a value begins with no blank and closes nothing. -/
theorem exists_chars_eq (v : Value) : ∃ c more, chars v = c :: more ∧ isSpace c = false ∧ c ≠ ']' := by
  cases v with
  | null => exact ⟨_, _, rfl, by decide, by decide⟩
  | bool flag => cases flag <;> exact ⟨_, _, rfl, by decide, by decide⟩
  | number n =>
    have hspelled := spelled_numberChars n
    obtain ⟨c, more, hchars⟩ := List.exists_cons_of_ne_nil hspelled.ne_nil
    have hc : isNumberChar c := hspelled.forall_isNumberChar c (by rw [hchars]; exact List.mem_cons_self)
    refine ⟨c, more, by rw [chars, hchars], isSpace_of_isNumberChar hc, ?_⟩
    rintro rfl
    exact absurd hc (by decide)
  | string s => exact ⟨_, _, rfl, by decide, by decide⟩
  | array items => exact ⟨_, _, rfl, by decide, by decide⟩
  | object fields => exact ⟨_, _, rfl, by decide, by decide⟩

theorem exists_itemChars_eq (v : Value) (more : List Value) :
    ∃ c cs, itemChars (v :: more) = c :: cs ∧ isSpace c = false ∧ c ≠ ']' := by
  obtain ⟨c, cs, hchars, hspace, hc⟩ := exists_chars_eq v
  cases more with
  | nil => exact ⟨c, cs, hchars, hspace, hc⟩
  | cons next more =>
    refine ⟨c, cs ++ ',' :: itemChars (next :: more), ?_, hspace, hc⟩
    rw [itemChars_cons_cons, hchars, List.cons_append]

theorem exists_fieldChars_eq (field : String × Value) (more : List (String × Value)) :
    ∃ cs, fieldChars (field :: more) = '"' :: cs := by
  cases more <;> exact ⟨_, rfl⟩

theorem value?_number {cs rest : List Char} (h : Spelled cs) (hrest : NotAhead isNumberChar rest) (steps room : Nat) :
    value? (steps + 1) room (cs ++ rest) = (number? cs).map fun (n, _) => (.number n, rest) := by
  obtain ⟨c, more, rfl⟩ := List.exists_cons_of_ne_nil h.ne_nil
  have hc : isNumberChar c := h.forall_isNumberChar c List.mem_cons_self
  have hread := h.read hrest
  rw [List.cons_append] at hread
  rw [value?, List.cons_append, skipSpace_cons (isSpace_of_isNumberChar hc)]
  split
  case h_7 =>
    rw [hread, Option.map_map]
    rfl
  all_goals
    rename_i heq
    obtain rfl := (List.cons.inj heq).1
    exact absurd hc (by decide)

theorem value?_array_cons {c : Char} (hspace : isSpace c = false) (hc : c ≠ ']') (steps room : Nat) (cs : List Char) :
    value? (steps + 1) (room + 1) ('[' :: c :: cs) =
      (items? steps room (c :: cs)).map fun (items, rest) => (.array items, rest) := by
  rw [value?, skipSpace_cons (by decide)]
  simp only [skipSpace_cons hspace]
  split
  · rename_i heq
    exact absurd (List.cons.inj heq).1 hc
  · rfl

theorem value?_object_cons (steps room : Nat) (cs : List Char) :
    value? (steps + 1) (room + 1) ('{' :: '"' :: cs) =
      (fields? steps room ('"' :: cs)).map fun (fields, rest) => (.object (Fields.ofPairs fields), rest) := by
  rw [value?]
  rfl

theorem items?_last {steps room : Nat} {cs rest : List Char} {r : Option Value}
    (h : value? steps room cs = r.map (·, ']' :: rest)) :
    items? (steps + 1) room cs = r.map fun v => ([v], rest) := by
  rw [items?, h]
  cases r <;> rfl

theorem items?_cons {steps room : Nat} {cs left rest : List Char} {r : Option Value} {more : Option (List Value)}
    (h : value? steps room cs = r.map (·, ',' :: left)) (hmore : items? steps room left = more.map (·, rest)) :
    items? (steps + 1) room cs = (do
      let v ← r
      let vs ← more
      pure (v :: vs)).map (·, rest) := by
  rw [items?, h]
  cases r with
  | none => rfl
  | some v =>
    have hskip : skipSpace (',' :: left) = ',' :: left := skipSpace_cons (by decide) _
    simp only [Option.map_some, Option.bind_eq_bind, Option.bind_some, hskip, hmore]
    cases more <;> rfl

theorem fields?_last {steps room : Nat} {cs rest : List Char} {r : Option Value} (k : String)
    (h : value? steps room cs = r.map (·, '}' :: rest)) :
    fields? (steps + 1) room (quoted k ++ ':' :: cs) = r.map fun v => ([(k, v)], rest) := by
  have hcolon : skipSpace (':' :: cs) = ':' :: cs := skipSpace_cons (by decide) cs
  rw [quoted_append, fields?, skipSpace_cons (by decide)]
  simp only [stringRest?_quoted, String.ofList_toList, Option.bind_eq_bind, Option.bind_some, hcolon, h]
  cases r <;> rfl

theorem fields?_cons {steps room : Nat} {cs left rest : List Char} {r : Option Value}
    {more : Option (List (String × Value))} (k : String) (h : value? steps room cs = r.map (·, ',' :: left))
    (hmore : fields? steps room left = more.map (·, rest)) :
    fields? (steps + 1) room (quoted k ++ ':' :: cs) = (do
      let v ← r
      let fields ← more
      pure ((k, v) :: fields)).map (·, rest) := by
  have hcolon : skipSpace (':' :: cs) = ':' :: cs := skipSpace_cons (by decide) cs
  rw [quoted_append, fields?, skipSpace_cons (by decide)]
  simp only [stringRest?_quoted, String.ofList_toList, Option.bind_eq_bind, Option.bind_some, hcolon, h]
  cases r with
  | none => rfl
  | some v =>
    have hskip : skipSpace (',' :: left) = ',' :: left := skipSpace_cons (by decide) _
    simp only [Option.map_some, Option.bind_some, hskip, hmore]
    cases more <;> rfl

mutual

/-- What is written for a value is read to its end, as what the value is read back as. -/
theorem value?_chars : ∀ (v : Value) (steps room : Nat) (rest : List Char), 2 * (chars v).length < steps →
    NotAhead isNumberChar rest → value? steps room (chars v ++ rest) = (reread? room v).map (·, rest)
  | .null, steps + 1, room, rest, _, _ => rfl
  | .bool true, steps + 1, room, rest, _, _ => rfl
  | .bool false, steps + 1, room, rest, _, _ => rfl
  | .number n, steps + 1, room, rest, _, hrest => by
    rw [chars, value?_number (spelled_numberChars n) hrest, reread?, rereadNumber?, Option.map_map, Option.map_map]
    rfl
  | .string s, steps + 1, room, rest, _, _ => by
    rw [chars, quoted_append, value?, skipSpace_cons (by decide)]
    simp only [stringRest?_quoted, Option.map_some, String.ofList_toList, reread?]
  | .array items, steps + 1, 0, rest, _, _ => rfl
  | .array [], steps + 1, room + 1, rest, _, _ => rfl
  | .array (v :: more), steps + 1, room + 1, rest, hsteps, _ => by
    have hitems := items?_itemChars (v :: more) nofun steps room rest (by
      rw [chars, List.length_append, List.length_cons, List.length_singleton] at hsteps
      omega)
    obtain ⟨c, cs, hchars, hspace, hc⟩ := exists_itemChars_eq v more
    rw [hchars, List.cons_append] at hitems
    have htext : chars (.array (v :: more)) ++ rest = '[' :: c :: (cs ++ ']' :: rest) := by
      rw [chars, hchars]
      simp
    rw [htext, value?_array_cons hspace hc, hitems, reread?, Option.map_map, Option.map_map]
    rfl
  | .object fields, steps + 1, 0, rest, _, _ => rfl
  | .object [], steps + 1, room + 1, rest, _, _ => rfl
  | .object (field :: more), steps + 1, room + 1, rest, hsteps, _ => by
    have hfields := fields?_fieldChars (field :: more) nofun steps room rest (by
      rw [chars, List.length_append, List.length_cons, List.length_singleton] at hsteps
      omega)
    obtain ⟨cs, hchars⟩ := exists_fieldChars_eq field more
    rw [hchars, List.cons_append] at hfields
    have htext : chars (.object (field :: more)) ++ rest = '{' :: '"' :: (cs ++ '}' :: rest) := by
      rw [chars, hchars]
      simp
    rw [htext, value?_object_cons, hfields, reread?, Option.map_map, Option.map_map]
    rfl

theorem items?_itemChars : ∀ (items : List Value), items ≠ [] → ∀ (steps room : Nat) (rest : List Char),
    2 * (itemChars items).length + 2 ≤ steps →
    items? steps room (itemChars items ++ ']' :: rest) = (rereadItems? room items).map (·, rest)
  | [v], _, steps + 1, room, rest, hsteps => by
    have hv := value?_chars v steps room (']' :: rest) (by rw [itemChars] at hsteps; omega) (notAhead_cons.2 (by decide))
    rw [itemChars, items?_last hv, rereadItems?]
    cases reread? room v <;> rfl
  | v :: next :: more, _, steps + 1, room, rest, hsteps => by
    rw [itemChars_cons_cons, List.length_append, List.length_cons] at hsteps
    have hv := value?_chars v steps room (',' :: (itemChars (next :: more) ++ ']' :: rest)) (by omega)
      (notAhead_cons.2 (by decide))
    have hmore := items?_itemChars (next :: more) nofun steps room rest (by omega)
    rw [itemChars_cons_cons, List.append_assoc, List.cons_append, items?_cons hv hmore]
    rfl

theorem fields?_fieldChars : ∀ (fields : List (String × Value)), fields ≠ [] → ∀ (steps room : Nat) (rest : List Char),
    2 * (fieldChars fields).length + 2 ≤ steps →
    fields? steps room (fieldChars fields ++ '}' :: rest) = (rereadFields? room fields).map (·, rest)
  | [(k, v)], _, steps + 1, room, rest, hsteps => by
    rw [fieldChars, List.length_append, List.length_cons] at hsteps
    have hv := value?_chars v steps room ('}' :: rest) (by omega) (notAhead_cons.2 (by decide))
    rw [fieldChars, List.append_assoc, List.cons_append, fields?_last k hv, rereadFields?]
    cases reread? room v <;> rfl
  | (k, v) :: next :: more, _, steps + 1, room, rest, hsteps => by
    rw [fieldChars_cons_cons, List.length_append, List.length_append, List.length_cons, List.length_cons] at hsteps
    have hv := value?_chars v steps room (',' :: (fieldChars (next :: more) ++ '}' :: rest)) (by omega)
      (notAhead_cons.2 (by decide))
    have hmore := fields?_fieldChars (next :: more) nofun steps room rest (by omega)
    rw [fieldChars_cons_cons, List.append_assoc, List.append_assoc, List.cons_append, List.cons_append,
      fields?_cons k hv hmore]
    rfl

end

/-- Reading what was written for a value. -/
theorem readNested?_chars (room : Nat) (v : Value) : readNested? room (chars v) = reread? room v := by
  have hread := value?_chars v (2 * (chars v).length + 2) room [] (by omega) (notAhead_nil _)
  rw [List.append_nil] at hread
  rw [readNested?, hread]
  cases reread? room v <;> rfl

/-! ## Room -/

mutual

/-- More room changes nothing about what is read back. -/
theorem reread?_of_le : ∀ {v again : Value} {room room' : Nat}, room ≤ room' → reread? room v = some again →
    reread? room' v = some again
  | .null, _, _, _, _, h => h
  | .bool _, _, _, _, _, h => h
  | .number _, _, _, _, _, h => h
  | .string _, _, _, _, _, h => h
  | .array items, again, room + 1, room' + 1, hle, h => by
    obtain ⟨items', hitems, rfl⟩ := Option.map_eq_some_iff.1 h
    rw [reread?, rereadItems?_of_le (Nat.le_of_succ_le_succ hle) hitems, Option.map_some]
  | .object fields, again, room + 1, room' + 1, hle, h => by
    obtain ⟨fields', hfields, rfl⟩ := Option.map_eq_some_iff.1 h
    rw [reread?, rereadFields?_of_le (Nat.le_of_succ_le_succ hle) hfields, Option.map_some]

theorem rereadItems?_of_le : ∀ {items again : List Value} {room room' : Nat}, room ≤ room' →
    rereadItems? room items = some again → rereadItems? room' items = some again
  | [], _, _, _, _, h => h
  | v :: rest, again, room, room', hle, h => by
    obtain ⟨v', hv, h⟩ := Option.bind_eq_some_iff.1 h
    obtain ⟨rest', hrest, h⟩ := Option.bind_eq_some_iff.1 h
    rw [rereadItems?, reread?_of_le hle hv, rereadItems?_of_le hle hrest]
    exact h

theorem rereadFields?_of_le : ∀ {fields again : List (String × Value)} {room room' : Nat}, room ≤ room' →
    rereadFields? room fields = some again → rereadFields? room' fields = some again
  | [], _, _, _, _, h => h
  | (k, v) :: rest, again, room, room', hle, h => by
    obtain ⟨v', hv, h⟩ := Option.bind_eq_some_iff.1 h
    obtain ⟨rest', hrest, h⟩ := Option.bind_eq_some_iff.1 h
    rw [rereadFields?, reread?_of_le hle hv, rereadFields?_of_le hle hrest]
    exact h

end

theorem rereadFields?_forall₂ : ∀ {fields again : List (String × Value)} {room : Nat},
    rereadFields? room fields = some again →
    List.Forall₂ (fun field field' => field'.1 = field.1 ∧ reread? room field.2 = some field'.2) fields again
  | [], _, _, h => by
    cases h
    exact .nil
  | (k, v) :: rest, _, room, h => by
    obtain ⟨v', hv, h⟩ := Option.bind_eq_some_iff.1 h
    obtain ⟨rest', hrest, h⟩ := Option.bind_eq_some_iff.1 h
    cases h
    exact .cons ⟨rfl, hv⟩ (rereadFields?_forall₂ hrest)

end Json

end DataBound
