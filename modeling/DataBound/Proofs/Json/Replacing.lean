-- SUMMARY: Replacing a marker in the text of a value replaces it in the strings and keys of the value.
import DataBound.Proofs.Json.Number
import DataBound.Proofs.Text.Occurrence

/-!
# Replacing in JSON text

A marker that begins with an underscore and needs no escapes stands in the text of a value only inside quotes, and no
occurrence begins in an escape or reaches over a quote. So replacing it in the text comes to replacing it in every string
and key of the value.
-/

namespace DataBound

open Text

mutual

/-- The value with its strings and keys changed. -/
def Value.mapTexts (f : String → String) : Value → Value
  | .null => .null
  | .bool flag => .bool flag
  | .number n => .number n
  | .string s => .string (f s)
  | .array items => .array (itemsMapTexts f items)
  | .object fields => .object (fieldsMapTexts f fields)

/-- The items with their strings and keys changed. -/
def itemsMapTexts (f : String → String) : List Value → List Value
  | [] => []
  | v :: rest => v.mapTexts f :: itemsMapTexts f rest

/-- The fields with their strings and keys changed. -/
def fieldsMapTexts (f : String → String) : List (String × Value) → List (String × Value)
  | [] => []
  | (k, v) :: rest => (f k, v.mapTexts f) :: fieldsMapTexts f rest

end

namespace Json

/-! ## Escapes -/

/-- A character that stands for itself inside quotes. -/
def IsPlain (c : Char) : Prop := escape c = [c]

instance (c : Char) : Decidable (IsPlain c) := inferInstanceAs (Decidable (escape c = [c]))

theorem underscore_not_mem_hexDigit {n : Nat} (h : n < 16) : hexDigit n ≠ '_' := by
  have hall : ∀ n : Fin 16, hexDigit n ≠ '_' := by decide
  exact hall ⟨n, h⟩

/-- What does not stand for itself is escaped, and no escape has an underscore in it. -/
theorem isPlain_or_escape (c : Char) : IsPlain c ∨ ∃ more, escape c = '\\' :: more ∧ '_' ∉ more := by
  unfold IsPlain escape
  split
  · exact .inr ⟨_, rfl, by decide⟩
  split
  · exact .inr ⟨_, rfl, by decide⟩
  split
  · exact .inr ⟨_, rfl, by decide⟩
  split
  · exact .inr ⟨_, rfl, by decide⟩
  split
  · exact .inr ⟨_, rfl, by decide⟩
  split
  · exact .inr ⟨_, rfl, by decide⟩
  split
  · exact .inr ⟨_, rfl, by decide⟩
  split
  · rename_i hcontrol
    refine .inr ⟨_, rfl, ?_⟩
    have hhigh : hexDigit (c.toNat / 16) ≠ '_' := underscore_not_mem_hexDigit (by omega)
    have hlow : hexDigit (c.toNat % 16) ≠ '_' := underscore_not_mem_hexDigit (by omega)
    simp [Ne.symm hhigh, Ne.symm hlow]
  · exact .inl rfl

theorem IsPlain.ne_backslash {c : Char} (h : IsPlain c) : c ≠ '\\' := by
  rintro rfl
  revert h
  decide

theorem IsPlain.ne_quote {c : Char} (h : IsPlain c) : c ≠ '"' := by
  rintro rfl
  revert h
  decide

theorem escape_ne_nil (c : Char) : escape c ≠ [] := by
  rcases isPlain_or_escape c with hplain | ⟨more, hescape, -⟩
  · rw [show escape c = [c] from hplain]
    exact nofun
  · rw [hescape]
    exact nofun

/-- No character inside quotes looks like the closing quote. -/
theorem escape_append_ne_quote (c : Char) (rest more : List Char) : escape c ++ rest ≠ '"' :: more := by
  intro heq
  rcases isPlain_or_escape c with hplain | ⟨_, hescape, -⟩
  · rw [show escape c = [c] from hplain] at heq
    exact hplain.ne_quote (List.cons.inj heq).1
  · rw [hescape] at heq
    exact absurd (List.cons.inj heq).1 (by decide)

theorem flatMap_escape_of_isPlain {cs : List Char} (h : ∀ c ∈ cs, IsPlain c) : cs.flatMap escape = cs := by
  induction cs with
  | nil => rfl
  | cons c cs ih =>
    have hc : escape c = [c] := h c List.mem_cons_self
    rw [List.flatMap_cons, hc, ih fun d hd => h d (List.mem_cons_of_mem _ hd), List.singleton_append]

theorem underscore_not_mem_escape {c : Char} (h : c ≠ '_') : '_' ∉ escape c := by
  rcases isPlain_or_escape c with hplain | ⟨more, hescape, hmore⟩
  · rw [show escape c = [c] from hplain, List.mem_singleton]
    exact Ne.symm h
  · rw [hescape, List.mem_cons, not_or]
    exact ⟨by decide, hmore⟩

/-- Text without escapes begins an escaped text if it begins the text itself; it does not reach over the closing
quote. -/
theorem isPrefixOf_escaped {tail : List Char} (htail : ∀ c ∈ tail, IsPlain c) (cs rest : List Char) :
    tail.isPrefixOf (cs.flatMap escape ++ '"' :: rest) = tail.isPrefixOf cs := by
  induction tail generalizing cs with
  | nil => rfl
  | cons t tail ih =>
    have ht : IsPlain t := htail t List.mem_cons_self
    have hrest := ih fun c hc => htail c (List.mem_cons_of_mem _ hc)
    cases cs with
    | nil =>
      rw [List.flatMap_nil, List.nil_append, List.isPrefixOf_cons_cons, beq_false_of_ne ht.ne_quote, Bool.false_and]
      rfl
    | cons c cs =>
      rw [List.flatMap_cons, List.append_assoc]
      rcases isPlain_or_escape c with hplain | ⟨more, hescape, -⟩
      · rw [show escape c = [c] from hplain, List.singleton_append, List.isPrefixOf_cons_cons,
          List.isPrefixOf_cons_cons, hrest]
      · have hne : t ≠ c := by
          rintro rfl
          rw [show escape t = [t] from ht] at hescape
          exact ht.ne_backslash (List.cons.inj hescape).1
        rw [hescape, List.cons_append, List.isPrefixOf_cons_cons, List.isPrefixOf_cons_cons,
          beq_false_of_ne ht.ne_backslash, beq_false_of_ne hne, Bool.false_and, Bool.false_and]

/-! ## Replacing -/

section

variable {tail value : List Char}

/-- A replacement inside quotes. -/
theorem replaceAll_escaped (htail : ∀ c ∈ tail, IsPlain c) (hvalue : ∀ c ∈ value, IsPlain c) (cs rest : List Char) :
    replaceAll ('_' :: tail) value (cs.flatMap escape ++ '"' :: rest) =
      (replaceAll ('_' :: tail) value cs).flatMap escape ++ '"' :: replaceAll ('_' :: tail) value rest := by
  induction hlength : cs.length using Nat.strong_induction_on generalizing cs with
  | _ n ih =>
    subst hlength
    cases cs with
    | nil => exact replaceAll_cons_of_ne (by decide)
    | cons c cs =>
      cases hbegins : ('_' :: tail).isPrefixOf (c :: cs) with
      | true =>
        obtain ⟨more, hmore⟩ := List.isPrefixOf_iff_prefix.1 hbegins
        have hmarker : ('_' :: tail).flatMap escape = '_' :: tail :=
          flatMap_escape_of_isPlain (List.forall_mem_cons.2 ⟨by decide, htail⟩)
        have hlt : more.length < (c :: cs).length := by
          rw [← hmore, List.length_append, List.length_cons]
          omega
        rw [← hmore, List.flatMap_append, hmarker, List.append_assoc, replaceAll_prefix_append,
          replaceAll_prefix_append, ih more.length hlt more rfl, List.flatMap_append, flatMap_escape_of_isPlain hvalue,
          List.append_assoc]
      | false =>
        have hrest := ih cs.length (Nat.lt_succ_self _) cs rfl
        rw [replaceAll_of_not_isPrefixOf hbegins, List.flatMap_cons, List.flatMap_cons, List.append_assoc, List.append_assoc]
        by_cases hc : c = '_'
        · subst hc
          have hescape : escape '_' = ['_'] := by decide
          have hnot : ('_' :: tail).isPrefixOf ('_' :: (cs.flatMap escape ++ '"' :: rest)) = false := by
            rw [List.isPrefixOf_cons_cons, isPrefixOf_escaped htail]
            rwa [List.isPrefixOf_cons_cons] at hbegins
          rw [hescape, List.singleton_append, replaceAll_of_not_isPrefixOf hnot, hrest, List.singleton_append]
        · rw [replaceAll_append_of_not_mem (underscore_not_mem_escape hc), hrest]

/-- The text with the marker replaced. -/
def replaced (tail value : List Char) (s : String) : String := String.ofList (replaceAll ('_' :: tail) value s.toList)

theorem replaceAll_quoted (htail : ∀ c ∈ tail, IsPlain c) (hvalue : ∀ c ∈ value, IsPlain c) (s : String)
    (rest : List Char) :
    replaceAll ('_' :: tail) value (quoted s ++ rest) =
      quoted (replaced tail value s) ++ replaceAll ('_' :: tail) value rest := by
  rw [quoted, quoted, replaced, String.toList_ofList, List.append_assoc, List.append_assoc, List.cons_append,
    List.cons_append, replaceAll_cons_of_ne (by decide), List.singleton_append, replaceAll_escaped htail hvalue]
  rfl

theorem underscore_not_mem_numberChars (n : Number) : '_' ∉ numberChars n := by
  intro h
  have hchar := (spelled_numberChars n).forall_isNumberChar _ h
  revert hchar
  decide

theorem itemChars_cons_cons (v next : Value) (more : List Value) :
    itemChars (v :: next :: more) = chars v ++ ',' :: itemChars (next :: more) := by
  rw [itemChars]
  exact nofun

theorem fieldChars_cons_cons (k : String) (v : Value) (next : String × Value) (more : List (String × Value)) :
    fieldChars ((k, v) :: next :: more) = quoted k ++ ':' :: chars v ++ ',' :: fieldChars (next :: more) := by
  rw [fieldChars]
  exact nofun

mutual

/-- A replacement in the text of a value is one in its strings and keys. -/
theorem replaceAll_chars (htail : ∀ c ∈ tail, IsPlain c) (hvalue : ∀ c ∈ value, IsPlain c) :
    ∀ (v : Value) (rest : List Char), replaceAll ('_' :: tail) value (chars v ++ rest) =
      chars (v.mapTexts (replaced tail value)) ++ replaceAll ('_' :: tail) value rest
  | .null, rest => by
    rw [Value.mapTexts, chars]
    exact replaceAll_append_of_not_mem (by decide)
  | .bool true, rest => by
    rw [Value.mapTexts, chars]
    exact replaceAll_append_of_not_mem (by decide)
  | .bool false, rest => by
    rw [Value.mapTexts, chars]
    exact replaceAll_append_of_not_mem (by decide)
  | .number n, rest => by
    rw [Value.mapTexts, chars]
    exact replaceAll_append_of_not_mem (underscore_not_mem_numberChars n)
  | .string s, rest => by
    rw [Value.mapTexts, chars, chars]
    exact replaceAll_quoted htail hvalue s rest
  | .array items, rest => by
    have hitems := replaceAll_itemChars htail hvalue items (']' :: rest)
    rw [replaceAll_cons_of_ne (by decide)] at hitems
    rw [Value.mapTexts, chars, chars, List.append_assoc, List.append_assoc, List.cons_append, List.cons_append,
      replaceAll_cons_of_ne (by decide)]
    exact congrArg _ hitems
  | .object fields, rest => by
    have hfields := replaceAll_fieldChars htail hvalue fields ('}' :: rest)
    rw [replaceAll_cons_of_ne (by decide)] at hfields
    rw [Value.mapTexts, chars, chars, List.append_assoc, List.append_assoc, List.cons_append, List.cons_append,
      replaceAll_cons_of_ne (by decide)]
    exact congrArg _ hfields

theorem replaceAll_itemChars (htail : ∀ c ∈ tail, IsPlain c) (hvalue : ∀ c ∈ value, IsPlain c) :
    ∀ (items : List Value) (rest : List Char), replaceAll ('_' :: tail) value (itemChars items ++ rest) =
      itemChars (itemsMapTexts (replaced tail value) items) ++ replaceAll ('_' :: tail) value rest
  | [], _ => rfl
  | [v], rest => replaceAll_chars htail hvalue v rest
  | v :: next :: more, rest => by
    have hnext := replaceAll_itemChars htail hvalue (next :: more) rest
    rw [itemsMapTexts, itemsMapTexts, itemChars_cons_cons, itemChars_cons_cons, List.append_assoc,
      replaceAll_chars htail hvalue v, List.cons_append, replaceAll_cons_of_ne (by decide), hnext, List.append_assoc,
      itemsMapTexts, List.cons_append]

theorem replaceAll_fieldChars (htail : ∀ c ∈ tail, IsPlain c) (hvalue : ∀ c ∈ value, IsPlain c) :
    ∀ (fields : List (String × Value)) (rest : List Char),
      replaceAll ('_' :: tail) value (fieldChars fields ++ rest) =
        fieldChars (fieldsMapTexts (replaced tail value) fields) ++ replaceAll ('_' :: tail) value rest
  | [], _ => rfl
  | [(k, v)], rest => by
    rw [fieldsMapTexts, fieldsMapTexts, fieldChars, fieldChars, List.append_assoc, replaceAll_quoted htail hvalue,
      List.cons_append, replaceAll_cons_of_ne (by decide), replaceAll_chars htail hvalue v, List.append_assoc,
      List.cons_append]
  | (k, v) :: (k', v') :: more, rest => by
    have hnext := replaceAll_fieldChars htail hvalue ((k', v') :: more) rest
    rw [fieldsMapTexts, fieldsMapTexts, fieldChars_cons_cons, fieldChars_cons_cons, List.append_assoc,
      List.append_assoc, replaceAll_quoted htail hvalue, List.cons_append, replaceAll_cons_of_ne (by decide),
      replaceAll_chars htail hvalue v, List.cons_append, replaceAll_cons_of_ne (by decide), hnext, fieldsMapTexts]
    simp only [List.append_assoc, List.cons_append]

end

end

end Json

end DataBound
