-- SUMMARY: The texts of numbers, and that reading one stops at its end.
import DataBound.Json.Reader
import DataBound.Json.Writer
import DataBound.Proofs.Path.Reading

/-!
# Numbers in JSON text

A number is written with its sign, digits, and perhaps a fraction and an exponent. Such a text is read to its end, and as
long as no character of numbers comes behind it, no further; so a number is read from a longer text as it is read alone.
-/

namespace DataBound.Json

open DataBound.Path (NotAhead notAhead_nil notAhead_cons)

/-- The characters of numbers. -/
def isNumberChar (c : Char) : Bool := c.isDigit || ['+', '-', '.', 'e', 'E'].contains c

/-! ## Writing -/

/-- Nothing but digits. -/
def Digits (cs : List Char) : Prop := ∀ c ∈ cs, c.isDigit

/-- A point and digits, or nothing. -/
def IsFraction (cs : List Char) : Prop := cs = [] ∨ ∃ digits, cs = '.' :: digits ∧ Digits digits

/-- The mark of an exponent, a sign and digits, or nothing. -/
def IsExponent (cs : List Char) : Prop :=
  cs = [] ∨ ∃ sign digits, cs = 'e' :: sign :: digits ∧ (sign = '+' ∨ sign = '-') ∧ Digits digits

/-- A number without its sign: digits, and perhaps a fraction and an exponent. -/
structure Unsigned (cs whole fraction exponent : List Char) : Prop where
  eq : cs = whole ++ (fraction ++ exponent)
  ne_nil : whole ≠ []
  whole : Digits whole
  fraction : IsFraction fraction
  exponent : IsExponent exponent

/-- The texts of numbers. -/
inductive Spelled : List Char → Prop
  | positive {cs whole fraction exponent : List Char} : Unsigned cs whole fraction exponent → Spelled cs
  | negative {cs whole fraction exponent : List Char} : Unsigned cs whole fraction exponent → Spelled ('-' :: cs)

theorem Digits.append {cs more : List Char} (h : Digits cs) (hmore : Digits more) : Digits (cs ++ more) := by
  intro c hc
  rcases List.mem_append.1 hc with hc | hc
  · exact h c hc
  · exact hmore c hc

theorem digits_toDigits (n : Nat) : Digits (Nat.toDigits 10 n) :=
  fun _ hc => Nat.isDigit_of_mem_toDigits (by decide) (by decide) hc

theorem digits_replicate (n : Nat) : Digits (List.replicate n '0') := by
  intro c hc
  rw [List.eq_of_mem_replicate hc]
  decide

theorem digits_digitsAndLeading (d : Decimal) : d.digitsAndLeading.1 ≠ [] ∧ Digits d.digitsAndLeading.1 := by
  simp only [Decimal.digitsAndLeading]
  split
  · exact ⟨nofun, digits_replicate 1⟩
  · rename_i hne
    refine ⟨hne, ?_⟩
    intro c hc
    exact digits_toDigits _ c (by simpa using (List.dropWhile_sublist _).subset (List.mem_reverse.1 hc))

theorem exists_unsigned_positional {digits : List Char} (hne : digits ≠ []) (h : Digits digits) (leading : Int) :
    ∃ whole fraction, Unsigned (Decimal.positionalChars true digits leading) whole fraction [] := by
  cases leading with
  | negSucc k =>
    refine ⟨['0'], '.' :: (List.replicate k '0' ++ digits), ?_, nofun, digits_replicate 1, ?_, .inl rfl⟩
    · simp [Decimal.positionalChars]
    · exact .inr ⟨_, rfl, (digits_replicate k).append h⟩
  | ofNat e =>
    rw [Decimal.positionalChars]
    split
    · refine ⟨digits ++ List.replicate (e + 1 - digits.length) '0', ['.', '0'], ?_, ?_, ?_, ?_, .inl rfl⟩
      · rw [if_pos rfl, List.append_nil]
      · exact List.append_ne_nil_of_left_ne_nil hne _
      · exact h.append (digits_replicate _)
      · exact .inr ⟨_, rfl, digits_replicate 1⟩
    · refine ⟨digits.take (e + 1), '.' :: digits.drop (e + 1), ?_, ?_, ?_, ?_, .inl rfl⟩
      · rw [List.append_nil]
      · exact fun hnil => hne ((List.take_eq_nil_iff.1 hnil).resolve_left nofun)
      · exact fun c hc => h c (List.mem_of_mem_take hc)
      · exact .inr ⟨_, rfl, fun c hc => h c (List.mem_of_mem_drop hc)⟩

theorem exists_unsigned_scientific {digits : List Char} (hne : digits ≠ []) (h : Digits digits) (leading : Int) :
    ∃ whole fraction exponent, Unsigned (Decimal.scientificChars digits leading) whole fraction exponent := by
  have hexponent : IsExponent ('e' :: ((if leading < 0 then ['-'] else ['+']) ++ Nat.toDigits 10 leading.natAbs)) := by
    refine .inr ⟨if leading < 0 then '-' else '+', Nat.toDigits 10 leading.natAbs, ?_, ?_, digits_toDigits _⟩
    · split <;> rfl
    · split <;> simp
  rcases digits with - | ⟨d, - | ⟨next, rest⟩⟩
  · exact absurd rfl hne
  · exact ⟨[d], [], _, rfl, nofun, h, .inl rfl, hexponent⟩
  · have hd : Digits [d] := fun c hc => h c (List.mem_of_mem_take (i := 1) hc)
    have hrest : Digits (next :: rest) := fun c hc => h c (List.mem_cons_of_mem _ hc)
    exact ⟨[d], '.' :: next :: rest, _, rfl, nofun, hd, .inr ⟨_, rfl, hrest⟩, hexponent⟩

theorem spelled_float (x : Binary64) : Spelled (x.chars .json) := by
  obtain ⟨hne, hdigits⟩ := digits_digitsAndLeading (x.shortest FloatStyle.json.tie)
  rw [Binary64.chars]
  generalize (x.shortest FloatStyle.json.tie).digitsAndLeading = shortest at hne hdigits
  obtain ⟨digits, leading⟩ := shortest
  have hunsigned : ∃ whole fraction exponent, Unsigned (if FloatStyle.json.positional leading
      then Decimal.positionalChars FloatStyle.json.keepsFraction digits leading
      else Decimal.scientificChars digits leading) whole fraction exponent := by
    split
    · obtain ⟨whole, fraction, h⟩ := exists_unsigned_positional hne hdigits leading
      exact ⟨whole, fraction, [], h⟩
    · exact exists_unsigned_scientific hne hdigits leading
  obtain ⟨whole, fraction, exponent, h⟩ := hunsigned
  dsimp only
  split
  · exact .negative h
  · exact .positive h

theorem unsigned_toDigits (n : Nat) : Unsigned (Nat.toDigits 10 n) (Nat.toDigits 10 n) [] [] where
  eq := by simp
  ne_nil := Nat.toDigits_ne_nil
  whole := digits_toDigits n
  fraction := .inl rfl
  exponent := .inl rfl

theorem spelled_int (i : Int) : Spelled (toString i).toList := by
  rw [Int.toString_eq_repr, Int.repr_eq_if]
  split
  · rw [Nat.toList_repr]
    exact .positive (unsigned_toDigits _)
  · rw [String.toList_append, Nat.toList_repr]
    exact .negative (unsigned_toDigits _)

/-- What is written for a number is the text of a number. -/
theorem spelled_numberChars (n : Number) : Spelled (numberChars n) := by
  cases n with
  | int i _ => exact spelled_int i
  | float x => exact spelled_float x

theorem isNumberChar_of_isDigit {c : Char} (h : c.isDigit) : isNumberChar c := by
  rw [isNumberChar, h, Bool.true_or]

theorem Unsigned.forall_isNumberChar {cs whole fraction exponent : List Char} (h : Unsigned cs whole fraction exponent) :
    ∀ c ∈ cs, isNumberChar c := by
  intro c hc
  rw [h.eq, List.mem_append, List.mem_append] at hc
  rcases hc with hc | hc | hc
  · exact isNumberChar_of_isDigit (h.whole c hc)
  · rcases h.fraction with rfl | ⟨digits, rfl, hdigits⟩
    · cases hc
    · rcases List.mem_cons.1 hc with rfl | hc
      · decide
      · exact isNumberChar_of_isDigit (hdigits c hc)
  · rcases h.exponent with rfl | ⟨sign, digits, rfl, hsign, hdigits⟩
    · cases hc
    · rcases List.mem_cons.1 hc with rfl | hc
      · decide
      rcases List.mem_cons.1 hc with rfl | hc
      · rcases hsign with rfl | rfl <;> decide
      · exact isNumberChar_of_isDigit (hdigits c hc)

/-- A number is written with the characters of numbers. -/
theorem Spelled.forall_isNumberChar {cs : List Char} (h : Spelled cs) : ∀ c ∈ cs, isNumberChar c := by
  cases h with
  | positive h => exact h.forall_isNumberChar
  | negative h => exact List.forall_mem_cons.2 ⟨by decide, h.forall_isNumberChar⟩

theorem Spelled.ne_nil {cs : List Char} (h : Spelled cs) : cs ≠ [] := by
  cases h with
  | positive h => exact fun hnil => h.ne_nil (List.append_eq_nil_iff.1 (h.eq.symm.trans hnil)).1
  | negative => exact nofun

/-! ## Reading -/

section

variable {rest fraction exponent : List Char}

theorem notAhead_digit (h : NotAhead isNumberChar rest) : NotAhead Char.isDigit rest := by
  intro c hc
  have hchar := h c hc
  rw [isNumberChar, Bool.or_eq_false_iff] at hchar
  exact hchar.1

theorem Digits.read {digits : List Char} (h : Digits digits) (hrest : NotAhead Char.isDigit rest) :
    (digits ++ rest).takeWhile Char.isDigit = digits ∧ (digits ++ rest).dropWhile Char.isDigit = rest :=
  ⟨Path.takeWhile_append_notAhead h hrest, Path.dropWhile_append_notAhead h hrest⟩

theorem fraction?_of_notAhead (h : NotAhead isNumberChar rest) : fraction? rest = some (none, rest) := by
  cases rest with
  | nil => rfl
  | cons c rest =>
    have hc : c ≠ '.' := by
      rintro rfl
      exact absurd (notAhead_cons.1 h) (by decide)
    unfold fraction?
    split
    · rename_i heq
      exact absurd (List.cons.inj heq).1 hc
    · rfl

theorem IsExponent.fraction?_eq (h : IsExponent exponent) (hrest : NotAhead isNumberChar rest) :
    fraction? (exponent ++ rest) = some (none, exponent ++ rest) := by
  rcases h with rfl | ⟨sign, digits, rfl, -, -⟩
  · exact fraction?_of_notAhead hrest
  · rfl

theorem IsExponent.read (h : IsExponent exponent) (hrest : NotAhead isNumberChar rest) :
    exponent? (exponent ++ rest) = (exponent? exponent).map fun (found, _) => (found, rest) := by
  rcases h with rfl | ⟨sign, digits, rfl, hsign, hdigits⟩
  · cases rest with
    | nil => rfl
    | cons c rest =>
      have hmark : ¬ (c = 'e' ∨ c = 'E') := by
        rintro (rfl | rfl)
        · exact absurd (notAhead_cons.1 hrest) (by decide)
        · exact absurd (notAhead_cons.1 hrest) (by decide)
      rw [List.nil_append, exponent?, if_neg hmark]
      rfl
  · obtain ⟨htake, hdrop⟩ := hdigits.read (notAhead_digit hrest)
    have halone : digits.takeWhile Char.isDigit = digits := List.takeWhile_eq_self_iff.2 hdigits
    rw [List.cons_append, List.cons_append, exponent?, exponent?, if_pos (.inl rfl), if_pos (.inl rfl)]
    rcases hsign with rfl | rfl
    all_goals
      simp only [exponentDigits?, htake, hdrop, halone]
      split <;> rfl

/-- What comes behind a fraction. -/
theorem IsExponent.notAhead (h : IsExponent exponent) (hrest : NotAhead isNumberChar rest) :
    NotAhead Char.isDigit (exponent ++ rest) := by
  rcases h with rfl | ⟨sign, digits, rfl, -, -⟩
  · exact notAhead_digit hrest
  · exact notAhead_cons.2 (by decide)

theorem IsFraction.read (h : IsFraction fraction) (hexponent : IsExponent exponent)
    (hrest : NotAhead isNumberChar rest) :
    fraction? (fraction ++ (exponent ++ rest)) = (fraction? fraction).map fun (found, _) => (found, exponent ++ rest) := by
  rcases h with rfl | ⟨digits, rfl, hdigits⟩
  · exact hexponent.fraction?_eq hrest
  · obtain ⟨htake, hdrop⟩ := hdigits.read (hexponent.notAhead hrest)
    have halone : digits.takeWhile Char.isDigit = digits := List.takeWhile_eq_self_iff.2 hdigits
    simp only [List.cons_append, fraction?, htake, hdrop, halone]
    split <;> rfl

/-- What comes behind the digits of a number. -/
theorem IsFraction.notAhead (h : IsFraction fraction) (hexponent : IsExponent exponent)
    (hrest : NotAhead isNumberChar rest) : NotAhead Char.isDigit (fraction ++ (exponent ++ rest)) := by
  rcases h with rfl | ⟨digits, rfl, -⟩
  · exact hexponent.notAhead hrest
  · exact notAhead_cons.2 (by decide)

end

section

variable {cs rest : List Char}

theorem Unsigned.read {whole fraction exponent : List Char} (h : Unsigned cs whole fraction exponent)
    (hrest : NotAhead isNumberChar rest) (negative : Bool) :
    unsigned? negative (cs ++ rest) = (unsigned? negative cs).map fun (n, _) => (n, rest) := by
  have hnil := notAhead_nil isNumberChar
  obtain ⟨htake, hdrop⟩ := h.whole.read (h.fraction.notAhead h.exponent hrest)
  obtain ⟨htake', hdrop'⟩ := h.whole.read (h.fraction.notAhead h.exponent hnil)
  have hcs : cs = whole ++ (fraction ++ (exponent ++ [])) := by
    rw [List.append_nil]
    exact h.eq
  have happend : cs ++ rest = whole ++ (fraction ++ (exponent ++ rest)) := by
    rw [h.eq, List.append_assoc, List.append_assoc]
  rw [happend, hcs]
  simp only [unsigned?, htake, hdrop, htake', hdrop', h.fraction.read h.exponent hrest, h.fraction.read h.exponent hnil]
  split
  · rfl
  cases fraction? fraction with
  | none => rfl
  | some found =>
    simp only [Option.map_some, Option.bind_eq_bind, Option.bind_some, h.exponent.read hrest, h.exponent.read hnil]
    cases exponent? exponent with
    | none => rfl
    | some found' =>
      simp only [Option.map_some, Option.bind_some]
      split
      · cases integerValue? negative whole <;> rfl
      · cases floatValue? negative whole (found.1.getD []) found'.1 <;> rfl

theorem number?_of_ne (h : ∀ more, cs ≠ '-' :: more) : number? cs = unsigned? false cs := by
  unfold number?
  split
  · exact absurd rfl (h _)
  · rfl

/-- A number is read to its end and no further. -/
theorem Spelled.read (h : Spelled cs) (hrest : NotAhead isNumberChar rest) :
    number? (cs ++ rest) = (number? cs).map fun (n, _) => (n, rest) := by
  cases h with
  | negative h => exact h.read hrest true
  | @positive _ whole _ _ h =>
    obtain ⟨c, whole', rfl⟩ := List.exists_cons_of_ne_nil h.ne_nil
    have hc : c ≠ '-' := by
      rintro rfl
      exact absurd (h.whole '-' List.mem_cons_self) (by decide)
    have hcs : cs = c :: (cs.drop 1) := by
      rw [h.eq]
      rfl
    have hminus : ∀ more, cs ≠ '-' :: more := by
      intro more heq
      exact hc (List.cons.inj (hcs.symm.trans heq)).1
    have hminus' : ∀ more, cs ++ rest ≠ '-' :: more := by
      intro more heq
      rw [hcs] at heq
      exact hc (List.cons.inj heq).1
    rw [number?_of_ne hminus, number?_of_ne hminus', h.read hrest]

end

/-! ## Integers -/

/-- The digits of a number do not begin with a zero, if it is not zero itself. -/
theorem head?_toDigits_ne {n : Nat} (h : n ≠ 0) : (Nat.toDigits 10 n).head? ≠ some '0' := by
  induction n using Nat.strong_induction_on with
  | _ n ih =>
    rw [Nat.toDigits_eq_if (by decide)]
    split
    · rename_i hlt
      have hall : ∀ k : Fin 10, k.val ≠ 0 → [k.val.digitChar].head? ≠ some '0' := by decide
      exact hall ⟨n, hlt⟩ h
    · rename_i hge
      rw [List.head?_append_of_ne_nil _ Nat.toDigits_ne_nil]
      exact ih (n / 10) (by omega) (by omega)

/-- Digits alone are read as an integer. -/
theorem unsigned?_toDigits (negative : Bool) (n : Nat) :
    unsigned? negative (Nat.toDigits 10 n) = (integerValue? negative (Nat.toDigits 10 n)).map (·, []) := by
  obtain ⟨htake, hdrop⟩ := (digits_toDigits n).read (notAhead_nil _)
  rw [List.append_nil] at htake hdrop
  have hstart : ¬ (Nat.toDigits 10 n = [] ∨ ((Nat.toDigits 10 n).head? = some '0' ∧ Nat.toDigits 10 n ≠ ['0'])) := by
    rintro (hnil | ⟨hhead, hne⟩)
    · exact Nat.toDigits_ne_nil hnil
    · by_cases hn : n = 0
      · subst hn
        exact hne rfl
      · exact head?_toDigits_ne hn hhead
  simp only [unsigned?, htake, hdrop, if_neg hstart]
  cases hvalue : integerValue? negative (Nat.toDigits 10 n) <;> simp [fraction?, exponent?]

theorem integerValue?_toDigits {negative : Bool} {n : Nat} {i : Int} (hi : i = if negative then -(n : Int) else n)
    (h : -0x8000_0000_0000_0000 ≤ i ∧ i < 0x1_0000_0000_0000_0000) (hsign : ¬ (negative = true ∧ i = 0)) :
    integerValue? negative (Nat.toDigits 10 n) = some (.int i h) := by
  subst hi
  simp only [integerValue?, Nat.ofDigitChars_ten_toDigits]
  rw [dif_pos ⟨h.1, h.2, hsign⟩]

/-- An integer is read back. -/
theorem number?_numberChars_int (i : Int) (h : -0x8000_0000_0000_0000 ≤ i ∧ i < 0x1_0000_0000_0000_0000) :
    number? (numberChars (.int i h)) = some (.int i h, []) := by
  rw [numberChars, Int.toString_eq_repr, Int.repr_eq_if]
  split
  · rename_i hi
    have hdigits : ∀ more, Nat.toDigits 10 i.toNat ≠ '-' :: more := by
      intro more heq
      have hminus := digits_toDigits i.toNat '-' (by rw [heq]; exact List.mem_cons_self)
      exact absurd hminus (by decide)
    have hvalue : integerValue? false (Nat.toDigits 10 i.toNat) = some (.int i h) :=
      integerValue?_toDigits (by simp; omega) h (by simp)
    rw [Nat.toList_repr, number?_of_ne hdigits, unsigned?_toDigits, hvalue]
    rfl
  · rename_i hi
    have hvalue : integerValue? true (Nat.toDigits 10 (-i).toNat) = some (.int i h) :=
      integerValue?_toDigits (by simp; omega) h (by omega)
    rw [String.toList_append, Nat.toList_repr]
    change unsigned? true (Nat.toDigits 10 (-i).toNat) = _
    rw [unsigned?_toDigits, hvalue]
    rfl

end DataBound.Json
