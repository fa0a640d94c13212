-- SUMMARY: How far the readers of path texts look, and that their steps never run out.
import DataBound.Proofs.Path.Reading

/-!
# Lookahead

Besides what it takes a reader looks at the one character behind it, whether it succeeds or stops at a fault. So texts
that agree that far are read alike. The bound on the steps plays no part in this: a text never uses up as many steps
as its length allows.
-/

namespace DataBound.Path

variable {α β : Type}

/-- The reading that leaves this text. -/
def ending (result : Except Fault.Cause α) (rest : List Char) : Reading (α × List Char) :=
  match result with
  | .ok a => .ok (a, rest)
  | .error cause => .error ⟨rest, cause⟩

/-- Besides what it takes the reader looks at the first character of what it leaves, or finds that nothing is left. -/
def LooksOneAhead (reader : List Char → Reading (α × List Char)) : Prop :=
  ∀ cs, ∃ taken rest result, cs = taken ++ rest ∧
    ∀ other, other.head? = rest.head? → reader (taken ++ other) = ending result other

theorem head?_append_congr {taken rest other : List Char} (h : other.head? = rest.head?) :
    (taken ++ other).head? = (taken ++ rest).head? := by
  rw [List.head?_append, List.head?_append, h]

/-! ## Putting readers together -/

namespace LooksOneAhead

theorem stop (result : Except Fault.Cause α) : LooksOneAhead (ending result) :=
  fun cs => ⟨[], cs, result, rfl, fun _ _ => rfl⟩

theorem bind {reader : List Char → Reading (α × List Char)} {next : α × List Char → Reading (β × List Char)}
    (h : LooksOneAhead reader) (hnext : ∀ a, LooksOneAhead fun rest => next (a, rest)) :
    LooksOneAhead fun cs => reader cs >>= next := by
  intro cs
  obtain ⟨taken, rest, result, rfl, hread⟩ := h cs
  cases result with
  | error cause =>
    refine ⟨taken, rest, .error cause, rfl, fun other hother => ?_⟩
    simp only [hread other hother]
    rfl
  | ok a =>
    obtain ⟨more, rest, result, rfl, hmore⟩ := hnext a rest
    refine ⟨taken ++ more, rest, result, (List.append_assoc ..).symm, fun other hother => ?_⟩
    simp only [List.append_assoc, hread _ (head?_append_congr hother)]
    exact hmore other hother

/-- A reader that takes the first character, whatever it is. -/
theorem tail {reader : List Char → Reading (α × List Char)} (h : LooksOneAhead reader) :
    LooksOneAhead fun cs => reader cs.tail := by
  intro cs
  cases cs with
  | nil =>
    obtain ⟨taken, rest, result, hcs, hread⟩ := h []
    obtain ⟨rfl, rfl⟩ := List.append_eq_nil_iff.1 hcs.symm
    refine ⟨[], [], result, rfl, fun other hother => ?_⟩
    obtain rfl := List.head?_eq_none_iff.1 hother
    exact hread [] rfl
  | cons c after =>
    obtain ⟨taken, rest, result, rfl, hread⟩ := h after
    exact ⟨c :: taken, rest, result, rfl, hread⟩

/-- The first character can decide between readers. -/
theorem of_first {reader : List Char → Reading (α × List Char)} (hnil : ∃ result, reader [] = ending result [])
    (hcons : ∀ c, ∃ reader', LooksOneAhead reader' ∧ ∀ after, reader (c :: after) = reader' (c :: after)) :
    LooksOneAhead reader := by
  intro cs
  cases cs with
  | nil =>
    obtain ⟨result, hread⟩ := hnil
    refine ⟨[], [], result, rfl, fun other hother => ?_⟩
    obtain rfl := List.head?_eq_none_iff.1 hother
    exact hread
  | cons c after =>
    obtain ⟨reader', h, hsame⟩ := hcons c
    obtain ⟨taken, rest, result, hcs, hread⟩ := h (c :: after)
    refine ⟨taken, rest, result, hcs, fun other hother => ?_⟩
    have hhead : (taken ++ other).head? = some c := by rw [head?_append_congr hother, ← hcs, List.head?_cons]
    obtain ⟨after', hother'⟩ := List.head?_eq_some_iff.1 hhead
    rw [hother', hsame, ← hother']
    exact hread other hother

/-- A run of characters can be taken as far as it goes. -/
theorem of_run {reader : List Char → Reading (α × List Char)} (kind : Char → Bool)
    (h : ∀ text, (∀ c ∈ text, kind c) → ∃ reader', LooksOneAhead reader' ∧
      ∀ rest, NotAhead kind rest → reader (text ++ rest) = reader' rest) : LooksOneAhead reader := by
  intro cs
  obtain ⟨reader', h', hsame⟩ := h (cs.takeWhile kind) fun c hc => List.mem_takeWhile_imp hc
  obtain ⟨taken, rest, result, hdrop, hread⟩ := h' (cs.dropWhile kind)
  refine ⟨cs.takeWhile kind ++ taken, rest, result, ?_, fun other hother => ?_⟩
  · rw [List.append_assoc, ← hdrop, List.takeWhile_append_dropWhile]
  · have hahead : NotAhead kind (taken ++ other) := by
      intro c hc
      rw [head?_append_congr hother, ← hdrop] at hc
      exact notAhead_dropWhile kind cs c hc
    rw [List.append_assoc, hsame _ hahead]
    exact hread other hother

/-- A run of characters can be skipped. -/
theorem skip {reader : List Char → Reading (α × List Char)} (h : LooksOneAhead reader) (kind : Char → Bool) :
    LooksOneAhead fun cs => reader (cs.dropWhile kind) :=
  .of_run kind fun text hall => ⟨reader, h, fun rest hrest => by rw [dropWhile_append_notAhead hall hrest]⟩

theorem expect {next : List Char → Reading (α × List Char)} (wanted : Char) (h : LooksOneAhead next) :
    LooksOneAhead fun cs => Path.expect wanted cs >>= next := by
  refine of_first ⟨.error (.expected wanted none), rfl⟩ fun c => ?_
  by_cases hc : c = wanted
  · exact ⟨_, h.tail, fun after => by rw [Path.expect, if_pos hc]; rfl⟩
  · exact ⟨_, stop (.error (.expected wanted (some c))), fun after => by rw [Path.expect, if_neg hc]; rfl⟩

end LooksOneAhead

/-! ## The readers -/

theorem looksOneAhead_name? : LooksOneAhead fun cs => .ok (name? cs) := by
  refine .of_run isNameChar fun text hall => ?_
  by_cases hnone : text = []
  · exact ⟨_, .stop (.ok none), fun rest hrest => by rw [hnone, List.nil_append, name?_eq_none hrest]; rfl⟩
  · exact ⟨_, .stop (.ok (some _)), fun rest hrest => by rw [name?_append hnone hall hrest]; rfl⟩

theorem looksOneAhead_source : LooksOneAhead source := by
  refine .of_run (· != '`') fun text hall => ?_
  have hend : LooksOneAhead fun rest =>
      (if text = [] then .error ⟨rest, .emptyExpression⟩
        else .ok (.expression (String.ofList text), rest) : Reading (Node × List Char)) := by
    split
    · exact .stop (.error .emptyExpression)
    · exact .stop (.ok _)
  refine ⟨_, .expect '`' hend, fun rest hrest => ?_⟩
  rw [source, takeWhile_append_notAhead hall hrest, dropWhile_append_notAhead hall hrest]

theorem looksOneAhead_quotedText (quote : Char) : LooksOneAhead (quotedText quote) := by
  refine .of_run (!isQuote ·) fun text hall => ?_
  have hend : LooksOneAhead fun rest =>
      (if text = [] then .ok (none, rest)
        else .ok (some (.literal (String.ofList text) true), rest) : Reading (Option Node × List Char)) := by
    split
    · exact .stop (.ok none)
    · exact .stop (.ok (some _))
  refine ⟨_, .expect quote hend, fun rest hrest => ?_⟩
  rw [quotedText, takeWhile_append_notAhead hall hrest, dropWhile_append_notAhead hall hrest]

mutual

theorem looksOneAhead_path : ∀ steps, LooksOneAhead (path steps)
  | 0 => .stop (.ok [])
  | steps + 1 => by
    refine (looksOneAhead_item steps).bind fun nodes => .of_first ⟨.ok nodes, rfl⟩ fun c => ?_
    by_cases hbrace : c = '}'
    · exact ⟨_, .stop (.ok nodes), fun after => if_pos hbrace⟩
    by_cases hnone : nodes.isEmpty
    · exact ⟨_, .stop (.error (.unexpected c)), fun after => by simp only [if_neg hbrace, if_pos hnone]; rfl⟩
    by_cases hdot : c = '.'
    · exact ⟨_, ((looksOneAhead_path steps).bind fun more => .stop (.ok (nodes ++ more))).tail, fun after => by
        simp only [if_neg hbrace, if_neg hnone, if_pos hdot]; rfl⟩
    · exact ⟨_, .stop (.error (.expected '.' (some c))), fun after => by
        simp only [if_neg hbrace, if_neg hnone, if_neg hdot]; rfl⟩

theorem looksOneAhead_item : ∀ steps, LooksOneAhead (item steps)
  | 0 => .stop (.ok [])
  | steps + 1 => by
    refine (looksOneAhead_parts steps).bind fun found => ?_
    by_cases hnone : found.isEmpty
    · simp only [if_pos hnone]
      exact .stop (.ok [])
    · simp only [if_neg hnone]
      exact (looksOneAhead_brackets steps).bind fun selected => .stop (.ok (Node.ofParts found :: selected))

theorem looksOneAhead_parts : ∀ steps, LooksOneAhead (parts steps)
  | 0 => .stop (.ok [])
  | steps + 1 => by
    refine (looksOneAhead_part steps).bind fun first => ?_
    cases first with
    | none => exact .stop (.ok [])
    | some node => exact (looksOneAhead_parts steps).bind fun more => .stop (.ok (node :: more))

theorem looksOneAhead_part : ∀ steps, LooksOneAhead (part steps)
  | 0 => .stop (.ok none)
  | steps + 1 => by
    refine .of_first ⟨.ok none, rfl⟩ fun c => ?_
    by_cases hbrace : c = '{'
    · subst hbrace
      refine ⟨_, @LooksOneAhead.tail _ (fun cs => part (steps + 1) ('{' :: cs)) ?_, fun _ => rfl⟩
      refine .of_first ⟨.error .loneBrace, rfl⟩ fun d => ?_
      by_cases hsecond : d = '{'
      · subst hsecond
        refine ⟨_, .tail ((looksOneAhead_path steps).bind fun nodes => ?_), fun _ => rfl⟩
        exact .expect '}' (.expect '}' (.stop (.ok (some (Node.reference nodes)))))
      · exact ⟨_, .stop (.error .loneBrace), fun after => by simp [part, hsecond, ending]⟩
    by_cases htick : c = '`'
    · subst htick
      have hsource : LooksOneAhead fun cs => source cs >>= fun (node, rest) => .ok (some node, rest) :=
        looksOneAhead_source.bind fun node => .stop (.ok (some node))
      refine ⟨_, hsource.tail, fun after => ?_⟩
      rw [part]
      change (source after).map _ = source after >>= _
      cases source after <;> rfl
    · exact ⟨_, looksOneAhead_name?, fun after => by simp [part, hbrace, htick]⟩

theorem looksOneAhead_brackets : ∀ steps, LooksOneAhead (brackets steps)
  | 0 => .stop (.ok [])
  | steps + 1 => by
    refine .of_first ⟨.ok [], rfl⟩ fun c => ?_
    by_cases hopen : c = '['
    · subst hopen
      refine ⟨_, .tail ((looksOneAhead_bracket steps).bind fun node => ?_), fun _ => rfl⟩
      exact (looksOneAhead_brackets steps).bind fun more => .stop (.ok (node :: more))
    · exact ⟨_, .stop (.ok []), fun after => by simp [brackets, hopen, ending]⟩

theorem looksOneAhead_bracket : ∀ steps, LooksOneAhead (bracket steps)
  | 0 => .stop (.error .noOperand)
  | steps + 1 => by
    refine (looksOneAhead_operand steps).bind fun first => ?_
    cases first with
    | none => exact .stop (.error .noOperand)
    | some key =>
      let wanted (cs : List Char) : Reading (Node × List Char) := do
        let (value, rest) ← operand steps cs
        let rest ← expect ']' (skipSpaces rest)
        .ok (.query key value, rest)
      let closing (cs : List Char) : Reading (Node × List Char) :=
        match cs with
        | '=' :: rest => wanted (rest.dropWhile (· == '='))
        | rest => expect ']' rest >>= fun rest => .ok (key, rest)
      have hwanted : LooksOneAhead wanted :=
        (looksOneAhead_operand steps).bind fun value =>
          (LooksOneAhead.expect ']' (.stop (.ok (Node.query key value)))).skip (· == ' ')
      have hclosing : LooksOneAhead closing := by
        refine .of_first ⟨.error (.expected ']' none), rfl⟩ fun c => ?_
        by_cases hequals : c = '='
        · subst hequals
          exact ⟨_, (hwanted.skip (· == '=')).tail, fun _ => rfl⟩
        · exact ⟨_, .expect ']' (.stop (.ok key)), fun after => by simp [closing, hequals]; rfl⟩
      exact hclosing.skip (· == ' ')

theorem looksOneAhead_operand : ∀ steps, LooksOneAhead (operand steps)
  | 0 => .stop (.ok none)
  | steps + 1 => by
    let unspaced (cs : List Char) : Reading (Option Node × List Char) :=
      match cs with
      | '\'' :: rest => quotedText '\'' rest
      | '"' :: rest => quotedText '"' rest
      | rest => part steps rest
    have hunspaced : LooksOneAhead unspaced := by
      refine .of_first ⟨.ok none, part_eq_none (notAhead_nil _) steps⟩ fun c => ?_
      by_cases hsingle : c = '\''
      · subst hsingle
        exact ⟨_, (looksOneAhead_quotedText '\'').tail, fun _ => rfl⟩
      by_cases hdouble : c = '"'
      · subst hdouble
        exact ⟨_, (looksOneAhead_quotedText '"').tail, fun _ => rfl⟩
      · exact ⟨_, looksOneAhead_part steps, fun after => by simp [unspaced, hsingle, hdouble]⟩
    exact hunspaced.skip (· == ' ')

end

/-! ## Enough steps -/

theorem Reading.bind_congr {x : Reading α} {f g : α → Reading β} (h : ∀ a, x = .ok a → f a = g a) :
    x >>= f = x >>= g := by
  cases x with
  | error stop => rfl
  | ok a => exact h a rfl

/-- What is left is not longer than the text. -/
theorem LooksOneAhead.length_le {reader : List Char → Reading (α × List Char)} (h : LooksOneAhead reader)
    {cs rest : List Char} {a : α} (hread : reader cs = .ok (a, rest)) : rest.length ≤ cs.length := by
  obtain ⟨taken, left, result, rfl, hending⟩ := h cs
  rw [hending left rfl] at hread
  cases result with
  | error cause => cases hread
  | ok a' =>
    cases hread
    rw [List.length_append]
    omega

theorem LooksOneAhead.of_error {reader : List Char → Reading (α × List Char)} (h : LooksOneAhead reader)
    {cs : List Char} {stop : Stop} (hread : reader cs = .error stop) :
    ∃ taken, cs = taken ++ stop.rest ∧
      ∀ other, other.head? = stop.rest.head? → reader (taken ++ other) = .error ⟨other, stop.cause⟩ := by
  obtain ⟨taken, rest, result, rfl, hending⟩ := h cs
  rw [hending rest rfl] at hread
  cases result with
  | ok a => cases hread
  | error cause =>
    cases hread
    exact ⟨taken, rfl, hending⟩

/-- A part takes at least one character. -/
theorem length_lt_of_part {steps : Nat} {cs rest : List Char} {node : Node} (h : part steps cs = .ok (some node, rest)) :
    rest.length < cs.length := by
  rcases part_sound steps h with ⟨hnone, -⟩ | ⟨_, text, -, rfl, htext, -⟩
  · cases hnone
  · have hpos := List.length_pos_iff.2 htext.ne_nil
    rw [List.length_append]
    omega

mutual

theorem path_succ : ∀ steps {cs}, 4 * cs.length + 3 ≤ steps → path (steps + 1) cs = path steps cs
  | 0, _, h => by omega
  | steps + 1, cs, h => by
    rw [path, path, item_succ steps (by omega)]
    refine Reading.bind_congr fun ⟨nodes, rest⟩ hitem => ?_
    have hlength := (looksOneAhead_item steps).length_le hitem
    cases rest with
    | nil => rfl
    | cons c after =>
      rw [List.length_cons] at hlength
      simp only [@path_succ steps after (by omega)]

theorem item_succ : ∀ steps {cs}, 4 * cs.length + 2 ≤ steps → item (steps + 1) cs = item steps cs
  | 0, _, h => by omega
  | steps + 1, cs, h => by
    rw [item, item, parts_succ steps (by omega)]
    refine Reading.bind_congr fun ⟨found, rest⟩ hparts => ?_
    have hlength := (looksOneAhead_parts steps).length_le hparts
    simp only [@brackets_succ steps rest (by omega)]

theorem parts_succ : ∀ steps {cs}, 4 * cs.length + 1 ≤ steps → parts (steps + 1) cs = parts steps cs
  | 0, _, h => by omega
  | steps + 1, cs, h => by
    rw [parts, parts, part_succ steps (by omega)]
    refine Reading.bind_congr fun ⟨first, rest⟩ hpart => ?_
    cases first with
    | none => rfl
    | some node =>
      have hlength := length_lt_of_part hpart
      simp only [@parts_succ steps rest (by omega)]

theorem part_succ : ∀ steps {cs}, 4 * cs.length ≤ steps → part (steps + 1) cs = part steps cs
  | 0, cs, h => by
    obtain rfl : cs = [] := List.length_eq_zero_iff.1 (by omega)
    rfl
  | steps + 1, cs, h => by
    unfold part
    split
    · rename_i rest
      simp only [List.length_cons] at h
      rw [path_succ steps (by omega)]
    · rfl
    · rfl
    · rfl

theorem brackets_succ : ∀ steps {cs}, 4 * cs.length ≤ steps → brackets (steps + 1) cs = brackets steps cs
  | 0, cs, h => by
    obtain rfl : cs = [] := List.length_eq_zero_iff.1 (by omega)
    rfl
  | steps + 1, cs, h => by
    unfold brackets
    split
    · rename_i inside
      rw [List.length_cons] at h
      rw [bracket_succ steps (by omega)]
      refine Reading.bind_congr fun ⟨node, rest⟩ hbracket => ?_
      have hlength := (looksOneAhead_bracket steps).length_le hbracket
      simp only [@brackets_succ steps rest (by omega)]
    · rfl

theorem bracket_succ : ∀ steps {cs}, 4 * cs.length + 2 ≤ steps → bracket (steps + 1) cs = bracket steps cs
  | 0, _, h => by omega
  | steps + 1, cs, h => by
    rw [bracket, bracket, operand_succ steps (by omega)]
    refine Reading.bind_congr fun ⟨first, rest⟩ hkey => ?_
    have hlength := (looksOneAhead_operand steps).length_le hkey
    cases first with
    | none => rfl
    | some key =>
      have hskip : (skipSpaces rest).length ≤ rest.length := (List.dropWhile_suffix _).length_le
      dsimp only
      split
      · rename_i beyond hequals
        have hdrop : (beyond.dropWhile (· == '=')).length ≤ beyond.length := (List.dropWhile_suffix _).length_le
        rw [hequals, List.length_cons] at hskip
        rw [operand_succ steps (by omega)]
      · rfl

theorem operand_succ : ∀ steps {cs}, 4 * cs.length + 1 ≤ steps → operand (steps + 1) cs = operand steps cs
  | 0, _, h => by omega
  | steps + 1, cs, h => by
    have hskip : (skipSpaces cs).length ≤ cs.length := (List.dropWhile_suffix _).length_le
    unfold operand
    split
    · rfl
    · rfl
    · exact part_succ steps (by omega)

end

/-- More steps than the length of a text allows are not used. -/
theorem path_eq_of_le {cs : List Char} {steps : Nat} (h : readSteps cs.length ≤ steps) :
    path steps cs = path (readSteps cs.length) cs := by
  induction steps, h using Nat.le_induction with
  | base => rfl
  | succ steps hle ih =>
    rw [readSteps] at hle
    rw [path_succ steps (by omega), ih]

end DataBound.Path
