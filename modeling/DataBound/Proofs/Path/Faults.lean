-- SUMMARY: A fault stands at the first character with which a text can no longer become a path.
import DataBound.Proofs.Path.Lookahead

/-!
# Where faults stand

Up to a fault everything can still become a path: each reader that stops has taken the beginning of its phrase, and
what is missing of the phrases around it can be added. With the character at the fault nothing can, since no reader
looks beyond it. Two faults come one phrase late: an expression and the text of a key are found to be empty when they
are closed.
-/

namespace DataBound.Path

variable {α β : Type}

/-- The fault is that what was closed last is empty: an expression, or a quoted text where an operand is needed. -/
def ClosedEmpty (taken : List Char) (cause : Fault.Cause) : Prop :=
  cause = .emptyExpression ∨ cause = .noOperand ∧ ∃ quote, isQuote quote ∧ [quote, quote] <:+ taken

theorem ClosedEmpty.within {taken : List Char} {cause : Fault.Cause} (h : ClosedEmpty taken cause) (before : List Char) :
    ClosedEmpty (before ++ taken) cause := by
  rcases h with hcause | ⟨hcause, quote, hquote, hsuffix⟩
  · exact .inl hcause
  · exact .inr ⟨hcause, quote, hquote, hsuffix.trans (List.suffix_append _ _)⟩

/-- What was taken up to the stop is the beginning of such a text, unless something empty was closed. -/
def Completable (phrase : List Char → Prop) (cs : List Char) (stop : Stop) : Prop :=
  ∃ taken, cs = taken ++ stop.rest ∧ (ClosedEmpty taken stop.cause ∨ ∃ more, phrase (taken ++ more))

/-- A phrase that stands inside of another one. -/
theorem Completable.within {phrase outer : List Char → Prop} {cs : List Char} {stop : Stop}
    (h : Completable phrase cs stop) (before : List Char) (houter : ∀ text, phrase text → ∃ after, outer (before ++ (text ++ after))) :
    Completable outer (before ++ cs) stop := by
  obtain ⟨taken, rfl, hclosed | ⟨more, hphrase⟩⟩ := h
  · exact ⟨before ++ taken, (List.append_assoc ..).symm, .inl (hclosed.within before)⟩
  · obtain ⟨after, hafter⟩ := houter _ hphrase
    exact ⟨before ++ taken, (List.append_assoc ..).symm, .inr ⟨more ++ after, by simpa using hafter⟩⟩

theorem Completable.imp {phrase outer : List Char → Prop} {cs : List Char} {stop : Stop} (h : Completable phrase cs stop)
    (houter : ∀ text, phrase text → outer text) : Completable outer cs stop :=
  h.within [] fun text htext => ⟨[], by simpa using houter text htext⟩

theorem Reading.bind_eq_error {x : Reading α} {f : α → Reading β} {stop : Stop} :
    (x >>= f) = .error stop ↔ x = .error stop ∨ ∃ a, x = .ok a ∧ f a = .error stop := by
  cases x with
  | error cause => simp [bind, Except.bind]
  | ok a => simp [bind, Except.bind]

theorem rest_of_expect {wanted : Char} {cs : List Char} {stop : Stop} (h : expect wanted cs = .error stop) :
    stop.rest = cs := by
  cases cs with
  | nil =>
    obtain rfl := Except.error.inj h
    rfl
  | cons c cs =>
    rw [expect] at h
    split at h
    · cases h
    · obtain rfl := Except.error.inj h
      rfl

/-! ## The phrases -/

/-- An expression that is not closed, or closed at once. -/
theorem source_completable {cs : List Char} {stop : Stop} (h : source cs = .error stop) :
    Completable (fun text => ∃ node, PartText ('`' :: text) node ∧ ¬ node.isName) cs stop := by
  have hsplit := List.takeWhile_append_dropWhile (p := (· != '`')) (l := cs)
  rw [source, Reading.bind_eq_error] at h
  rcases h with hexpect | ⟨rest, hexpect, h⟩
  · let text := cs.takeWhile (· != '`') ++ ['x']
    have htext : PartText ('`' :: (text ++ ['`'])) (.expression (String.ofList text)) := by
      refine .expression (by simp [text]) fun hmem => ?_
      rcases List.mem_append.1 hmem with hmem | hmem
      · simpa using List.mem_takeWhile_imp hmem
      · simp at hmem
    refine ⟨cs.takeWhile (· != '`'), by rw [rest_of_expect hexpect, hsplit], .inr ⟨['x', '`'],
      .expression (String.ofList text), ?_, Bool.false_ne_true⟩⟩
    simpa [text] using htext
  · split at h
    · cases h
      rw [expect_eq_ok_iff] at hexpect
      refine ⟨cs.takeWhile (· != '`') ++ ['`'], ?_, .inl (.inl rfl)⟩
      rw [List.append_assoc, List.singleton_append, ← hexpect, hsplit]
    · cases h

/-- A quoted text that is not closed. -/
theorem quotedText_completable {quote : Char} (hquote : isQuote quote) {cs : List Char} {stop : Stop}
    (h : quotedText quote cs = .error stop) :
    Completable (fun text => ∃ node, OperandText (quote :: text) node) cs stop := by
  have hsplit := List.takeWhile_append_dropWhile (p := (!isQuote ·)) (l := cs)
  rw [quotedText, Reading.bind_eq_error] at h
  rcases h with hexpect | ⟨rest, hexpect, h⟩
  · let text := cs.takeWhile (!isQuote ·) ++ ['x']
    have htext : OperandText (quote :: (text ++ [quote])) (.literal (String.ofList text) true) := by
      refine .quoted hquote (by simp [text]) fun c hmem => ?_
      rcases List.mem_append.1 hmem with hmem | hmem
      · simpa using List.mem_takeWhile_imp hmem
      · obtain rfl := List.mem_singleton.1 hmem
        simp [isQuote]
    refine ⟨cs.takeWhile (!isQuote ·), by rw [rest_of_expect hexpect, hsplit], .inr ⟨['x', quote],
      .literal (String.ofList text) true, ?_⟩⟩
    simpa [text] using htext
  · split at h <;> cases h

/-- A name that can stand for whatever is missing. -/
theorem partText_x : PartText ['x'] (.literal (String.ofList ['x']) false) := by
  have hx : isNameChar 'x' := by decide
  exact .name nofun (List.forall_mem_singleton.2 hx)

/-- Where only the closing bracket is missing. -/
theorem closing_completable {taken rest : List Char} {node : Node} {stop : Stop}
    (hnode : ∀ n, BracketText ('[' :: (taken ++ spaces n ++ [']'])) node)
    (h : expect ']' (skipSpaces rest) = .error stop) :
    Completable (fun text => ∃ node, BracketText ('[' :: text) node) (taken ++ rest) stop := by
  obtain ⟨n, hn⟩ := eq_spaces_append_skipSpaces rest
  refine ⟨taken ++ spaces n, ?_, .inr ⟨[']'], node, hnode n⟩⟩
  rw [rest_of_expect h, List.append_assoc, ← hn]

/-- Parts of which the first one fits where the text starts. -/
def StartsParts (cs text : List Char) : Prop :=
  ∃ nodes, nodes ≠ [] ∧ PartsText text nodes ∧ NoAdjacentNames nodes ∧
    ∀ node ∈ nodes.head?, node.isName → ¬ NotAhead isNameChar cs

/-- Spaces and an operand. -/
def StartsOperand (text : List Char) : Prop :=
  ∃ before cs node, text = spaces before ++ cs ∧ OperandText cs node

mutual

theorem path_completable : ∀ steps {cs stop}, path steps cs = .error stop →
    Completable (fun text => ∃ nodes, PathText text nodes) cs stop
  | 0, _, _, h => nomatch h
  | steps + 1, cs, stop, h => by
    rw [path, Reading.bind_eq_error] at h
    rcases h with hitem | ⟨⟨nodes, rest⟩, hitem, h⟩
    · refine (item_completable steps hitem).imp fun text htext => ?_
      obtain ⟨nodes, htext⟩ := htext
      exact ⟨nodes, .items (.last htext)⟩
    have hfirst := item_sound steps hitem
    have htaken : ∀ cause, Completable (fun text => ∃ nodes, PathText text nodes) cs ⟨rest, cause⟩ := by
      intro cause
      obtain ⟨text, hcs, htext⟩ := pathText_of_item hfirst
      exact ⟨text, hcs, .inr ⟨[], nodes, by rwa [List.append_nil]⟩⟩
    cases rest with
    | nil => cases h
    | cons c after =>
      dsimp only at h
      split at h
      · cases h
      split at h
      · cases h
        exact htaken _
      rename_i hnonempty
      split at h
      · rename_i hdot
        rw [Reading.bind_eq_error] at h
        rcases h with hmore | ⟨_, _, h⟩
        · -- in front of a dot there must be an item
          rcases hfirst with ⟨rfl, -⟩ | ⟨itemText, rfl, hitemText⟩
          · exact absurd rfl hnonempty
          · rw [hdot, List.append_cons]
            refine (path_completable steps hmore).within (itemText ++ ['.']) fun text htext => ?_
            obtain ⟨more, htext⟩ := htext
            exact ⟨[], nodes ++ more, by simpa using PathText.cons hitemText htext⟩
        · cases h
      · cases h
        exact htaken _

theorem item_completable : ∀ steps {cs stop}, item steps cs = .error stop →
    Completable (fun text => ∃ nodes, ItemText text nodes) cs stop
  | 0, _, _, h => nomatch h
  | steps + 1, cs, stop, h => by
    rw [item, Reading.bind_eq_error] at h
    rcases h with hparts | ⟨⟨found, rest⟩, hparts, h⟩
    · refine (parts_completable steps hparts).imp fun text hstart => ?_
      obtain ⟨nodes, hne, htext, hchain, -⟩ := hstart
      have hitem := ItemText.mk htext hne hchain .nil
      rw [List.append_nil] at hitem
      exact ⟨_, hitem⟩
    · obtain ⟨text, rfl, htext, hchain⟩ := parts_sound steps hparts
      dsimp only at h
      split at h
      · cases h
      · rename_i hne
        rw [Reading.bind_eq_error] at h
        rcases h with hbrackets | ⟨_, _, h⟩
        · refine (brackets_completable steps hbrackets).within text fun more ⟨selected, hmore⟩ => ⟨[], ?_⟩
          rw [List.append_nil]
          exact ⟨_, .mk htext (by simpa using hne) hchain hmore⟩
        · cases h

theorem parts_completable : ∀ steps {cs stop}, parts steps cs = .error stop → Completable (StartsParts cs) cs stop
  | 0, _, _, h => nomatch h
  | steps + 1, cs, stop, h => by
    rw [parts, Reading.bind_eq_error] at h
    rcases h with hpart | ⟨⟨first, rest⟩, hpart, h⟩
    · refine (part_completable steps hpart).imp fun text ⟨node, htext, hname⟩ => ?_
      have hparts := PartsText.cons htext .nil
      rw [List.append_nil] at hparts
      refine ⟨[node], nofun, hparts, .singleton _, fun node' hnode' hname' => ?_⟩
      cases hnode'
      exact absurd hname' hname
    · rcases part_sound steps hpart with ⟨rfl, rfl⟩ | ⟨node, text, rfl, rfl, htext, hahead⟩
      · cases h
      · dsimp only at h
        rw [Reading.bind_eq_error] at h
        rcases h with hmore | ⟨_, _, h⟩
        · refine (parts_completable steps hmore).within text fun more hstart => ⟨[], ?_⟩
          obtain ⟨nodes, -, hparts, hchain, hfits⟩ := hstart
          rw [List.append_nil]
          refine ⟨node :: nodes, nofun, .cons htext hparts, ?_, fun node' hnode' hname => ?_⟩
          · cases nodes with
            | nil => exact .singleton _
            | cons next nodes =>
              -- a name is read as far as it goes, so what comes next does not start as a name
              exact .cons_cons (fun ⟨hname, hnext⟩ => hfits next rfl hnext (hahead hname)) hchain
          · cases hnode'
            exact htext.not_notAhead hname
        · cases h

theorem part_completable : ∀ steps {cs stop}, part steps cs = .error stop →
    Completable (fun text => ∃ node, PartText text node ∧ ¬ node.isName) cs stop
  | 0, _, _, h => nomatch h
  | steps + 1, cs, stop, h => by
    unfold part at h
    split at h
    · rename_i inside
      rw [Reading.bind_eq_error] at h
      rcases h with hpath | ⟨⟨nodes, rest⟩, hpath, h⟩
      · exact (path_completable steps hpath).within ['{', '{'] fun text ⟨nodes, htext⟩ =>
          ⟨['}', '}'], _, .reference htext, Bool.false_ne_true⟩
      obtain ⟨text, rfl, htext⟩ := path_sound steps hpath
      rw [Reading.bind_eq_error] at h
      rcases h with hfirst | ⟨rest', hfirst, h⟩
      · refine ⟨'{' :: '{' :: text, ?_, .inr ⟨['}', '}'], _, .reference htext, Bool.false_ne_true⟩⟩
        rw [rest_of_expect hfirst]
        rfl
      rw [expect_eq_ok_iff] at hfirst
      rw [Reading.bind_eq_error] at h
      rcases h with hsecond | ⟨_, _, h⟩
      · refine ⟨'{' :: '{' :: (text ++ ['}']), ?_, .inr ⟨['}'], .reference nodes, ?_, Bool.false_ne_true⟩⟩
        · rw [rest_of_expect hsecond]
          simp [hfirst]
        · simpa using PartText.reference htext
      · cases h
    · cases h
      exact ⟨['{'], rfl, .inr ⟨['{', '}', '}'], _, .reference .empty, Bool.false_ne_true⟩⟩
    · rename_i cs
      cases hsource : source cs with
      | ok read =>
        rw [hsource] at h
        cases h
      | error stop' =>
        rw [hsource] at h
        cases h
        exact (source_completable hsource).within ['`'] fun text htext => ⟨[], by simpa using htext⟩
    · cases h

theorem brackets_completable : ∀ steps {cs stop}, brackets steps cs = .error stop →
    Completable (fun text => ∃ nodes, BracketsText text nodes) cs stop
  | 0, _, _, h => nomatch h
  | steps + 1, cs, stop, h => by
    unfold brackets at h
    split at h
    · rename_i inside
      rw [Reading.bind_eq_error] at h
      rcases h with hbracket | ⟨⟨node, rest⟩, hbracket, h⟩
      · refine (bracket_completable steps hbracket).within ['['] fun text ⟨node, htext⟩ => ⟨[], [node], ?_⟩
        have hbrackets := BracketsText.cons htext .nil
        simpa using hbrackets
      · obtain ⟨text, htext, hnode⟩ := bracket_sound steps hbracket
        rw [htext]
        rw [Reading.bind_eq_error] at h
        rcases h with hmore | ⟨_, _, h⟩
        · exact (brackets_completable steps hmore).within text fun more ⟨nodes, hmoreText⟩ =>
            ⟨[], node :: nodes, by simpa using BracketsText.cons hnode hmoreText⟩
        · cases h
    · cases h

theorem bracket_completable : ∀ steps {cs stop}, bracket steps cs = .error stop →
    Completable (fun text => ∃ node, BracketText ('[' :: text) node) cs stop
  | 0, cs, _, h => by
    cases h
    exact ⟨[], rfl, .inr ⟨['x', ']'], _, .operand 0 0 (.part partText_x)⟩⟩
  | steps + 1, cs, stop, h => by
    rw [bracket, Reading.bind_eq_error] at h
    rcases h with hkey | ⟨⟨first, afterKey⟩, hkey, h⟩
    · refine (operand_completable steps hkey).within [] fun text ⟨before, key, node, htext, hkeyText⟩ => ⟨[']'], node, ?_⟩
      simpa [htext, spaces] using BracketText.operand before 0 hkeyText
    obtain ⟨before, text, rfl, htext⟩ := operand_sound steps hkey
    cases htext with
    | nothing =>
      cases h
      have hoperand := BracketText.operand before 0 (.part partText_x)
      exact ⟨spaces before, by simp, .inr ⟨['x', ']'], _, by simpa [spaces] using hoperand⟩⟩
    | @emptyQuotes quote hquote =>
      cases h
      exact ⟨spaces before ++ [quote, quote], rfl, .inl (.inr ⟨rfl, quote, hquote, List.suffix_append _ _⟩)⟩
    | @operand _ key htext =>
      obtain ⟨after, hafter⟩ := eq_spaces_append_skipSpaces afterKey
      dsimp only at h
      split at h
      · rename_i beyond heq
        obtain ⟨equals, hequals⟩ := eq_replicate_append_dropWhile '=' beyond
        let query := spaces before ++ text ++ spaces after ++ List.replicate (equals + 1) '='
        have hcs : spaces before ++ text ++ afterKey = query ++ beyond.dropWhile (· == '=') := by
          rw [hafter, heq]
          nth_rewrite 1 [hequals]
          simp [query, List.replicate_succ]
        rw [hcs]
        rw [Reading.bind_eq_error] at h
        rcases h with hvalue | ⟨⟨value, afterValue⟩, hvalue, h⟩
        · refine (operand_completable steps hvalue).within query fun wanted ⟨inner, ds, node, hwanted, hds⟩ => ?_
          refine ⟨[']'], .query key (some node), ?_⟩
          simpa [query, hwanted, spaces] using BracketText.query before after equals inner 0 htext (.operand hds)
        · obtain ⟨inner, valueText, hinner, hvalueText⟩ := operand_sound steps hvalue
          rw [Reading.bind_eq_error] at h
          rcases h with hend | ⟨_, _, h⟩
          · have htaken : query ++ beyond.dropWhile (· == '=') = query ++ spaces inner ++ valueText ++ afterValue := by
              rw [hinner]
              simp
            rw [htaken]
            have hquery (outer : Nat) := BracketText.query before after equals inner outer htext hvalueText
            exact closing_completable (fun outer => by simpa [query] using hquery outer) hend
          · cases h
      · rw [Reading.bind_eq_error] at h
        rcases h with hend | ⟨_, _, h⟩
        · have hoperand (after : Nat) := BracketText.operand before after htext
          exact closing_completable (fun after => by simpa using hoperand after) hend
        · cases h

theorem operand_completable : ∀ steps {cs stop}, operand steps cs = .error stop → Completable StartsOperand cs stop
  | 0, _, _, h => nomatch h
  | steps + 1, cs, stop, h => by
    unfold operand at h
    obtain ⟨n, hn⟩ := eq_spaces_append_skipSpaces cs
    have hunspaced : Completable (fun text => ∃ node, OperandText text node) (skipSpaces cs) stop := by
      split at h
      · rename_i heq
        rw [heq]
        exact (quotedText_completable rfl h).within ['\''] fun text htext => ⟨[], by simpa using htext⟩
      · rename_i heq
        rw [heq]
        exact (quotedText_completable rfl h).within ['"'] fun text htext => ⟨[], by simpa using htext⟩
      · exact (part_completable steps h).imp fun text ⟨node, htext, _⟩ => ⟨node, .part htext⟩
    rw [hn]
    exact hunspaced.within (spaces n) fun text ⟨node, htext⟩ => ⟨[], n, text, node, by simp, htext⟩

end

/-! ## Whole texts -/

/-- The path that takes up a whole text. -/
def whole (steps : Nat) (cs : List Char) : Reading (List Node × List Char) :=
  path steps cs >>= fun (nodes, rest) =>
    match rest with
    | [] => .ok (nodes, [])
    | c :: after => .error ⟨c :: after, .unexpected c⟩

theorem looksOneAhead_whole (steps : Nat) : LooksOneAhead (whole steps) :=
  (looksOneAhead_path steps).bind fun nodes =>
    .of_first ⟨.ok nodes, rfl⟩ fun c => ⟨_, .stop (.error (.unexpected c)), fun _ => rfl⟩

theorem whole_completable {steps : Nat} {cs : List Char} {stop : Stop} (h : whole steps cs = .error stop) :
    Completable (fun text => ∃ nodes, PathText text nodes) cs stop := by
  rcases Reading.bind_eq_error.1 h with hpath | ⟨⟨nodes, rest⟩, hpath, hleft⟩
  · exact path_completable steps hpath
  · obtain ⟨text, rfl, htext⟩ := path_sound steps hpath
    cases rest with
    | nil => cases hleft
    | cons c after =>
      cases hleft
      exact ⟨text, rfl, .inr ⟨[], nodes, by rwa [List.append_nil]⟩⟩

theorem read_eq_whole {raw : String} {steps : Nat} (hsteps : readSteps raw.toList.length ≤ steps) :
    read raw = match whole steps raw.toList with
      | .error stop => .error ⟨raw.toList.length - stop.rest.length, stop.cause⟩
      | .ok (nodes, _) => .ok nodes := by
  rw [whole, path_eq_of_le hsteps, read]
  cases path (readSteps raw.toList.length) raw.toList with
  | error stop => rfl
  | ok found =>
    obtain ⟨nodes, rest⟩ := found
    cases rest <;> rfl

/-- A fault of a text is a stop of its reader, however many steps it has. -/
theorem read_eq_error_iff {raw : String} {fault : Fault} {steps : Nat} (hsteps : readSteps raw.toList.length ≤ steps) :
    read raw = .error fault ↔ ∃ taken rest, raw.toList = taken ++ rest ∧ taken.length = fault.position ∧
      whole steps (taken ++ rest) = .error ⟨rest, fault.cause⟩ := by
  rw [read_eq_whole hsteps]
  constructor
  · intro h
    cases hwhole : whole steps raw.toList with
    | ok found =>
      rw [hwhole] at h
      cases h
    | error stop =>
      rw [hwhole] at h
      cases h
      obtain ⟨taken, hraw, -⟩ := (looksOneAhead_whole steps).of_error hwhole
      refine ⟨taken, stop.rest, hraw, ?_, by rw [← hraw, hwhole]⟩
      rw [hraw, List.length_append, Nat.add_sub_cancel]
  · rintro ⟨taken, rest, hraw, hposition, hwhole⟩
    rw [hraw, hwhole]
    simp only [List.length_append, Nat.add_sub_cancel, hposition]

/-- A fault of a text stands at the exact place: within the text or at its end, the characters up to there and the one
there decide it, and without the latter the text can still become a path, unless something empty was closed. -/
theorem read_error_exact {raw : String} {fault : Fault} (h : read raw = .error fault) :
    fault.position ≤ raw.toList.length ∧
    (∀ other : String, other.toList.take fault.position = raw.toList.take fault.position →
      other.toList[fault.position]? = raw.toList[fault.position]? → read other = .error fault) ∧
    (¬ ClosedEmpty (raw.toList.take fault.position) fault.cause →
      ∃ more nodes, read (String.ofList (raw.toList.take fault.position ++ more)) = .ok nodes) := by
  refine ⟨?_, fun other htake hnext => ?_, fun hopen => ?_⟩
  · obtain ⟨taken, rest, hraw, hposition, -⟩ := (read_eq_error_iff le_rfl).1 h
    rw [hraw, ← hposition, List.length_append]
    omega
  · let steps := max (readSteps raw.toList.length) (readSteps other.toList.length)
    obtain ⟨taken, rest, hraw, hposition, hwhole⟩ := (read_eq_error_iff (Nat.le_max_left _ _ : _ ≤ steps)).1 h
    rw [← hposition, hraw, List.take_left] at htake
    rw [← hposition, hraw, List.getElem?_append_right le_rfl, Nat.sub_self, ← List.head?_eq_getElem?] at hnext
    -- the other text goes on with the same character
    have hother := (List.take_append_drop taken.length other.toList).symm
    rw [htake] at hother
    have hhead : (other.toList.drop taken.length).head? = rest.head? := by rw [List.head?_drop, hnext]
    obtain ⟨taken', hsplit, hread⟩ := (looksOneAhead_whole steps).of_error hwhole
    obtain rfl := List.append_cancel_right hsplit
    exact (read_eq_error_iff (Nat.le_max_right _ _ : _ ≤ steps)).2 ⟨taken, _, hother, hposition, hread _ hhead⟩
  · obtain ⟨taken, rest, hraw, hposition, hwhole⟩ := (read_eq_error_iff le_rfl).1 h
    rw [← hposition, hraw, List.take_left] at hopen ⊢
    obtain ⟨taken', hsplit, hclosed | ⟨more, nodes, htext⟩⟩ := whole_completable hwhole
    · obtain rfl := List.append_cancel_right hsplit
      exact absurd hclosed hopen
    · obtain rfl := List.append_cancel_right hsplit
      exact ⟨more, nodes, read_eq_ok_of_pathText (by rwa [String.toList_ofList])⟩

/-- The second of two dots is the fault of this text, and there a name could stand. -/
theorem read_error_exact_dots :
    read "a..b" = .error ⟨2, .unexpected '.'⟩ ∧
    2 ≤ "a..b".toList.length ∧
    (∀ other : String, other.toList.take 2 = "a..b".toList.take 2 → other.toList[2]? = "a..b".toList[2]? →
      read other = .error ⟨2, .unexpected '.'⟩) ∧
    ∃ more nodes, read (String.ofList ("a..b".toList.take 2 ++ more)) = .ok nodes := by
  have htext : "a..b".toList = ['a', '.', '.', 'b'] := by decide +kernel
  have hread : read "a..b" = .error ⟨2, .unexpected '.'⟩ := by
    rw [read_eq_error_iff le_rfl, htext]
    refine ⟨['a', '.'], ['.', 'b'], rfl, rfl, ?_⟩
    cbv
  obtain ⟨hposition, hsame, hcompletes⟩ := read_error_exact hread
  refine ⟨hread, hposition, hsame, hcompletes ?_⟩
  rintro (hcause | ⟨hcause, -⟩) <;> cases hcause

end DataBound.Path
