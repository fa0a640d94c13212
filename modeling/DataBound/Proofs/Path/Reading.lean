-- SUMMARY: Reading a path text accepts exactly the texts of the grammar, with the nodes they spell.
import DataBound.Proofs.Path.Syntax
import Mathlib.Data.List.TakeWhile

/-!
# Reading against the grammar

Soundness goes along the steps of the readers: whatever a reader takes off the front of a text is the text of
its phrase. It does not matter there whether the steps run out. Completeness goes along the derivation of
a phrase and asks for enough steps, four for each character of the phrase and a few more.

Main statement: `read_eq_ok_iff_pathText`.
-/

namespace DataBound.Path

/-- A computation followed by another one succeeds if both do. -/
theorem Reading.bind_eq_ok {α β : Type} {x : Reading α} {f : α → Reading β} {b : β} :
    (x >>= f) = .ok b ↔ ∃ a, x = .ok a ∧ f a = .ok b := by
  cases x with
  | error stop => simp [bind, Except.bind]
  | ok a => simp [bind, Except.bind]

/-! ## Leaves -/

/-- The text does not start with a character of this kind. -/
def NotAhead (kind : Char → Bool) (cs : List Char) : Prop := ∀ c ∈ cs.head?, kind c = false

@[simp] theorem notAhead_nil (kind : Char → Bool) : NotAhead kind [] := by simp [NotAhead]

@[simp] theorem notAhead_cons {kind : Char → Bool} {c : Char} {cs : List Char} :
    NotAhead kind (c :: cs) ↔ kind c = false := by simp [NotAhead]

theorem notAhead_dropWhile (kind : Char → Bool) (cs : List Char) :
    NotAhead kind (cs.dropWhile kind) := by
  intro c hc
  have := List.head?_dropWhile_not kind cs
  rw [hc] at this
  simpa using this

theorem takeWhile_append_notAhead {kind : Char → Bool} {cs rest : List Char}
    (hcs : ∀ c ∈ cs, kind c) (hrest : NotAhead kind rest) : (cs ++ rest).takeWhile kind = cs := by
  rw [List.takeWhile_append_of_pos hcs]
  cases rest with
  | nil => simp
  | cons c rest => simp [notAhead_cons.1 hrest]

theorem dropWhile_append_notAhead {kind : Char → Bool} {cs rest : List Char}
    (hcs : ∀ c ∈ cs, kind c) (hrest : NotAhead kind rest) : (cs ++ rest).dropWhile kind = rest := by
  rw [List.dropWhile_append_of_pos hcs]
  cases rest with
  | nil => simp
  | cons c rest => simp [notAhead_cons.1 hrest]

theorem expect_eq_ok_iff {wanted : Char} {cs rest : List Char} :
    expect wanted cs = .ok rest ↔ cs = wanted :: rest := by
  cases cs with
  | nil => simp [expect]
  | cons c cs =>
    by_cases h : c = wanted
    · simp [expect, h]
    · simp [expect, h]

@[simp] theorem expect_cons (wanted : Char) (rest : List Char) :
    expect wanted (wanted :: rest) = .ok rest := expect_eq_ok_iff.2 rfl

/-- What is dropped when one character is skipped are copies of it. -/
theorem eq_replicate_append_dropWhile (c : Char) (cs : List Char) :
    ∃ n, cs = List.replicate n c ++ cs.dropWhile (· == c) := by
  refine ⟨(cs.takeWhile (· == c)).length, ?_⟩
  have hcopies : cs.takeWhile (· == c) = List.replicate (cs.takeWhile (· == c)).length c := by
    refine List.eq_replicate_iff.2 ⟨rfl, fun d hd => ?_⟩
    simpa using List.mem_takeWhile_imp hd
  rw [← hcopies, List.takeWhile_append_dropWhile]

theorem eq_spaces_append_skipSpaces (cs : List Char) : ∃ n, cs = spaces n ++ skipSpaces cs :=
  eq_replicate_append_dropWhile ' ' cs

theorem skipSpaces_spaces_append (n : Nat) {cs : List Char} (h : NotAhead (· == ' ') cs) :
    skipSpaces (spaces n ++ cs) = cs :=
  dropWhile_append_notAhead (by simp [spaces]) h

/-! ## Soundness -/

theorem name?_sound {cs rest : List Char} {found : Option Node} (h : name? cs = (found, rest)) :
    (found = none ∧ rest = cs) ∨
      ∃ node text, found = some node ∧ cs = text ++ rest ∧ PartText text node ∧
        NotAhead isNameChar rest := by
  unfold name? at h
  split at h
  · simp only [Prod.mk.injEq] at h
    exact .inl ⟨h.1.symm, h.2.symm⟩
  · rename_i c more htake
    simp only [Prod.mk.injEq] at h
    obtain ⟨rfl, rfl⟩ := h
    refine .inr ⟨_, cs.takeWhile isNameChar, rfl, List.takeWhile_append_dropWhile.symm, ?_,
      notAhead_dropWhile _ _⟩
    rw [← htake]
    exact .name (by simp [htake]) fun c hc => List.mem_takeWhile_imp hc

theorem source_sound {cs rest : List Char} {node : Node} (h : source cs = .ok (node, rest)) :
    ∃ text, '`' :: cs = text ++ rest ∧ PartText text node ∧ node.isName = false := by
  unfold source at h
  rw [Reading.bind_eq_ok] at h
  obtain ⟨after, hexpect, h⟩ := h
  rw [expect_eq_ok_iff] at hexpect
  split at h
  · cases h
  · rename_i hne
    simp only [Except.ok.injEq, Prod.mk.injEq] at h
    obtain ⟨rfl, rfl⟩ := h
    refine ⟨'`' :: (cs.takeWhile (· != '`') ++ ['`']), ?_, .expression hne ?_, rfl⟩
    · simp [← hexpect]
    · intro hmem
      simpa using List.mem_takeWhile_imp hmem

theorem quotedText_sound {quote : Char} {cs rest : List Char} {found : Option Node}
    (hquote : isQuote quote) (h : quotedText quote cs = .ok (found, rest)) :
    ∃ text, quote :: cs = text ++ rest ∧ WantedText text found := by
  unfold quotedText at h
  rw [Reading.bind_eq_ok] at h
  obtain ⟨after, hexpect, h⟩ := h
  rw [expect_eq_ok_iff] at hexpect
  have hsplit := List.takeWhile_append_dropWhile (p := (!isQuote ·)) (l := cs)
  rw [hexpect] at hsplit
  split at h
  · rename_i hempty
    simp only [Except.ok.injEq, Prod.mk.injEq] at h
    obtain ⟨rfl, rfl⟩ := h
    rw [hempty] at hsplit
    exact ⟨[quote, quote], by simp [← hsplit], .emptyQuotes hquote⟩
  · rename_i hne
    simp only [Except.ok.injEq, Prod.mk.injEq] at h
    obtain ⟨rfl, rfl⟩ := h
    refine ⟨quote :: (cs.takeWhile (!isQuote ·) ++ [quote]), by simp [hsplit], ?_⟩
    refine .operand (.quoted hquote hne fun c hc => ?_)
    simpa using List.mem_takeWhile_imp hc

/-- Another item in front of a path, with the dot between them. -/
theorem PathText.cons {cs ds : List Char} {nodes more : List Node} (hitem : ItemText cs nodes)
    (hpath : PathText ds more) : PathText (cs ++ '.' :: ds) (nodes ++ more) := by
  cases hpath with
  | empty => simpa using PathText.trailingDot (.last hitem)
  | items hitems => exact .items (.cons hitem hitems)
  | trailingDot hitems => simpa using PathText.trailingDot (.cons hitem hitems)

/-- A part by itself. -/
theorem PartText.itemText {cs : List Char} {node : Node} (h : PartText cs node) : ItemText cs [node] := by
  have hitem : ItemText ((cs ++ []) ++ []) [node] := .mk (.cons h .nil) nofun (.singleton _) .nil
  rwa [List.append_nil, List.append_nil] at hitem

theorem PartText.ne_nil {cs : List Char} {node : Node} (h : PartText cs node) : cs ≠ [] := by
  cases h with
  | reference _ => simp
  | expression _ _ => simp
  | name hne _ => exact hne

/-- A part that is a name starts with a character of names. -/
theorem PartText.not_notAhead {cs rest : List Char} {node : Node} (h : PartText cs node)
    (hname : node.isName) : ¬ NotAhead isNameChar (cs ++ rest) := by
  cases h with
  | reference _ => cases hname
  | expression _ _ => cases hname
  | name hne hall =>
    cases cs with
    | nil => exact absurd rfl hne
    | cons c cs => simp [hall c]

/-- What a reader of one part gives. -/
def PartSound (cs : List Char) (found : Option Node) (rest : List Char) : Prop :=
  (found = none ∧ rest = cs) ∨
    ∃ node text, found = some node ∧ cs = text ++ rest ∧ PartText text node ∧
      (node.isName → NotAhead isNameChar rest)

theorem operand_sound_of_part {cs rest : List Char} {found : Option Node}
    (h : PartSound cs found rest) : ∃ text, cs = text ++ rest ∧ WantedText text found := by
  rcases h with ⟨rfl, rfl⟩ | ⟨node, text, rfl, rfl, htext, -⟩
  · exact ⟨[], rfl, .nothing⟩
  · exact ⟨text, rfl, .operand (.part htext)⟩

theorem pathText_of_item {cs rest : List Char} {nodes : List Node}
    (h : (nodes = [] ∧ rest = cs) ∨ ∃ text, cs = text ++ rest ∧ ItemText text nodes) :
    ∃ text, cs = text ++ rest ∧ PathText text nodes := by
  rcases h with ⟨rfl, rfl⟩ | ⟨text, rfl, htext⟩
  · exact ⟨[], rfl, .empty⟩
  · exact ⟨text, rfl, .items (.last htext)⟩

mutual

theorem path_sound : ∀ steps {cs rest nodes}, path steps cs = .ok (nodes, rest) →
    ∃ text, cs = text ++ rest ∧ PathText text nodes
  | 0, cs, rest, nodes, h => by
    simp only [path, Except.ok.injEq, Prod.mk.injEq] at h
    obtain ⟨rfl, rfl⟩ := h
    exact ⟨[], rfl, .empty⟩
  | steps + 1, cs, rest, nodes, h => by
    rw [path, Reading.bind_eq_ok] at h
    obtain ⟨⟨first, after⟩, hitem, h⟩ := h
    have hfirst := item_sound steps hitem
    cases after with
    | nil =>
      simp only [Except.ok.injEq, Prod.mk.injEq] at h
      obtain ⟨rfl, rfl⟩ := h
      exact pathText_of_item hfirst
    | cons c after =>
      simp only at h
      split at h
      · simp only [Except.ok.injEq, Prod.mk.injEq] at h
        obtain ⟨rfl, rfl⟩ := h
        exact pathText_of_item hfirst
      · split at h
        · cases h
        · rename_i hnonempty
          split at h
          · rename_i hdot
            rw [Reading.bind_eq_ok] at h
            obtain ⟨⟨more, end'⟩, hpath, h⟩ := h
            simp only [Except.ok.injEq, Prod.mk.injEq] at h
            obtain ⟨rfl, rfl⟩ := h
            obtain ⟨text, rfl, htext⟩ := path_sound steps hpath
            -- in front of a dot there must be an item
            rcases hfirst with ⟨rfl, -⟩ | ⟨itemText, rfl, hitemText⟩
            · exact absurd rfl hnonempty
            · exact ⟨itemText ++ '.' :: text, by simp [hdot], .cons hitemText htext⟩
          · cases h

theorem item_sound : ∀ steps {cs rest nodes}, item steps cs = .ok (nodes, rest) →
    (nodes = [] ∧ rest = cs) ∨ ∃ text, cs = text ++ rest ∧ ItemText text nodes
  | 0, cs, rest, nodes, h => by
    simp only [item, Except.ok.injEq, Prod.mk.injEq] at h
    exact .inl ⟨h.1.symm, h.2.symm⟩
  | steps + 1, cs, rest, nodes, h => by
    rw [item, Reading.bind_eq_ok] at h
    obtain ⟨⟨found, after⟩, hparts, h⟩ := h
    obtain ⟨text, rfl, htext, hchain⟩ := parts_sound steps hparts
    simp only at h
    split at h
    · rename_i hempty
      simp only [Except.ok.injEq, Prod.mk.injEq] at h
      obtain ⟨rfl, rfl⟩ := h
      obtain rfl : found = [] := by simpa using hempty
      cases htext
      exact .inl ⟨rfl, rfl⟩
    · rename_i hne
      rw [Reading.bind_eq_ok] at h
      obtain ⟨⟨selected, end'⟩, hbrackets, h⟩ := h
      simp only [Except.ok.injEq, Prod.mk.injEq] at h
      obtain ⟨rfl, rfl⟩ := h
      obtain ⟨more, rfl, hmore⟩ := brackets_sound steps hbrackets
      exact .inr ⟨text ++ more, by simp, .mk htext (by simpa using hne) hchain hmore⟩

theorem parts_sound : ∀ steps {cs rest nodes}, parts steps cs = .ok (nodes, rest) →
    ∃ text, cs = text ++ rest ∧ PartsText text nodes ∧ NoAdjacentNames nodes
  | 0, cs, rest, nodes, h => by
    simp only [parts, Except.ok.injEq, Prod.mk.injEq] at h
    obtain ⟨rfl, rfl⟩ := h
    exact ⟨[], rfl, .nil, .nil⟩
  | steps + 1, cs, rest, nodes, h => by
    rw [parts, Reading.bind_eq_ok] at h
    obtain ⟨⟨first, after⟩, hpart, h⟩ := h
    rcases part_sound steps hpart with ⟨rfl, rfl⟩ | ⟨node, text, rfl, rfl, htext, hahead⟩
    · simp only [Except.ok.injEq, Prod.mk.injEq] at h
      obtain ⟨rfl, rfl⟩ := h
      exact ⟨[], rfl, .nil, .nil⟩
    · simp only at h
      rw [Reading.bind_eq_ok] at h
      obtain ⟨⟨more, end'⟩, hmore, h⟩ := h
      simp only [Except.ok.injEq, Prod.mk.injEq] at h
      obtain ⟨rfl, rfl⟩ := h
      obtain ⟨moreText, rfl, hmoreText, hchain⟩ := parts_sound steps hmore
      refine ⟨text ++ moreText, by simp, .cons htext hmoreText, ?_⟩
      cases hmoreText with
      | nil => exact .singleton _
      | cons hnext _ =>
        -- a name is read as far as it goes, so no second one starts behind it
        refine .cons_cons (fun ⟨hname, hnextName⟩ => ?_) hchain
        rw [List.append_assoc] at hahead
        exact hnext.not_notAhead hnextName (hahead hname)

theorem part_sound : ∀ steps {cs rest found}, part steps cs = .ok (found, rest) →
    PartSound cs found rest
  | 0, cs, rest, found, h => by
    simp only [part, Except.ok.injEq, Prod.mk.injEq] at h
    exact .inl ⟨h.1.symm, h.2.symm⟩
  | steps + 1, cs, rest, found, h => by
    unfold part at h
    split at h
    · rw [Reading.bind_eq_ok] at h
      obtain ⟨⟨nodes, after⟩, hpath, h⟩ := h
      rw [Reading.bind_eq_ok] at h
      obtain ⟨once, honce, h⟩ := h
      rw [Reading.bind_eq_ok] at h
      obtain ⟨twice, htwice, h⟩ := h
      simp only [Except.ok.injEq, Prod.mk.injEq] at h
      obtain ⟨rfl, rfl⟩ := h
      rw [expect_eq_ok_iff] at honce htwice
      subst honce htwice
      obtain ⟨text, rfl, htext⟩ := path_sound steps hpath
      exact .inr ⟨_, _, rfl, by simp, .reference htext, by simp [Node.isName]⟩
    · cases h
    · rename_i cs
      cases hsource : source cs with
      | error stop => simp [hsource, Except.map] at h
      | ok read =>
        obtain ⟨node, after⟩ := read
        simp only [hsource, Except.map, Except.ok.injEq, Prod.mk.injEq] at h
        obtain ⟨rfl, rfl⟩ := h
        obtain ⟨text, htext, hpart, hname⟩ := source_sound hsource
        exact .inr ⟨node, text, rfl, htext, hpart, by simp [hname]⟩
    · simp only [Except.ok.injEq] at h
      rcases name?_sound h with hnone | ⟨node, text, hfound, hcs, htext, hahead⟩
      · exact .inl hnone
      · exact .inr ⟨node, text, hfound, hcs, htext, fun _ => hahead⟩

theorem brackets_sound : ∀ steps {cs rest nodes}, brackets steps cs = .ok (nodes, rest) →
    ∃ text, cs = text ++ rest ∧ BracketsText text nodes
  | 0, cs, rest, nodes, h => by
    simp only [brackets, Except.ok.injEq, Prod.mk.injEq] at h
    obtain ⟨rfl, rfl⟩ := h
    exact ⟨[], rfl, .nil⟩
  | steps + 1, cs, rest, nodes, h => by
    unfold brackets at h
    split at h
    · rename_i inside
      rw [Reading.bind_eq_ok] at h
      obtain ⟨⟨node, after⟩, hbracket, h⟩ := h
      rw [Reading.bind_eq_ok] at h
      obtain ⟨⟨more, end'⟩, hmore, h⟩ := h
      simp only [Except.ok.injEq, Prod.mk.injEq] at h
      obtain ⟨rfl, rfl⟩ := h
      obtain ⟨text, htext, hnode⟩ := bracket_sound steps hbracket
      obtain ⟨moreText, rfl, hmoreText⟩ := brackets_sound steps hmore
      exact ⟨text ++ moreText, by simp [htext], .cons hnode hmoreText⟩
    · simp only [Except.ok.injEq, Prod.mk.injEq] at h
      obtain ⟨rfl, rfl⟩ := h
      exact ⟨[], rfl, .nil⟩

theorem bracket_sound : ∀ steps {cs rest node}, bracket steps cs = .ok (node, rest) →
    ∃ text, '[' :: cs = text ++ rest ∧ BracketText text node
  | 0, cs, rest, node, h => by simp [bracket] at h
  | steps + 1, cs, rest, node, h => by
    rw [bracket, Reading.bind_eq_ok] at h
    obtain ⟨⟨first, afterKey⟩, hkey, h⟩ := h
    obtain ⟨before, text, rfl, htext⟩ := operand_sound steps hkey
    cases htext with
    | nothing => cases h
    | emptyQuotes _ => cases h
    | operand htext =>
      simp only at h
      obtain ⟨after, hafter⟩ := eq_spaces_append_skipSpaces afterKey
      split at h
      · rename_i beyond heq
        rw [heq] at hafter
        rw [Reading.bind_eq_ok] at h
        obtain ⟨⟨value, afterValue⟩, hvalue, h⟩ := h
        rw [Reading.bind_eq_ok] at h
        obtain ⟨end', hend, h⟩ := h
        simp only [Except.ok.injEq, Prod.mk.injEq] at h
        obtain ⟨rfl, rfl⟩ := h
        rw [expect_eq_ok_iff] at hend
        obtain ⟨inner, valueText, hinner, hvalueText⟩ := operand_sound steps hvalue
        obtain ⟨outer, houter⟩ := eq_spaces_append_skipSpaces afterValue
        obtain ⟨equals, hequals⟩ := eq_replicate_append_dropWhile '=' beyond
        refine ⟨_, ?_, .query before after equals inner outer htext hvalueText⟩
        rw [hafter, hequals, hinner, houter, hend]
        simp [List.replicate_succ]
      · rename_i hskip
        rw [Reading.bind_eq_ok] at h
        obtain ⟨end', hend, h⟩ := h
        simp only [Except.ok.injEq, Prod.mk.injEq] at h
        obtain ⟨rfl, rfl⟩ := h
        rw [expect_eq_ok_iff] at hend
        refine ⟨_, ?_, .operand before after htext⟩
        rw [hafter, hend]
        simp

theorem operand_sound : ∀ steps {cs rest found}, operand steps cs = .ok (found, rest) →
    ∃ n text, cs = spaces n ++ text ++ rest ∧ WantedText text found
  | 0, cs, rest, found, h => by
    simp only [operand, Except.ok.injEq, Prod.mk.injEq] at h
    obtain ⟨rfl, rfl⟩ := h
    exact ⟨0, [], rfl, .nothing⟩
  | steps + 1, cs, rest, found, h => by
    unfold operand at h
    obtain ⟨n, hn⟩ := eq_spaces_append_skipSpaces cs
    have htext : ∃ text, skipSpaces cs = text ++ rest ∧ WantedText text found := by
      split at h
      · rename_i heq
        rw [heq]
        exact quotedText_sound rfl h
      · rename_i heq
        rw [heq]
        exact quotedText_sound rfl h
      · exact operand_sound_of_part (part_sound steps h)
    obtain ⟨text, htext, hwanted⟩ := htext
    refine ⟨n, text, ?_, hwanted⟩
    rw [hn, htext, List.append_assoc]

end

/-! ## Completeness -/

/-- A character that starts a part. -/
def startsPart (c : Char) : Bool := isNameChar c || c == '{' || c == '`'

/-- What can follow an item. -/
def EndsItem (rest : List Char) : Prop := NotAhead startsPart rest ∧ NotAhead (· == '[') rest

/-- What can follow a path. -/
def EndsPath (rest : List Char) : Prop := NotAhead (· != '}') rest

theorem NotAhead.of_imp {kind wider : Char → Bool} {cs : List Char} (h : NotAhead wider cs)
    (himp : ∀ c, kind c → wider c) : NotAhead kind cs := by
  intro c hc
  have := h c hc
  cases hkind : kind c with
  | false => rfl
  | true => simp [himp c hkind] at this

theorem EndsPath.endsItem {rest : List Char} (h : EndsPath rest) : EndsItem rest := by
  cases rest with
  | nil => exact ⟨notAhead_nil _, notAhead_nil _⟩
  | cons c rest =>
    obtain rfl : c = '}' := by simpa [EndsPath] using h
    exact ⟨by simp [startsPart, isNameChar], by simp⟩

theorem name?_eq_none {cs : List Char} (h : NotAhead isNameChar cs) : name? cs = (none, cs) := by
  cases cs with
  | nil => rfl
  | cons c cs => simp [name?, notAhead_cons.1 h]

theorem name?_append {cs rest : List Char} (hne : cs ≠ []) (hall : ∀ c ∈ cs, isNameChar c)
    (hrest : NotAhead isNameChar rest) :
    name? (cs ++ rest) = (some (.literal (String.ofList cs) false), rest) := by
  unfold name?
  rw [takeWhile_append_notAhead hall hrest, dropWhile_append_notAhead hall hrest]
  cases cs with
  | nil => exact absurd rfl hne
  | cons c cs => rfl

theorem source_append {cs : List Char} (hne : cs ≠ []) (hall : '`' ∉ cs) (rest : List Char) :
    source (cs ++ '`' :: rest) = .ok (.expression (String.ofList cs), rest) := by
  have hkind : ∀ c ∈ cs, c != '`' := by
    intro c hc
    rw [bne_iff_ne]
    rintro rfl
    exact hall hc
  unfold source
  rw [takeWhile_append_notAhead hkind (by simp), dropWhile_append_notAhead hkind (by simp),
    expect_cons]
  simp [bind, Except.bind, hne]

theorem quotedText_append {quote : Char} {cs : List Char} (hquote : isQuote quote)
    (hall : ∀ c ∈ cs, ¬ isQuote c) (rest : List Char) :
    quotedText quote (cs ++ quote :: rest) =
      .ok (if cs = [] then none else some (.literal (String.ofList cs) true), rest) := by
  have hkind : ∀ c ∈ cs, !isQuote c := fun c hc => by simpa using hall c hc
  unfold quotedText
  rw [takeWhile_append_notAhead hkind (by simp [hquote]),
    dropWhile_append_notAhead hkind (by simp [hquote]), expect_cons]
  by_cases hempty : cs = []
  · simp [bind, Except.bind, hempty]
  · simp [bind, Except.bind, hempty]

theorem part_eq_none {rest : List Char} (h : NotAhead startsPart rest) (steps : Nat) :
    part steps rest = .ok (none, rest) := by
  cases steps with
  | zero => rfl
  | succ steps =>
    have hname : NotAhead isNameChar rest := h.of_imp fun c hc => by simp [startsPart, hc]
    unfold part
    split
    · simp [startsPart] at h
    · simp [startsPart] at h
    · simp [startsPart] at h
    · rw [name?_eq_none hname]

theorem parts_eq_nil {rest : List Char} (h : NotAhead startsPart rest) (steps : Nat) :
    parts steps rest = .ok ([], rest) := by
  cases steps with
  | zero => rfl
  | succ steps =>
    rw [parts, part_eq_none h]
    rfl

theorem path_eq_nil {rest : List Char} (h : EndsPath rest) (steps : Nat) :
    path steps rest = .ok ([], rest) := by
  match steps with
  | 0 => rfl
  | 1 =>
    cases rest with
    | nil => rfl
    | cons c rest =>
      obtain rfl : c = '}' := by simpa [EndsPath] using h
      rfl
  | steps + 2 =>
    rw [path, item, parts_eq_nil h.endsItem.1]
    cases rest with
    | nil => rfl
    | cons c rest =>
      obtain rfl : c = '}' := by simpa [EndsPath] using h
      rfl

theorem brackets_eq_nil {rest : List Char} (h : NotAhead (· == '[') rest) (steps : Nat) :
    brackets steps rest = .ok ([], rest) := by
  cases steps with
  | zero => rfl
  | succ steps =>
    unfold brackets
    split
    · simp at h
    · rfl

/-- Characters that can stand between an operand and what is around it. -/
def isOperandGap (c : Char) : Bool := c == ' ' || c == '='

theorem PartText.notAhead_gap {cs : List Char} {node : Node} (h : PartText cs node)
    (rest : List Char) : NotAhead (fun c => isOperandGap c || isQuote c) (cs ++ rest) := by
  cases h with
  | reference _ => simp [isOperandGap, isQuote]
  | expression _ _ => simp [isOperandGap, isQuote]
  | name hne hall =>
    cases cs with
    | nil => exact absurd rfl hne
    | cons c cs =>
      have hname := hall c (by simp)
      rw [List.cons_append, notAhead_cons]
      simp only [isNameChar, List.contains_cons] at hname
      simp only [isOperandGap, isQuote]
      grind

theorem OperandText.notAhead_gap {cs : List Char} {node : Node} (h : OperandText cs node)
    (rest : List Char) : NotAhead isOperandGap (cs ++ rest) := by
  cases h with
  | part htext => exact (htext.notAhead_gap rest).of_imp fun c hc => by simp [hc]
  | @quoted quote _ hquote _ _ =>
    rw [List.cons_append, notAhead_cons]
    simp only [isQuote, Bool.or_eq_true, beq_iff_eq] at hquote
    rcases hquote with rfl | rfl <;> rfl

/-- A part that is no name does not start with a character of names. -/
theorem PartText.notAhead_name {cs : List Char} {node : Node} (h : PartText cs node)
    (hname : ¬ node.isName) (rest : List Char) : NotAhead isNameChar (cs ++ rest) := by
  cases h with
  | reference _ => simp [isNameChar]
  | expression _ _ => simp [isNameChar]
  | name _ _ => simp [Node.isName] at hname

/-- Where one part of a segment ends, no longer name could go on. -/
theorem PartsText.notAhead_name {cs rest : List Char} {node : Node} {more : List Node}
    (h : PartsText cs more) (hchain : NoAdjacentNames (node :: more))
    (hrest : NotAhead startsPart rest) (hname : node.isName) :
    NotAhead isNameChar (cs ++ rest) := by
  cases h with
  | nil => exact hrest.of_imp fun c hc => by simp [startsPart, hc]
  | @cons _ next _ _ hnext _ =>
    have hnextName : ¬ next.isName := fun hnextName => by
      cases hchain with
      | cons_cons hpair _ => exact hpair ⟨hname, hnextName⟩
    rw [List.append_assoc]
    exact hnext.notAhead_name hnextName _

theorem ItemText.ne_nil {cs : List Char} {nodes : List Node} (h : ItemText cs nodes) :
    nodes ≠ [] := by
  cases h with
  | mk _ _ _ _ => simp

/-- A path that is one item ends where something else than a dot follows. -/
theorem path_of_item_end {steps : Nat} {cs rest : List Char} {nodes : List Node}
    (h : item steps cs = .ok (nodes, rest)) (hrest : EndsPath rest) :
    path (steps + 1) cs = .ok (nodes, rest) := by
  rw [path, h]
  cases rest with
  | nil => rfl
  | cons c rest =>
    obtain rfl : c = '}' := by simpa [EndsPath] using hrest
    rfl

/-- A dot after an item leads on to more of the path. -/
theorem path_of_item_dot {steps : Nat} {cs after rest : List Char} {nodes more : List Node}
    (h : item steps cs = .ok (nodes, '.' :: after)) (hne : nodes ≠ [])
    (hmore : path steps after = .ok (more, rest)) :
    path (steps + 1) cs = .ok (nodes ++ more, rest) := by
  rw [path, h]
  simp [bind, Except.bind, hmore, hne]

theorem skipSpaces_of_notAhead {cs : List Char} (h : NotAhead (· == ' ') cs) : skipSpaces cs = cs :=
  skipSpaces_spaces_append 0 h

theorem notAhead_spaces_append {kind : Char → Bool} {cs : List Char} (n : Nat)
    (hspace : kind ' ' = false) (hcs : NotAhead kind cs) : NotAhead kind (spaces n ++ cs) := by
  cases n with
  | zero => exact hcs
  | succ n => simp [spaces, List.replicate_succ, hspace]

theorem part_of_name {steps : Nat} {cs rest : List Char} (hne : cs ≠ [])
    (hall : ∀ c ∈ cs, isNameChar c) : part (steps + 1) (cs ++ rest) = .ok (name? (cs ++ rest)) := by
  cases cs with
  | nil => exact absurd rfl hne
  | cons c cs =>
    have hc := hall c (by simp)
    unfold part
    split
    · rename_i heq
      simp only [List.cons_append, List.cons.injEq] at heq
      simp [heq.1, isNameChar] at hc
    · rename_i heq
      simp only [List.cons_append, List.cons.injEq] at heq
      simp [heq.1, isNameChar] at hc
    · rename_i heq
      simp only [List.cons_append, List.cons.injEq] at heq
      simp [heq.1, isNameChar] at hc
    · rfl

theorem operand_spaces_append {steps : Nat} {cs : List Char} (n : Nat)
    (h : NotAhead (· == ' ') cs) : operand (steps + 1) (spaces n ++ cs) = operand (steps + 1) cs := by
  simp only [operand, skipSpaces_spaces_append n h, skipSpaces_of_notAhead h]

theorem operand_of_part {steps : Nat} {cs : List Char}
    (h : NotAhead (fun c => c == ' ' || isQuote c) cs) :
    operand (steps + 1) cs = part steps cs := by
  have hspace : NotAhead (· == ' ') cs := h.of_imp fun c hc => by simp [hc]
  unfold operand
  rw [skipSpaces_of_notAhead hspace]
  split
  · simp [isQuote] at h
  · simp [isQuote] at h
  · rfl

theorem operand_of_quote {steps : Nat} {quote : Char} (hquote : isQuote quote) (cs : List Char) :
    operand (steps + 1) (quote :: cs) = quotedText quote cs := by
  simp only [isQuote, Bool.or_eq_true, beq_iff_eq] at hquote
  rcases hquote with rfl | rfl <;> rfl

theorem bracket_of_operand {steps : Nat} {cs after rest : List Char} {node : Node}
    (hkey : operand steps cs = .ok (some node, after)) (hafter : skipSpaces after = ']' :: rest) :
    bracket (steps + 1) cs = .ok (node, rest) := by
  rw [bracket, hkey]
  simp [bind, Except.bind, hafter]

theorem bracket_of_query {steps : Nat} {cs after beyond left rest : List Char} {key : Node}
    {value : Option Node} (hkey : operand steps cs = .ok (some key, after))
    (hafter : skipSpaces after = '=' :: beyond)
    (hvalue : operand steps (beyond.dropWhile (· == '=')) = .ok (value, left))
    (hleft : skipSpaces left = ']' :: rest) : bracket (steps + 1) cs = .ok (.query key value, rest) := by
  rw [bracket, hkey]
  simp [bind, Except.bind, hafter, hvalue, hleft]

/-- What is wanted does not start with an equals sign. -/
theorem WantedText.notAhead_equals {cs : List Char} {value : Option Node} (h : WantedText cs value)
    (inner outer : Nat) (rest : List Char) :
    NotAhead (· == '=') (spaces inner ++ (cs ++ (spaces outer ++ ']' :: rest))) := by
  refine notAhead_spaces_append inner rfl ?_
  cases h with
  | nothing => exact notAhead_spaces_append outer rfl (by simp)
  | @emptyQuotes quote hquote =>
    simp only [isQuote, Bool.or_eq_true, beq_iff_eq] at hquote
    rcases hquote with rfl | rfl <;> simp
  | operand h => exact (h.notAhead_gap _).of_imp fun c hc => by simp [isOperandGap, hc]

mutual

theorem PathText.path_append {cs : List Char} {nodes : List Node} :
    PathText cs nodes → ∀ steps rest, 4 * cs.length + 3 ≤ steps → EndsPath rest →
      path steps (cs ++ rest) = .ok (nodes, rest)
  | .empty, steps, rest, _, hrest => path_eq_nil hrest steps
  | .items h, steps, rest, hsteps, hrest => by
    simpa using h.path_append [] (.inl rfl) steps rest (by simpa using hsteps) hrest
  | .trailingDot h, steps, rest, hsteps, hrest => by
    simpa using h.path_append ['.'] (.inr rfl) steps rest (by simpa using hsteps) hrest

theorem ItemsText.path_append {cs : List Char} {nodes : List Node} :
    ItemsText cs nodes → ∀ dot, (dot = [] ∨ dot = ['.']) → ∀ steps rest,
      4 * (cs ++ dot).length + 3 ≤ steps → EndsPath rest →
      path steps (cs ++ dot ++ rest) = .ok (nodes, rest)
  | .last h, dot, hdot, steps, rest, hsteps, hrest => by
    obtain ⟨steps, rfl⟩ : ∃ n, steps = n + 1 := ⟨steps - 1, by omega⟩
    rcases hdot with rfl | rfl
    · rw [List.append_nil] at hsteps ⊢
      exact path_of_item_end (h.item_append steps rest (by omega) hrest.endsItem) hrest
    · simp only [List.length_append, List.length_singleton] at hsteps
      have hitem := h.item_append steps ('.' :: rest) (by omega)
        ⟨by simp [startsPart, isNameChar], by simp⟩
      simpa using path_of_item_dot hitem h.ne_nil (path_eq_nil hrest steps)
  | @ItemsText.cons _ _ ds _ h hmore, dot, hdot, steps, rest, hsteps, hrest => by
    obtain ⟨steps, rfl⟩ : ∃ n, steps = n + 1 := ⟨steps - 1, by omega⟩
    simp only [List.length_append, List.length_cons] at hsteps
    have hitem := h.item_append steps ('.' :: (ds ++ dot ++ rest)) (by omega)
      ⟨by simp [startsPart, isNameChar], by simp⟩
    have hpath := hmore.path_append dot hdot steps rest
      (by simp only [List.length_append]; omega) hrest
    simpa using path_of_item_dot hitem h.ne_nil hpath

theorem ItemText.item_append {cs : List Char} {nodes : List Node} :
    ItemText cs nodes → ∀ steps rest, 4 * cs.length + 2 ≤ steps → EndsItem rest →
      item steps (cs ++ rest) = .ok (nodes, rest)
  | @ItemText.mk cs _ ds _ h hne hchain hbrackets, steps, rest, hsteps, hrest => by
    obtain ⟨steps, rfl⟩ : ∃ n, steps = n + 1 := ⟨steps - 1, by omega⟩
    simp only [List.length_append] at hsteps
    -- the parts end at a bracket, or at what ends the item
    have hahead : NotAhead startsPart (ds ++ rest) := by
      cases hbrackets with
      | nil => exact hrest.1
      | cons hbracket _ =>
        cases hbracket with
        | operand _ _ _ => simp [startsPart, isNameChar]
        | query _ _ _ _ _ _ _ => simp [startsPart, isNameChar]
    have hparts := h.parts_append hchain steps (ds ++ rest) (by omega) hahead
    have hselected := hbrackets.brackets_append steps rest (by omega) hrest.2
    rw [List.append_assoc, item, hparts]
    simp [bind, Except.bind, hselected, hne]

theorem PartsText.parts_append {cs : List Char} {nodes : List Node} :
    PartsText cs nodes → NoAdjacentNames nodes → ∀ steps rest, 4 * cs.length + 1 ≤ steps →
      NotAhead startsPart rest → parts steps (cs ++ rest) = .ok (nodes, rest)
  | .nil, _, steps, rest, _, hrest => parts_eq_nil hrest steps
  | @PartsText.cons _ _ ds more h hmore, hchain, steps, rest, hsteps, hrest => by
    obtain ⟨steps, rfl⟩ : ∃ n, steps = n + 1 := ⟨steps - 1, by omega⟩
    have hpos := List.length_pos_iff.2 h.ne_nil
    simp only [List.length_append] at hsteps
    have hpart := h.part_append steps (ds ++ rest) (by omega) (hmore.notAhead_name hchain hrest)
    have htail : parts steps (ds ++ rest) = .ok (more, rest) :=
      hmore.parts_append hchain.tail steps rest (by omega) hrest
    rw [List.append_assoc, parts, hpart]
    simp [bind, Except.bind, htail]

theorem PartText.part_append {cs : List Char} {node : Node} :
    PartText cs node → ∀ steps rest, 4 * cs.length ≤ steps →
      (node.isName → NotAhead isNameChar rest) → part steps (cs ++ rest) = .ok (some node, rest)
  | .reference h, steps, rest, hsteps, _ => by
    obtain ⟨steps, rfl⟩ : ∃ n, steps = n + 1 := ⟨steps - 1, by simp at hsteps; omega⟩
    have hpath := h.path_append steps ('}' :: '}' :: rest)
      (by simp only [List.length_cons, List.length_append] at hsteps; omega) (by simp [EndsPath])
    simp only [List.cons_append, List.append_assoc, List.nil_append, part]
    simp [bind, Except.bind, hpath]
  | .expression hne hall, steps, rest, hsteps, _ => by
    obtain ⟨steps, rfl⟩ : ∃ n, steps = n + 1 := ⟨steps - 1, by simp at hsteps; omega⟩
    simp only [List.cons_append, List.append_assoc, List.nil_append, part]
    rw [source_append hne hall]
    rfl
  | .name hne hall, steps, rest, hsteps, hrest => by
    have hpos := List.length_pos_iff.2 hne
    obtain ⟨steps, rfl⟩ : ∃ n, steps = n + 1 := ⟨steps - 1, by omega⟩
    rw [part_of_name hne hall, name?_append hne hall (hrest rfl)]

theorem BracketsText.brackets_append {cs : List Char} {nodes : List Node} :
    BracketsText cs nodes → ∀ steps rest, 4 * cs.length ≤ steps → NotAhead (· == '[') rest →
      brackets steps (cs ++ rest) = .ok (nodes, rest)
  | .nil, steps, rest, _, hrest => brackets_eq_nil hrest steps
  | @BracketsText.cons _ _ ds _ h hmore, steps, rest, hsteps, hrest => by
    obtain ⟨inside, rfl, hinside⟩ := h.bracket_append
    simp only [List.length_append, List.length_cons] at hsteps
    obtain ⟨steps, rfl⟩ : ∃ n, steps = n + 1 := ⟨steps - 1, by omega⟩
    have hnode := hinside steps (ds ++ rest) (by omega)
    have htail := hmore.brackets_append steps rest (by omega) hrest
    simp only [List.cons_append, List.append_assoc, brackets]
    simp [bind, Except.bind, hnode, htail]

theorem BracketText.bracket_append {cs : List Char} {node : Node} :
    BracketText cs node → ∃ inside, cs = '[' :: inside ∧
      ∀ steps rest, 4 * inside.length ≤ steps → bracket steps (inside ++ rest) = .ok (node, rest)
  | .operand before after h => by
    refine ⟨_, rfl, fun steps rest hsteps => ?_⟩
    simp only [List.length_append, List.length_singleton] at hsteps
    obtain ⟨steps, rfl⟩ : ∃ n, steps = n + 1 := ⟨steps - 1, by omega⟩
    have hkey := h.operand_append before steps (spaces after ++ ']' :: rest) (by omega)
      (notAhead_spaces_append after (by simp [isNameChar]) (by simp [isNameChar]))
    have hskip : skipSpaces (spaces after ++ ']' :: rest) = ']' :: rest :=
      skipSpaces_spaces_append after (by simp)
    simpa using bracket_of_operand hkey hskip
  | @BracketText.query _ _ ds _ before after equals inner outer h hvalue => by
    refine ⟨_, rfl, fun steps rest hsteps => ?_⟩
    simp only [List.length_append, List.length_singleton] at hsteps
    obtain ⟨steps, rfl⟩ : ∃ n, steps = n + 1 := ⟨steps - 1, by omega⟩
    -- the text behind the equals signs
    let beyond := spaces inner ++ (ds ++ (spaces outer ++ ']' :: rest))
    have hkey := h.operand_append before steps
      (spaces after ++ '=' :: (List.replicate equals '=' ++ beyond)) (by omega)
      (notAhead_spaces_append after (by simp [isNameChar]) (by simp [isNameChar]))
    have hskip : skipSpaces (spaces after ++ '=' :: (List.replicate equals '=' ++ beyond)) =
        '=' :: (List.replicate equals '=' ++ beyond) := skipSpaces_spaces_append after (by simp)
    obtain ⟨left, hleft, hend⟩ := hvalue.operand_append inner outer steps rest (by omega)
    have hdrop : (List.replicate equals '=' ++ beyond).dropWhile (· == '=') = beyond :=
      dropWhile_append_notAhead (by simp) (hvalue.notAhead_equals inner outer rest)
    have hbracket := bracket_of_query hkey hskip (by rw [hdrop]; exact hleft) hend
    simpa [beyond, List.replicate_succ] using hbracket

theorem OperandText.operand_append {cs : List Char} {node : Node} :
    OperandText cs node → ∀ before steps rest, 4 * cs.length + 1 ≤ steps →
      NotAhead isNameChar rest →
      operand steps (spaces before ++ (cs ++ rest)) = .ok (some node, rest)
  | .part h, before, steps, rest, hsteps, hrest => by
    obtain ⟨steps, rfl⟩ : ∃ n, steps = n + 1 := ⟨steps - 1, by omega⟩
    have hgap := h.notAhead_gap rest
    rw [operand_spaces_append before (hgap.of_imp fun c hc => by simp [isOperandGap, hc]),
      operand_of_part (hgap.of_imp fun c hc => by grind [isOperandGap])]
    exact h.part_append steps rest (by omega) fun _ => hrest
  | .quoted hquote hne hall, before, steps, rest, hsteps, hrest => by
    obtain ⟨steps, rfl⟩ : ∃ n, steps = n + 1 := ⟨steps - 1, by omega⟩
    have hgap := (OperandText.quoted hquote hne hall).notAhead_gap rest
    rw [operand_spaces_append before (hgap.of_imp fun c hc => by simp [isOperandGap, hc]),
      List.cons_append, operand_of_quote hquote, List.append_assoc, List.singleton_append,
      quotedText_append hquote hall, if_neg hne]

theorem WantedText.operand_append {cs : List Char} {value : Option Node} :
    WantedText cs value → ∀ before after steps rest, 4 * cs.length + 1 ≤ steps →
      ∃ left, operand steps (spaces before ++ (cs ++ (spaces after ++ ']' :: rest))) =
          .ok (value, left) ∧ skipSpaces left = ']' :: rest
  | .nothing, before, after, steps, rest, hsteps => by
    obtain ⟨steps, rfl⟩ : ∃ n, steps = n + 1 := ⟨steps - 1, by omega⟩
    refine ⟨']' :: rest, ?_, skipSpaces_of_notAhead (by simp)⟩
    have hjoin : spaces before ++ ([] ++ (spaces after ++ ']' :: rest)) =
        spaces (before + after) ++ ']' :: rest := by
      rw [List.nil_append, spaces, spaces, spaces, List.replicate_add, List.append_assoc]
    rw [hjoin, operand_spaces_append _ (by simp), operand_of_part (by simp [isQuote])]
    exact part_eq_none (by simp [startsPart, isNameChar]) steps
  | @WantedText.emptyQuotes quote hquote, before, after, steps, rest, hsteps => by
    obtain ⟨steps, rfl⟩ : ∃ n, steps = n + 1 := ⟨steps - 1, by omega⟩
    refine ⟨spaces after ++ ']' :: rest, ?_, skipSpaces_spaces_append after (by simp)⟩
    have hspace : NotAhead (· == ' ') ([quote, quote] ++ (spaces after ++ ']' :: rest)) := by
      simp only [isQuote, Bool.or_eq_true, beq_iff_eq] at hquote
      rcases hquote with rfl | rfl <;> simp
    rw [operand_spaces_append before hspace]
    have hread : quotedText quote ([] ++ quote :: (spaces after ++ ']' :: rest)) =
        .ok (none, spaces after ++ ']' :: rest) := by
      rw [quotedText_append hquote (by simp), if_pos rfl]
    rw [List.cons_append, operand_of_quote hquote]
    exact hread
  | .operand h, before, after, steps, rest, hsteps => by
    refine ⟨spaces after ++ ']' :: rest, ?_, skipSpaces_spaces_append after (by simp)⟩
    exact h.operand_append before steps _ hsteps
      (notAhead_spaces_append after (by simp [isNameChar]) (by simp [isNameChar]))

end

/-! ## Whole texts -/

theorem pathText_of_read_eq_ok {raw : String} {nodes : List Node} (h : read raw = .ok nodes) :
    PathText raw.toList nodes := by
  unfold read at h
  simp only at h
  split at h
  · cases h
  · rename_i found hpath
    obtain ⟨text, htext, hspelled⟩ := path_sound _ hpath
    simp only [Except.ok.injEq] at h
    rw [htext, List.append_nil, ← h]
    exact hspelled
  · cases h

theorem read_eq_ok_of_pathText {raw : String} {nodes : List Node} (h : PathText raw.toList nodes) :
    read raw = .ok nodes := by
  have hpath := h.path_append (readSteps raw.toList.length) [] (by simp only [readSteps]; omega)
    (by simp [EndsPath])
  rw [List.append_nil] at hpath
  simp only [read, hpath]

/-- The grammar is accepted exactly: reading gives the nodes that the text spells, no text spells two trees, and
    a text that spells none is rejected. -/
theorem read_eq_ok_iff_pathText (raw : String) :
    (∀ nodes, read raw = .ok nodes ↔ PathText raw.toList nodes) ∧
      (∀ nodes other, PathText raw.toList nodes → PathText raw.toList other → nodes = other) ∧
      ((∃ fault, read raw = .error fault) ↔ ¬ ∃ nodes, PathText raw.toList nodes) := by
  have hiff : ∀ nodes, read raw = .ok nodes ↔ PathText raw.toList nodes := fun nodes =>
    ⟨pathText_of_read_eq_ok, read_eq_ok_of_pathText⟩
  refine ⟨hiff, fun nodes other hnodes hother => ?_, ?_⟩
  · rw [← hiff] at hnodes hother
    rw [hnodes, Except.ok.injEq] at hother
    exact hother
  · simp only [← hiff]
    cases read raw with
    | error fault => simp
    | ok nodes => simp

end DataBound.Path
