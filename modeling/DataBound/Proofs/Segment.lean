-- SUMMARY: The tagged spelling of a data path determines the path, and where one begins another, so do the paths.
import DataBound.Segment
import Std.Data.String.ToInt

/-!
# Tagged spellings

The spelling of one segment shows where it ends, so a tagged text can be cut into the spellings of its segments
in one way only. Keys that look like indices, and keys that contain the characters of the spelling
itself, are no exception. So one spelling begins another one only where the path begins the other path, and
paths with one spelling are equal.
-/

namespace DataBound

theorem Text.not_mem_repr {c : Char} (hc : c.isDigit = false) (n : Nat) : c ∉ n.repr.toList := by
  rw [Nat.toList_repr]
  intro hmem
  have hdigit := Nat.isDigit_of_mem_toDigits (by decide) (by decide) hmem
  rw [hc] at hdigit
  cases hdigit

theorem Text.not_mem_intRepr {c : Char} (hc : c.isDigit = false) (hm : c ≠ '-') (i : Int) :
    c ∉ (toString i).toList := by
  rw [Int.toString_eq_repr, Int.repr_eq_if]
  split
  · exact not_mem_repr hc _
  · rw [String.toList_append]
    intro hmem
    rcases List.mem_append.1 hmem with hmem | hmem
    · exact hm (by simpa using hmem)
    · exact not_mem_repr hc _ hmem

/-- A text is cut in one way only at the first place where a character stands. -/
theorem Text.cut_inj {c : Char} {cs ds rest more : List Char} (hc : c ∉ cs) (hd : c ∉ ds)
    (h : cs ++ c :: rest = ds ++ c :: more) : cs = ds ∧ rest = more := by
  induction cs generalizing ds with
  | nil =>
    cases ds with
    | nil => exact ⟨rfl, (List.cons.inj h).2⟩
    | cons d ds => exact absurd (List.cons.inj h).1 (fun heq => hd (heq ▸ List.mem_cons_self))
  | cons b cs ih =>
    cases ds with
    | nil => exact absurd (List.cons.inj h).1.symm (fun heq => hc (heq ▸ List.mem_cons_self))
    | cons d ds =>
      obtain ⟨rfl, htail⟩ := List.cons.inj h
      obtain ⟨rfl, hrest⟩ := ih (fun hmem => hc (List.mem_cons_of_mem _ hmem))
        (fun hmem => hd (List.mem_cons_of_mem _ hmem)) htail
      exact ⟨rfl, hrest⟩

namespace Segment

theorem index_tagged (position : Int64) :
    (index position).tagged.toList = '#' :: ((toString position.toInt).toList ++ [';']) := by
  simp [tagged]

theorem key_tagged (name : String) :
    (key name).tagged.toList = '$' :: ((Nat.repr name.utf8ByteSize).toList ++ ':' :: name.toList) := by
  simp [tagged, toString]

/-- Names of the same size in bytes are equal if texts that start with them are. -/
theorem name_inj {name other : String} {rest more : List Char} (hsize : name.utf8ByteSize = other.utf8ByteSize)
    (h : name.toList ++ rest = other.toList ++ more) : name = other ∧ rest = more := by
  have hnil : ∀ {a b : String} {left : List Char}, a.utf8ByteSize = b.utf8ByteSize →
      a.toList = b.toList ++ left → left = [] := by
    intro a b left hab heq
    have ha : a = b ++ String.ofList left := by
      apply String.toList_injective
      simp [heq]
    rw [ha, String.utf8ByteSize_append] at hab
    have hzero : (String.ofList left).utf8ByteSize = 0 := by omega
    simpa using hzero
  rcases List.append_eq_append_iff.1 h with ⟨left, hother, hrest⟩ | ⟨left, hname, hmore⟩
  · have hleft := hnil hsize.symm hother
    subst hleft
    exact ⟨String.toList_injective (by simpa using hother.symm), by simpa using hrest⟩
  · have hleft := hnil hsize hname
    subst hleft
    exact ⟨String.toList_injective (by simpa using hname), by simpa using hmore.symm⟩

/-- The spelling of a segment ends where the segment does. -/
theorem tagged_append_inj {s t : Segment} {rest more : List Char}
    (h : s.tagged.toList ++ rest = t.tagged.toList ++ more) : s = t ∧ rest = more := by
  cases s with
  | index p =>
    cases t with
    | index q =>
      simp only [index_tagged, List.cons_append, List.append_assoc, List.nil_append, List.cons.injEq,
        true_and] at h
      have hmark : ∀ i : Int, ';' ∉ (toString i).toList := Text.not_mem_intRepr (by decide) (by decide)
      obtain ⟨hdigits, hrest⟩ := Text.cut_inj (hmark _) (hmark _) h
      rw [String.toList_inj, Int.toString_eq_repr, Int.toString_eq_repr, Int.repr_inj, Int64.toInt_inj] at hdigits
      exact ⟨congrArg index hdigits, hrest⟩
    | key name =>
      simp only [index_tagged, key_tagged, List.cons_append, List.cons.injEq] at h
      exact absurd h.1 (by decide)
  | key name =>
    cases t with
    | index q =>
      simp only [index_tagged, key_tagged, List.cons_append, List.cons.injEq] at h
      exact absurd h.1 (by decide)
    | key other =>
      -- a name can hold any mark; the number in front of it says where it ends
      simp only [key_tagged, List.cons_append, List.append_assoc, List.cons.injEq, true_and] at h
      have hmark : ∀ n : Nat, ':' ∉ n.repr.toList := Text.not_mem_repr (by decide)
      obtain ⟨hsize, hname⟩ := Text.cut_inj (hmark _) (hmark _) h
      rw [String.toList_inj, Nat.repr_inj] at hsize
      obtain ⟨rfl, hrest⟩ := name_inj hsize hname
      exact ⟨rfl, hrest⟩

theorem tagged_ne_nil (s : Segment) : s.tagged.toList ≠ [] := by
  cases s with
  | index p => simp [index_tagged]
  | key name => simp [key_tagged]

end Segment

namespace DataPath

@[simp] theorem tagged_nil : tagged [] = "" := rfl

theorem tagged_cons (s : Segment) (path : DataPath) :
    (tagged (s :: path)).toList = s.tagged.toList ++ (tagged path).toList := by
  simp [tagged]

theorem tagged_append (path below : DataPath) :
    (tagged (path ++ below)).toList = (tagged path).toList ++ (tagged below).toList := by
  induction path with
  | nil => rfl
  | cons s path ih => rw [List.cons_append, tagged_cons, tagged_cons, ih, List.append_assoc]

/-- A path whose spelling begins that of another path begins the other path: no spelling ends inside a segment of
the other. -/
theorem isPrefix_of_tagged {path other : DataPath} (h : (tagged path).toList <+: (tagged other).toList) :
    path <+: other := by
  obtain ⟨rest, h⟩ := h
  induction path generalizing other with
  | nil => exact List.nil_prefix
  | cons s path ih =>
    rw [tagged_cons, List.append_assoc] at h
    cases other with
    | nil => exact absurd (List.append_eq_nil_iff.1 h).1 s.tagged_ne_nil
    | cons t other =>
      rw [tagged_cons] at h
      obtain ⟨rfl, htail⟩ := Segment.tagged_append_inj h
      exact (List.prefix_cons_inj s).2 (ih htail)

theorem tagged_isPrefix_iff {path other : DataPath} :
    (tagged path).toList <+: (tagged other).toList ↔ path <+: other := by
  refine ⟨isPrefix_of_tagged, ?_⟩
  rintro ⟨below, rfl⟩
  exact ⟨(tagged below).toList, (tagged_append path below).symm⟩

/-- Paths with the same tagged spelling are equal. -/
theorem tagged_inj {path other : DataPath} (h : tagged path = tagged other) : path = other := by
  have hthere : path <+: other := isPrefix_of_tagged (h ▸ List.prefix_rfl)
  have hback : other <+: path := isPrefix_of_tagged (h ▸ List.prefix_rfl)
  exact hthere.eq_of_length_le hback.length_le

/-- Spellings are equal just if the paths are, and one is a proper beginning of the other just if its path is one of the
other path. -/
theorem tagged_embeds (path other : DataPath) :
    (tagged path = tagged other ↔ path = other) ∧
    ((tagged path).toList <+: (tagged other).toList ∧ tagged path ≠ tagged other ↔ path <+: other ∧ path ≠ other) := by
  have heq : tagged path = tagged other ↔ path = other := ⟨tagged_inj, congrArg tagged⟩
  exact ⟨heq, and_congr tagged_isPrefix_iff (not_congr heq)⟩

/-- A key may hold the spelling of an index; its own spelling still differs from that of the key and the index apart. -/
example : tagged [.key "é#1;"] = "$5:é#1;" ∧ tagged [.key "é", .index 1] = "$2:é#1;" := by decide +kernel

end DataPath

end DataBound
