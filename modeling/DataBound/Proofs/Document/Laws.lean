-- SUMMARY: The laws of reading and writing a document at one path, and when two paths name the same place.
import DataBound.Proofs.Document
import Std.Data.String.ToInt

/-!
# Laws of documents

A write that is not given up on its way is read back, the last of several writes at a path decides, and writing what is
there changes nothing. A place has many spellings: where the text of every segment is the same, an index and a key that
spells it are two names of one place, and paths with different texts name different places of some document.
-/

namespace DataBound

/-! ## Positions -/

namespace Segment

/-- An array position is named by every segment that spells it in decimal. -/
theorem position?_eq_some_iff {s : Segment} {n : Nat} :
    s.position? = some n ↔ toString n = s.text ∧ n < 0x1_0000_0000_0000_0000 := by
  cases s with
  | index i =>
    have hlt : i.toInt < 0x8000_0000_0000_0000 := i.toInt_lt
    have htext : toString n = (index i).text ↔ (n : Int) = i.toInt := by
      rw [text, ← Int.repr_inj, ← Int.toString_eq_repr, ← Int.toString_eq_repr]
      rfl
    rw [htext, position?]
    split
    · rw [Option.some.injEq]
      omega
    · simp only [reduceCtorEq, false_iff]
      omega
  | key name =>
    rw [position?, Option.bind_eq_some_iff]
    constructor
    · rintro ⟨m, -, hm⟩
      obtain ⟨⟨hlt, hname⟩, hmn⟩ := Option.ite_none_right_eq_some.1 hm
      obtain rfl := Option.some.inj hmn
      exact ⟨hname, hlt⟩
    · rintro ⟨hname, hlt⟩
      have hdigits : Text.digits? name.toList = some n := by
        rw [← show toString n = name from hname, Nat.toString_eq_repr, Nat.toList_repr]
        exact Text.digits?_toDigits n
      exact ⟨n, hdigits, if_pos ⟨hlt, hname⟩⟩

theorem position?_congr {s t : Segment} (h : s.text = t.text) : s.position? = t.position? := by
  apply Option.ext
  intro n
  rw [position?_eq_some_iff, position?_eq_some_iff, h]

end Segment

namespace Fields

theorem update_update (key : String) (change change' : Value → Value) (fields : Fields) :
    update key change' (update key change fields) = update key (fun v => change' (change v)) fields := by
  induction fields with
  | nil => simp [update]
  | cons field rest ih =>
    obtain ⟨k, v⟩ := field
    by_cases h : k = key
    · simp [update, h]
    · simpa [update, h] using ih

theorem update_eq_self {key : String} {change : Value → Value} {fields : Fields} {v : Value}
    (hfind : find? key fields = some v) (hchange : change v = v) : update key change fields = fields := by
  induction fields with
  | nil => cases hfind
  | cons field rest ih =>
    obtain ⟨k, w⟩ := field
    by_cases h : k = key
    · rw [find?, if_pos h, Option.some.injEq] at hfind
      rw [update, if_pos h, hfind, hchange]
    · rw [find?, if_neg h] at hfind
      rw [update, if_neg h, ih hfind]

end Fields

namespace Value

variable {old v new : Value} {s t : Segment} {path other : DataPath}

/-! ## Reading -/

theorem child?_congr (h : s.text = t.text) : old.child? s = old.child? t := by
  cases old with
  | array items => rw [child?, child?, Segment.position?_congr h]
  | object fields => rw [child?, child?, h]
  | null => rfl
  | bool flag => rfl
  | number n => rfl
  | string text => rfl

/-- Paths with the same texts are read alike. -/
theorem get?_congr (h : path.map Segment.text = other.map Segment.text) : old.get? path = old.get? other := by
  induction path generalizing other old with
  | nil =>
    obtain rfl := List.map_eq_nil_iff.1 h.symm
    rfl
  | cons s path ih =>
    cases other with
    | nil => cases h
    | cons t other =>
      obtain ⟨hst, hrest⟩ := List.cons.inj h
      rw [get?_cons, get?_cons, child?_congr hst]
      exact congrArg _ (funext fun next => ih hrest)

/-- Objects inside one another, with the value at the path and nothing else. -/
def nested (path : DataPath) (v : Value) : Value := path.foldr (fun s below => .object [(s.text, below)]) v

theorem get?_nested (path : DataPath) (v : Value) : (nested path v).get? path = some v := by
  induction path with
  | nil => exact get?_nil v
  | cons s path ih =>
    rw [get?_cons, nested, List.foldr_cons, child?, Fields.find?, if_pos rfl]
    exact ih

/-- A scalar inside objects is found at the texts of its path only. -/
theorem texts_eq_of_get?_nested {flag : Bool} (h : (nested path (.bool flag)).get? other = some (.bool flag)) :
    other.map Segment.text = path.map Segment.text := by
  induction path generalizing other with
  | nil =>
    cases other with
    | nil => rfl
    | cons t other => cases h
  | cons s path ih =>
    cases other with
    | nil => cases h
    | cons t other =>
      rw [get?_cons, nested, List.foldr_cons, child?, Fields.find?] at h
      by_cases hst : s.text = t.text
      · rw [if_pos hst] at h
        rw [List.map_cons, List.map_cons, hst, ih h]
      · rw [if_neg hst] at h
        cases h

/-! ## Writing -/

theorem isNull_containerFor (s : Segment) : (containerFor s).isNull = false := by cases s <;> rfl

/-- A write into null is one into the container that is made for it. -/
theorem set_null (s : Segment) (rest : DataPath) (new : Value) :
    set (s :: rest) new .null = set (s :: rest) new (containerFor s) := by
  cases s <;> rfl

theorem child?_set_cons_of_none (h : old.reached? s = none) (rest : DataPath) (new : Value) :
    (set (s :: rest) new old).child? s = none := by
  unfold reached? at h
  rw [set]
  generalize (if old.isNull then containerFor s else old) = container at h ⊢
  cases container with
  | object fields => cases h
  | array items =>
    have hposition := Option.map_eq_none_iff.1 h
    simp only [hposition, child?, Option.bind_none]
  | null => rfl
  | bool flag => rfl
  | number n => rfl
  | string text => rfl

/-- What was written at a path is read there; a write that is given up on its way leaves nothing to read. -/
theorem get?_set_self (path : DataPath) (new old : Value) :
    (old.Walks path → (set path new old).get? path = some new) ∧
    (¬ old.Walks path → (set path new old).get? path = none) := by
  constructor
  · intro h
    have hread : (set (path ++ []) new old).get? path = some (set [] new ((old.get? path).getD .null)) :=
      get?_set_append h
    rwa [List.append_nil, set_nil] at hread
  · intro h
    induction path generalizing old with
    | nil => exact absurd trivial h
    | cons s path ih =>
      rw [get?_cons]
      cases hreached : old.reached? s with
      | none => rw [child?_set_cons_of_none hreached, Option.bind_none]
      | some next =>
        rw [child?_set_cons hreached, Option.bind_some]
        exact ih next fun hwalks => h ⟨next, hreached, hwalks⟩

theorem padded_eq_self {items : List Value} {length : Nat} (h : length ≤ items.length) : padded items length = items := by
  rw [padded, Nat.sub_eq_zero_of_le h, List.replicate_zero, List.append_nil]

theorem lt_length_padded (items : List Value) (i : Nat) : i < (padded items (i + 1)).length := by
  rw [padded, List.length_append, List.length_replicate]
  omega

/-- The second of two writes at a path leaves nothing of the first. -/
theorem set_set (path : DataPath) (v new old : Value) : set path new (set path v old) = set path new old := by
  induction path generalizing old with
  | nil => rfl
  | cons s path ih =>
    have hcontainer : ∀ container : Value, container.isNull = false →
        set (s :: path) new (set (s :: path) v container) = set (s :: path) new container := by
      intro container hnull
      cases container with
      | null => cases hnull
      | object fields => simp [set, isNull, Fields.update_update, ih]
      | array items =>
        cases hposition : s.position? with
        | none => simp [set, isNull, hposition]
        | some i =>
          have hlength : i + 1 ≤ ((padded items (i + 1)).modify i (set path v)).length := by
            rw [List.length_modify]
            exact lt_length_padded items i
          have hchanges : set path new ∘ set path v = set path new := funext ih
          simp only [set, isNull, Bool.false_eq_true, if_false, hposition, padded_eq_self hlength,
            List.modify_modify_eq, hchanges]
      | bool flag => rfl
      | number n => rfl
      | string text => rfl
    by_cases hnull : old = .null
    · -- the first write makes a container of null, and the second one finds it
      subst hnull
      rw [set_null, set_null]
      exact hcontainer _ (isNull_containerFor s)
    · apply hcontainer
      cases old <;> first | rfl | exact absurd rfl hnull

/-- Where the write changes nothing one step down, it changes nothing. -/
theorem set_cons_of_child? (hchild : old.child? s = some v) (hsame : set path new v = v) :
    set (s :: path) new old = old := by
  cases old with
  | object fields =>
    have hfield := Fields.update_eq_self hchild hsame
    simp [set, isNull, hfield]
  | array items =>
    obtain ⟨i, hposition, hitem⟩ := Option.bind_eq_some_iff.1 hchild
    obtain ⟨hlt, rfl⟩ := List.getElem?_eq_some_iff.1 hitem
    have hitems : items.modify i (set path new) = items := by
      apply List.ext_getElem?
      intro j
      by_cases hij : i = j
      · subst hij
        rw [List.getElem?_modify_eq, hitem, Option.map_eq_map, Option.map_some, hsame]
      · rw [List.getElem?_modify_ne _ _ hij]
    simp only [set, isNull, Bool.false_eq_true, if_false, hposition, padded_eq_self hlt, hitems]
  | null => cases hchild
  | bool flag => cases hchild
  | number n => cases hchild
  | string text => cases hchild

/-- Writing what is there changes nothing. -/
theorem set_of_get? (h : old.get? path = some v) : set path v old = old := by
  induction path generalizing old with
  | nil =>
    rw [get?_nil, Option.some.injEq] at h
    exact h.symm
  | cons s path ih =>
    rw [get?_cons] at h
    obtain ⟨next, hchild, hnext⟩ := Option.bind_eq_some_iff.1 h
    exact set_cons_of_child? hchild (ih hnext)

/-! ## The laws -/

/-- The laws of a document at a path. A write that goes down to its end is read back under every spelling of the path,
and one that is given up leaves nothing there. The last of several writes decides, also where they are given up; writing
what is there changes nothing. Two paths are read alike in all documents just if their segments have the same texts. -/
theorem store_laws (path : DataPath) :
    (∀ document new, document.Walks path → ∀ other, other.map Segment.text = path.map Segment.text →
      (set path new document).get? other = some new) ∧
    (∀ document new, ¬ document.Walks path → ∀ other, other.map Segment.text = path.map Segment.text →
      (set path new document).get? other = none) ∧
    (∀ document first second, set path second (set path first document) = set path second document) ∧
    (∀ document v, document.get? path = some v → set path v document = document) ∧
    ∀ other, (∀ document : Value, document.get? path = document.get? other) ↔
      path.map Segment.text = other.map Segment.text := by
  refine ⟨?_, ?_, ?_, ?_, ?_⟩
  · intro document new hwalks other htexts
    rw [get?_congr htexts]
    exact (get?_set_self path new document).1 hwalks
  · intro document new hwalks other htexts
    rw [get?_congr htexts]
    exact (get?_set_self path new document).2 hwalks
  · exact fun document first second => set_set path first second document
  · exact fun document v h => set_of_get? h
  · intro other
    constructor
    · intro h
      have hfound := get?_nested path (.bool true)
      rw [h] at hfound
      exact (texts_eq_of_get?_nested hfound).symm
    · exact fun htexts document => get?_congr htexts

/-- In `{"items": ["a", "b"]}` the path `items.1` can also be spelled with the key `1`; below the first item nothing can
be written. -/
theorem store_laws_items :
    let document : Value := .object [("items", .array [.string "a", .string "b"])]
    let path : DataPath := [.key "items", .index 1]
    let other : DataPath := [.key "items", .key "1"]
    let below : DataPath := [.key "items", .index 0, .key "name"]
    (document.Walks path ∧ other.map Segment.text = path.map Segment.text ∧
      (set path .null document).get? other = some .null) ∧
    (¬ document.Walks below ∧ (set below .null document).get? below = none) ∧
    (document.get? path = some (.string "b") ∧ set path (.string "b") document = document) := by
  intro document path other below
  have hread : document.get? path = some (.string "b") := by rfl
  have hwalks : document.Walks path := walks_of_get? hread
  have hbelow : ¬ document.Walks below := by
    rintro ⟨items, hitems, first, hfirst, name, hname, -⟩
    cases hitems
    cases hfirst
    cases hname
  have htexts : other.map Segment.text = path.map Segment.text := by decide +kernel
  obtain ⟨hwritten, -, -, hback, -⟩ := store_laws path
  exact ⟨⟨hwalks, htexts, hwritten document .null hwalks other htexts⟩,
    ⟨hbelow, (store_laws below).2.1 document .null hbelow below rfl⟩, hread, hback document _ hread⟩

end Value

end DataBound
