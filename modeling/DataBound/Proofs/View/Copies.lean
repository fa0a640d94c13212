-- SUMMARY: Copies of template bodies as values, and the chains that copies of nested templates are again.
import DataBound.View.Template
import DataBound.Proofs.Json.Rereading

/-!
# Copies of nested templates

A copy is made from the text of a body. Without handlers it comes to this: the marker is replaced in every string and
key, and the result is what its text is read back as. So a copy of a template in a template is a template again, whose
data, output and body are copies themselves, and the copies that are made level by level can be told from the levels and
the innermost body alone.
-/

namespace DataBound.View.Template

open Json Text

/-! ## Markers -/

/-- The text with the marker of a depth replaced by an index. -/
def fill (depth index : Nat) (s : String) : String :=
  String.ofList (replaceAll (marker depth).toList (toString index).toList s.toList)

theorem isPlain_of_isDigit {c : Char} (h : c.isDigit) : IsPlain c := by
  have hne : ∀ x : Char, x.isDigit = false → c ≠ x := by
    rintro x hx rfl
    rw [h] at hx
    cases hx
  have hcontrol : ¬ c.toNat < 0x20 := by
    simp only [Char.isDigit, ge_iff_le, Bool.and_eq_true, decide_eq_true_eq, UInt32.le_iff_toNat_le] at h
    have hlow : 48 ≤ c.toNat := h.1
    omega
  unfold IsPlain escape
  rw [if_neg (hne _ (by decide)), if_neg (hne _ (by decide)), if_neg (hne _ (by decide)), if_neg (hne _ (by decide)),
    if_neg (hne _ (by decide)), if_neg (hne _ (by decide)), if_neg (hne _ (by decide)), if_neg hcontrol]

theorem forall_isPlain {cs : List Char} (h : cs.all fun c => IsPlain c) : ∀ c ∈ cs, IsPlain c := fun c hc =>
  of_decide_eq_true (List.all_eq_true.1 h c hc)

theorem digits_toString (n : Nat) : Digits (toString n).toList := by
  rw [Nat.toString_eq_repr, Nat.toList_repr]
  exact digits_toDigits n

/-- A marker begins with an underscore and needs no escapes. -/
theorem exists_marker_eq (depth : Nat) : ∃ tail, (marker depth).toList = '_' :: tail ∧ ∀ c ∈ tail, IsPlain c := by
  rw [marker]
  split
  · exact ⟨_, rfl, forall_isPlain (by decide)⟩
  · refine ⟨['i', 'n', 'd', 'e', 'x'] ++ (toString depth).toList ++ ['_'], ?_, ?_⟩
    · rw [String.toList_append, String.toList_append]
      rfl
    · intro c hc
      rw [List.mem_append, List.mem_append] at hc
      rcases hc with (hc | hc) | hc
      · exact forall_isPlain (by decide) c hc
      · exact isPlain_of_isDigit (digits_toString depth c hc)
      · exact forall_isPlain (by decide) c hc

theorem fill_empty (depth index : Nat) : fill depth index "" = "" := by
  obtain ⟨tail, hmarker, -⟩ := exists_marker_eq depth
  rw [fill, hmarker]
  rfl

/-- A text without underscores and digits: it has no marker in it, and no index was put into it. -/
def IsFixed (key : String) : Prop := ∀ c ∈ key.toList, c ≠ '_' ∧ c.isDigit = false

instance (key : String) : Decidable (IsFixed key) :=
  List.decidableBAll (fun c => c ≠ '_' ∧ c.isDigit = false) key.toList

/-- Filling in an index changes nothing into such a text and such a text into nothing else. -/
theorem fill_eq_iff {key : String} (hkey : IsFixed key) (depth index : Nat) (s : String) :
    fill depth index s = key ↔ s = key := by
  obtain ⟨tail, hmarker, -⟩ := exists_marker_eq depth
  rw [fill, hmarker]
  constructor
  · rintro rfl
    rcases replaceAll_eq_self_or '_' tail (toString index).toList s.toList with hself | hmem
    · rw [hself, String.ofList_toList]
    · obtain ⟨c, more, hdigits⟩ : ∃ c more, (toString index).toList = c :: more := by
        rw [Nat.toString_eq_repr, Nat.toList_repr]
        exact List.exists_cons_of_ne_nil Nat.toDigits_ne_nil
      have hc : c ∈ (toString index).toList := by
        rw [hdigits]
        exact List.mem_cons_self
      have hnot := (hkey c (by rw [String.toList_ofList]; exact hmem c hc)).2
      rw [digits_toString index c hc] at hnot
      cases hnot
  · rintro rfl
    have hnot : '_' ∉ s.toList := fun hmem => (hkey '_' hmem).1 rfl
    rw [replaceAll_of_not_mem hnot, String.ofList_toList]

/-! ## One copy -/

/-- Without handlers the data of the item has no part in a copy. -/
theorem copy?_eq (body : Value) (item : TemplateItem) :
    copy? ∅ body item = reread? nestingLimit (body.mapTexts (fill item.depth item.index)) := by
  obtain ⟨tail, hmarker, htail⟩ := exists_marker_eq item.depth
  have hvalue : ∀ c ∈ (toString item.index).toList, IsPlain c :=
    fun c hc => isPlain_of_isDigit (digits_toString item.index c hc)
  have hfill : fill item.depth item.index = replaced tail (toString item.index).toList := by
    funext s
    rw [fill, hmarker, replaced]
  have hreplaced := replaceAll_chars htail hvalue body []
  rw [List.append_nil, show replaceAll ('_' :: tail) (toString item.index).toList [] = [] from rfl,
    List.append_nil] at hreplaced
  have hcopy : copy? ∅ body item =
      readNested? nestingLimit (replaceAll (marker item.depth).toList (toString item.index).toList (chars body)) := rfl
  rw [hcopy, hmarker, hreplaced, readNested?_chars, hfill]

/-! ## Chains of templates -/

/-- One of nested templates: the path text of its data, and where its copies are placed. -/
structure Repetition where
  data : String
  output : String

/-- The repetition with an index filled in. -/
def Repetition.fill (depth index : Nat) (r : Repetition) : Repetition :=
  ⟨Template.fill depth index r.data, Template.fill depth index r.output⟩

/-- The fields of a static template with an output that is a string. -/
structure Describes (fields : Fields) (r : Repetition) (body : Value) : Prop where
  distinct : (fields.map Prod.fst).Nodup
  data : ((Fields.find? "data" fields).bind Value.asString).getD "" = r.data
  output : (Fields.find? "output" fields).bind Value.asString = some r.output
  body : (Fields.find? "value" fields).getD .null = body
  static : ((Fields.find? "dynamic" fields).bind Value.asBool).getD false = false

/-- Templates each of which is all that the body of the one before it consists of, around an innermost body. -/
inductive Nested : List Repetition → Value → Value → Prop
  | innermost (body : Value) : Nested [] body body
  | template {r : Repetition} {rs : List Repetition} {fields : Fields} {inner body : Value} :
      Describes fields r inner → Nested rs body inner →
      Nested (r :: rs) body (.object [("template", .array [.object fields])])

/-- Strings and flags are read back as such, and nothing else is. -/
theorem asString_of_reread? {f : String → String} {room : Nat} {v v' : Value}
    (h : reread? room (v.mapTexts f) = some v') : v'.asString = v.asString.map f ∧ v'.asBool = v.asBool := by
  cases v with
  | number n =>
    obtain ⟨n', -, rfl⟩ := Option.map_eq_some_iff.1 h
    exact ⟨rfl, rfl⟩
  | array items =>
    cases room with
    | zero => cases h
    | succ room =>
      obtain ⟨items', -, rfl⟩ := Option.map_eq_some_iff.1 h
      exact ⟨rfl, rfl⟩
  | object fields =>
    cases room with
    | zero => cases h
    | succ room =>
      obtain ⟨fields', -, rfl⟩ := Option.map_eq_some_iff.1 h
      exact ⟨rfl, rfl⟩
  | _ =>
    cases h
    exact ⟨rfl, rfl⟩

theorem forall₂_fieldsMapTexts {f : String → String} {room : Nat} {fields : Fields} {again : List (String × Value)}
    (h : rereadFields? room (fieldsMapTexts f fields) = some again) :
    List.Forall₂ (fun field field' => field'.1 = f field.1 ∧ reread? room (field.2.mapTexts f) = some field'.2)
      fields again := by
  have hmap : fieldsMapTexts f fields = fields.map fun field => (f field.1, field.2.mapTexts f) := by
    clear h
    induction fields with
    | nil => rfl
    | cons field rest ih => rw [fieldsMapTexts, ih, List.map_cons]
  have hfields := rereadFields?_forall₂ h
  rw [hmap, List.forall₂_map_left_iff] at hfields
  exact hfields

/-- What is found under a key before and after. -/
abbrev Comes (f : String → String) (room : Nat) : Option Value → Option Value → Prop :=
  Option.Rel fun v v' => reread? room (v.mapTexts f) = some v'

section

variable {f : String → String} {room : Nat} {x y : Option Value}

theorem Comes.asString (h : Comes f room x y) : y.bind Value.asString = (x.bind Value.asString).map f := by
  cases h with
  | none => rfl
  | some hv => exact (asString_of_reread? hv).1

theorem Comes.asBool (h : Comes f room x y) : y.bind Value.asBool = x.bind Value.asBool := by
  cases h with
  | none => rfl
  | some hv => exact (asString_of_reread? hv).2

theorem Comes.getD_null (h : Comes f room x y) :
    reread? room ((x.getD .null).mapTexts f) = some (y.getD .null) := by
  cases h with
  | none => rfl
  | some hv => exact hv

end

/-- A copy of the fields of a template describes a template with the index filled in. -/
theorem Describes.copy {fields : Fields} {r : Repetition} {inner : Value} (h : Describes fields r inner)
    {depth index room : Nat} {again : List (String × Value)}
    (hagain : rereadFields? room (fieldsMapTexts (Template.fill depth index) fields) = some again) :
    ∃ inner', reread? room (inner.mapTexts (Template.fill depth index)) = some inner' ∧
      Describes (Fields.ofPairs again) (r.fill depth index) inner' := by
  have hcomes : ∀ key, IsFixed key → Comes (Template.fill depth index) room (Fields.find? key fields)
      (Fields.find? key (Fields.ofPairs again)) := by
    intro key hkey
    rw [Fields.find?_ofPairs, ← Fields.find?_reverse h.distinct]
    exact Fields.find?_rel (fill_eq_iff hkey depth index) (List.rel_reverse (forall₂_fieldsMapTexts hagain))
  refine ⟨_, h.body ▸ (hcomes "value" (by decide)).getD_null, Fields.nodup_keys_ofPairs again, ?_, ?_, rfl, ?_⟩
  · rw [(hcomes "data" (by decide)).asString, Repetition.fill, ← h.data]
    cases (Fields.find? "data" fields).bind Value.asString with
    | none => exact (fill_empty depth index).symm
    | some data => rfl
  · rw [(hcomes "output" (by decide)).asString, h.output]
    rfl
  · rw [(hcomes "dynamic" (by decide)).asBool]
    exact h.static

/-- Around the fields of a template there are an object, an array, and an object again. -/
theorem exists_of_reread?_template {f : String → String} {room : Nat} {fields : Fields} {v' : Value}
    (h : reread? room ((Value.object [("template", .array [.object fields])]).mapTexts f) = some v') :
    ∃ inside again, inside ≤ room ∧ rereadFields? inside (fieldsMapTexts f fields) = some again ∧
      v' = .object [(f "template", .array [.object (Fields.ofPairs again)])] := by
  cases room with
  | zero => cases h
  | succ room =>
    obtain ⟨pairs, hpairs, rfl⟩ := Option.map_eq_some_iff.1 h
    obtain ⟨array, harray, hpairs⟩ := Option.bind_eq_some_iff.1 hpairs
    cases hpairs
    cases room with
    | zero => cases harray
    | succ room =>
      obtain ⟨items, hitems, rfl⟩ := Option.map_eq_some_iff.1 harray
      obtain ⟨object, hobject, hitems⟩ := Option.bind_eq_some_iff.1 hitems
      cases hitems
      cases room with
      | zero => cases hobject
      | succ room =>
        obtain ⟨again, hagain, rfl⟩ := Option.map_eq_some_iff.1 hobject
        exact ⟨room, again, by omega, hagain, rfl⟩

/-- A copy of nested templates is nested templates with the index filled in, around a copy of the innermost body. -/
theorem Nested.copy {rs : List Repetition} {body v v' : Value} (h : Nested rs body v) {item : TemplateItem}
    (hcopy : copy? ∅ v item = some v') :
    ∃ body', copy? ∅ body item = some body' ∧ Nested (rs.map (Repetition.fill item.depth item.index)) body' v' := by
  rw [copy?_eq] at hcopy ⊢
  generalize item.depth = depth, item.index = index at hcopy ⊢
  generalize hroom : nestingLimit = limit at hcopy ⊢
  suffices hlower : ∀ room v', room ≤ limit → reread? room (v.mapTexts (Template.fill depth index)) = some v' →
      ∃ body', reread? limit (body.mapTexts (Template.fill depth index)) = some body' ∧
        Nested (rs.map (Repetition.fill depth index)) body' v' from hlower limit v' (Nat.le_refl _) hcopy
  clear hcopy hroom v'
  induction h with
  | innermost body =>
    intro room v' hle hagain
    exact ⟨v', reread?_of_le hle hagain, .innermost v'⟩
  | @template r rs fields inner body hdescribes _ ih =>
    intro room v' hle hagain
    have hkey : Template.fill depth index "template" = "template" := (fill_eq_iff (by decide) depth index _).2 rfl
    obtain ⟨inside, again, hinside, hfields, rfl⟩ := exists_of_reread?_template hagain
    obtain ⟨inner', hinner, hdescribes'⟩ := hdescribes.copy hfields
    obtain ⟨body', hbody, hnested⟩ := ih inside inner' (Nat.le_trans hinside hle) hinner
    rw [hkey]
    exact ⟨body', hbody, .template hdescribes' hnested⟩

/-! ## Copies level by level -/

/-- The text with the markers from a depth on replaced by indices, one after the other from the outermost inward. -/
def fillAll (depth : Nat) : List Nat → String → String
  | [], s => s
  | i :: rest, s => fillAll (depth + 1) rest (fill depth i s)

/-- The body with the markers from a depth on replaced by indices, one after the other from the outermost inward; none if
a replacement leaves no JSON. -/
def copies? (depth : Nat) : List Nat → Value → Option Value
  | [], v => some v
  | i :: rest, v => (copy? ∅ v ⟨i, .null, depth⟩).bind (copies? (depth + 1) rest)

/-- The body of a template that is all that the content consists of. -/
def templateBody : Value → Value
  | .object [(_, .array [.object fields])] => (Fields.find? "value" fields).getD .null
  | _ => .null

/-- What is left of nested templates: the copy of the outermost body for the first index, and so on inward. Every copy is
one of all that is left, with the data, outputs and bodies of the templates in it. -/
def remaining? (depth : Nat) : List Nat → Value → Option Value
  | [], v => some v
  | i :: rest, v => (copy? ∅ (templateBody v) ⟨i, .null, depth⟩).bind (remaining? (depth + 1) rest)

/-- The repetition with indices filled in. -/
def Repetition.fillAll (depth : Nat) (is : List Nat) (r : Repetition) : Repetition :=
  ⟨Template.fillAll depth is r.data, Template.fillAll depth is r.output⟩

variable {depth : Nat} {is : List Nat} {rs : List Repetition} {body v left : Value}

theorem Describes.templateBody_eq {fields : Fields} {r : Repetition} {inner : Value} (h : Describes fields r inner) :
    templateBody (.object [("template", .array [.object fields])]) = inner := h.body

/-- What is left of nested templates is the templates that are left, around the copies of the innermost body. -/
theorem Nested.remaining (h : Nested rs body v) (hlength : is.length ≤ rs.length)
    (hleft : remaining? depth is v = some left) :
    ∃ body', copies? depth is body = some body' ∧
      Nested ((rs.drop is.length).map (Repetition.fillAll depth is)) body' left := by
  induction is generalizing depth rs body v with
  | nil =>
    cases hleft
    refine ⟨body, rfl, ?_⟩
    have hid : Repetition.fillAll depth [] = id := rfl
    rw [hid, List.map_id]
    exact h
  | cons i is ih =>
    cases h with
    | innermost => cases hlength
    | @template r rs fields inner _ hdescribes hnested =>
      obtain ⟨next, hcopy, hleft⟩ := Option.bind_eq_some_iff.1 hleft
      rw [hdescribes.templateBody_eq] at hcopy
      obtain ⟨body', hbody, hnested'⟩ := hnested.copy hcopy
      have hlength' : is.length ≤ (rs.map (Repetition.fill depth i)).length := by
        rw [List.length_map]
        exact Nat.le_of_succ_le_succ hlength
      obtain ⟨body'', hbody', hnested''⟩ := ih hnested' hlength' hleft
      refine ⟨body'', Option.bind_eq_some_iff.2 ⟨body', hbody, hbody'⟩, ?_⟩
      have hfill : Repetition.fillAll (depth + 1) is ∘ Repetition.fill depth i = Repetition.fillAll depth (i :: is) := rfl
      rw [← List.map_drop, List.map_map, hfill] at hnested''
      exact hnested''

theorem remaining?_append (depth : Nat) (is js : List Nat) (v : Value) :
    remaining? depth (is ++ js) v = (remaining? depth is v).bind (remaining? (depth + is.length) js) := by
  induction is generalizing depth v with
  | nil => rfl
  | cons i is ih =>
    rw [List.cons_append, remaining?, remaining?, Option.bind_assoc]
    congr 1
    funext next
    rw [ih, List.length_cons, Nat.add_assoc, Nat.add_comm 1]

theorem remaining?_concat (depth : Nat) (is : List Nat) (i : Nat) (v : Value) :
    remaining? depth (is ++ [i]) v =
      (remaining? depth is v).bind fun left => copy? ∅ (templateBody left) ⟨i, .null, depth + is.length⟩ := by
  rw [remaining?_append]
  congr 1
  funext left
  exact Option.bind_fun_some _

/-- After indices for all templates a copy of the innermost body is left. -/
theorem Nested.copies {all : List Repetition} (hv : Nested all body v) (hlength : is.length = all.length)
    (hleft : remaining? depth is v = some left) : copies? depth is body = some left := by
  obtain ⟨body', hbody, hnested⟩ := hv.remaining (Nat.le_of_eq hlength) hleft
  rw [hlength, List.drop_length] at hnested
  cases hnested
  exact hbody

/-- Before that a template is left, and one more index leaves the copy of its body. -/
theorem Nested.describes {all : List Repetition} (hv : Nested all body v) {r : Repetition}
    (hrs : all.drop is.length = r :: rs) (hleft : remaining? depth is v = some left) :
    ∃ fields inner, Describes fields (r.fillAll depth is) inner ∧
      left = .object [("template", .array [.object fields])] ∧
      ∀ i, remaining? depth (is ++ [i]) v = copy? ∅ inner ⟨i, .null, depth + is.length⟩ := by
  have hle : is.length ≤ all.length := by
    apply Nat.le_of_not_le
    intro hle
    rw [List.drop_eq_nil_of_le hle] at hrs
    cases hrs
  obtain ⟨body', -, hnested⟩ := hv.remaining hle hleft
  rw [hrs] at hnested
  cases hnested with
  | template hdescribes _ =>
    refine ⟨_, _, hdescribes, rfl, ?_⟩
    intro i
    rw [remaining?_concat, hleft, Option.bind_some, hdescribes.templateBody_eq]

end DataBound.View.Template
