-- SUMMARY: A value that is taken apart into parts at paths comes back when the parts are placed, whatever their order.
import DataBound.View.Builder
import DataBound.Proofs.Document
import Mathlib.Data.List.Nodup
import Mathlib.Data.List.Perm.Basic

/-!
# Values and their parts

A value can be taken apart: each part stands at a path, and together they cover the value without overlap. `Splits` says
so by following the value down, with the parts sorted by the first segment of their paths. Placing all the parts, in any
order, puts the value together again up to the order of fields: what is placed under one segment does not touch what is
under the others.
-/

namespace DataBound

/-! ## Shapes of values -/

namespace Value

/-- Is the value an object or an array? -/
def isContainer (v : Value) : Bool := v.isObject || v.isArray

/-- The values are equal up to the order of fields, whose keys are distinct. -/
inductive Alike : Value → Value → Prop
  | primitive {v : Value} : v.isContainer = false → Alike v v
  | array {items others : List Value} : items.length = others.length →
      (∀ (i : Nat) v other, items[i]? = some v → others[i]? = some other → Alike v other) →
      Alike (.array items) (.array others)
  | object {fields others : Fields} : (fields.map Prod.fst).Nodup →
      (fields.map Prod.fst).Perm (others.map Prod.fst) →
      (∀ key v other, Fields.find? key fields = some v → Fields.find? key others = some other → Alike v other) →
      Alike (.object fields) (.object others)

/-- A JSON value, with distinct keys and arrays of at most 63-bit lengths, in which no object or array is empty and no
object has the key of placeholders. -/
inductive Filled : Value → Prop
  | primitive {v : Value} : v.isContainer = false → Filled v
  | array {items : List Value} : items ≠ [] → items.length < 0x8000_0000_0000_0000 → (∀ v ∈ items, Filled v) →
      Filled (.array items)
  | object {fields : Fields} : fields ≠ [] → (fields.map Prod.fst).Nodup → "async" ∉ fields.map Prod.fst →
      (∀ field ∈ fields, Filled field.2) → Filled (.object fields)

theorem filled_array {items : List Value} : (Value.array items).Filled ↔
    items ≠ [] ∧ items.length < 0x8000_0000_0000_0000 ∧ ∀ v ∈ items, v.Filled := by
  constructor
  · intro h
    cases h with
    | primitive hprimitive => cases hprimitive
    | array hne hlength hitems => exact ⟨hne, hlength, hitems⟩
  · rintro ⟨hne, hlength, hitems⟩
    exact .array hne hlength hitems

theorem filled_object {fields : Fields} : (Value.object fields).Filled ↔
    fields ≠ [] ∧ (fields.map Prod.fst).Nodup ∧ "async" ∉ fields.map Prod.fst ∧ ∀ field ∈ fields, field.2.Filled := by
  constructor
  · intro h
    cases h with
    | primitive hprimitive => cases hprimitive
    | object hne hnodup hasync hfields => exact ⟨hne, hnodup, hasync, hfields⟩
  · rintro ⟨hne, hnodup, hasync, hfields⟩
    exact .object hne hnodup hasync hfields

end Value

namespace View

open Value

variable {α β : Type}

/-! ## Parts at paths -/

/-- The parts, each with the path in front of its own. -/
def under (path : DataPath) (parts : List (DataPath × α)) : List (DataPath × α) :=
  parts.map fun (rest, part) => (path ++ rest, part)

/-- The part, without the segment, if its path starts with it. -/
def tail? (s : Segment) : DataPath × α → Option (DataPath × α)
  | ([], _) => none
  | (t :: rest, part) => if t = s then some (rest, part) else none

/-- The parts whose paths start with a segment, without it. -/
def headed (s : Segment) (parts : List (DataPath × α)) : List (DataPath × α) := parts.filterMap (tail? s)

/-- Every path starts with one of the segments. -/
def Headed (segments : List Segment) (parts : List (DataPath × α)) : Prop :=
  ∀ part ∈ parts, ∃ s ∈ segments, ∃ rest, part.1 = s :: rest

variable {s t : Segment} {parts more : List (DataPath × α)} {segments : List Segment}

@[simp] theorem tail?_nil (s : Segment) (part : α) : tail? s ([], part) = none := rfl

@[simp] theorem tail?_cons_self (s : Segment) (rest : DataPath) (part : α) :
    tail? s (s :: rest, part) = some (rest, part) := if_pos rfl

theorem tail?_cons_of_ne (h : t ≠ s) (rest : DataPath) (part : α) : tail? s (t :: rest, part) = none := if_neg h

@[simp] theorem headed_nil (s : Segment) : headed s ([] : List (DataPath × α)) = [] := rfl

@[simp] theorem headed_cons_self (s : Segment) (rest : DataPath) (part : α) (parts : List (DataPath × α)) :
    headed s ((s :: rest, part) :: parts) = (rest, part) :: headed s parts :=
  List.filterMap_cons_some (tail?_cons_self s rest part)

theorem headed_cons_of_ne (h : t ≠ s) (rest : DataPath) (part : α) (parts : List (DataPath × α)) :
    headed s ((t :: rest, part) :: parts) = headed s parts :=
  List.filterMap_cons_none (tail?_cons_of_ne h rest part)

@[simp] theorem headed_append (s : Segment) (parts more : List (DataPath × α)) :
    headed s (parts ++ more) = headed s parts ++ headed s more := List.filterMap_append

@[simp] theorem under_append (path : DataPath) (parts more : List (DataPath × α)) :
    under path (parts ++ more) = under path parts ++ under path more := List.map_append

theorem under_under (path rest : DataPath) (parts : List (DataPath × α)) :
    under path (under rest parts) = under (path ++ rest) parts := by
  simp [under, List.map_map, Function.comp_def]

@[simp] theorem under_nil (parts : List (DataPath × α)) : under [] parts = parts := by
  simp [under]

@[simp] theorem headed_under_self (s : Segment) (parts : List (DataPath × α)) : headed s (under [s] parts) = parts := by
  induction parts with
  | nil => rfl
  | cons part rest ih => exact (headed_cons_self s part.1 part.2 _).trans (congrArg _ ih)

theorem headed_eq_nil (h : Headed segments parts) (hs : s ∉ segments) : headed s parts = [] := by
  rw [headed, List.filterMap_eq_nil_iff]
  intro part hpart
  obtain ⟨t, ht, rest, hpath⟩ := h part hpart
  obtain ⟨path, part⟩ := part
  cases hpath
  have hne : t ≠ s := by
    rintro rfl
    exact hs ht
  exact tail?_cons_of_ne hne rest part

theorem mem_of_headed_ne_nil (h : Headed segments parts) (hs : headed s parts ≠ []) : s ∈ segments :=
  Decidable.byContradiction fun hnot => hs (headed_eq_nil h hnot)

theorem headed_under (s : Segment) (parts : List (DataPath × α)) : Headed [s] (under [s] parts) := by
  intro part hpart
  obtain ⟨part, -, rfl⟩ := List.mem_map.1 hpart
  exact ⟨s, List.mem_cons_self, part.1, rfl⟩

theorem Headed.append (h : Headed segments parts) (hmore : Headed segments more) : Headed segments (parts ++ more) :=
  List.forall_mem_append.2 ⟨h, hmore⟩

theorem Headed.mono {others : List Segment} (h : Headed segments parts) (hsub : segments ⊆ others) :
    Headed others parts := by
  intro part hpart
  obtain ⟨s, hs, rest, hpath⟩ := h part hpart
  exact ⟨s, hsub hs, rest, hpath⟩

theorem headed_under_append_self (h : Headed segments more) (hs : s ∉ segments) :
    headed s (under [s] parts ++ more) = parts := by
  rw [headed_append, headed_under_self, headed_eq_nil h hs, List.append_nil]

theorem headed_under_append_of_ne (h : t ≠ s) (parts more : List (DataPath × α)) :
    headed s (under [t] parts ++ more) = headed s more := by
  rw [headed_append, headed_eq_nil (headed_under t parts) (by simpa using h.symm), List.nil_append]

theorem Headed.under_append (h : Headed segments more) (s : Segment) :
    Headed (s :: segments) (under [s] parts ++ more) :=
  ((headed_under s parts).mono (by simp)).append (h.mono (List.subset_cons_self _ _))

/-- The parts changed, each at its place. -/
def mapped (f : α → β) (parts : List (DataPath × α)) : List (DataPath × β) :=
  parts.map fun (path, part) => (path, f part)

theorem headed_mapped (f : α → β) (s : Segment) (parts : List (DataPath × α)) :
    headed s (mapped f parts) = mapped f (headed s parts) := by
  rw [headed, headed, mapped, mapped, List.filterMap_map, List.map_filterMap]
  apply congrArg (List.filterMap · parts)
  funext part
  obtain ⟨path, part⟩ := part
  cases path with
  | nil => rfl
  | cons t rest => by_cases hts : t = s <;> simp [tail?, hts]

theorem Headed.mapped (h : Headed segments parts) (f : α → β) : Headed segments (mapped f parts) := by
  intro part hpart
  obtain ⟨original, horiginal, rfl⟩ := List.mem_map.1 hpart
  exact h original horiginal

theorem filter_tail?_eq (s : Segment) (parts : List (DataPath × α)) :
    parts.filter (fun part => (tail? s part).isSome) = under [s] (headed s parts) := by
  induction parts with
  | nil => rfl
  | cons part rest ih =>
    obtain ⟨path, part⟩ := part
    cases path with
    | nil => exact ih
    | cons t path =>
      by_cases hts : t = s
      · subst hts
        rw [headed_cons_self, List.filter_cons_of_pos (by rw [tail?_cons_self, Option.isSome_some]), ih]
        rfl
      · rw [headed_cons_of_ne hts, List.filter_cons_of_neg (by simp [tail?_cons_of_ne hts]), ih]

theorem headed_filter_of_ne (h : t ≠ s) (parts : List (DataPath × α)) :
    headed s (parts.filter fun part => !(tail? t part).isSome) = headed s parts := by
  rw [headed, List.filterMap_filter]
  apply List.filterMap_congr
  intro part _
  obtain ⟨path, part⟩ := part
  cases path with
  | nil => rfl
  | cons u path =>
    by_cases hut : u = t
    · subst hut
      simp [tail?_cons_of_ne h]
    · simp [tail?_cons_of_ne hut]

/-- Parts are found again under the segments with which their paths start. -/
theorem perm_flatMap_headed (hsegments : segments.Nodup) (h : Headed segments parts) :
    (segments.flatMap fun s => under [s] (headed s parts)).Perm parts := by
  induction segments generalizing parts with
  | nil =>
    cases parts with
    | nil => exact .nil
    | cons part rest =>
      obtain ⟨s, hs, -⟩ := h part List.mem_cons_self
      cases hs
  | cons s rest ih =>
    obtain ⟨hs, hrest⟩ := List.nodup_cons.1 hsegments
    -- the parts that do not start with `s` are all under the other segments
    let others := parts.filter fun part => !(tail? s part).isSome
    have hothers : Headed rest others := by
      intro part hpart
      obtain ⟨hmem, hnot⟩ := List.mem_filter.1 hpart
      obtain ⟨t, ht, path, hpath⟩ := h part hmem
      refine ⟨t, (List.mem_cons.1 ht).resolve_left ?_, path, hpath⟩
      rintro rfl
      obtain ⟨path', part⟩ := part
      cases hpath
      rw [tail?_cons_self] at hnot
      cases hnot
    have hsame : (rest.flatMap fun t => under [t] (headed t others)) =
        rest.flatMap fun t => under [t] (headed t parts) := by
      apply List.flatMap_congr
      intro t ht
      have hne : s ≠ t := fun heq => hs (heq ▸ ht)
      rw [headed_filter_of_ne hne]
    rw [List.flatMap_cons, ← filter_tail?_eq, ← hsame]
    exact ((ih hrest hothers).append_left _).trans (List.filter_append_perm _ parts)

/-! ## Placing parts -/

/-- The value after all parts are placed into it. -/
def placeAll (old : Value) (parts : List (DataPath × Value)) : Value :=
  parts.foldl (fun acc (path, part) => place path part acc) old

@[simp] theorem placeAll_nil (old : Value) : placeAll old [] = old := rfl

@[simp] theorem placeAll_cons (old : Value) (path : DataPath) (part : Value) (parts : List (DataPath × Value)) :
    placeAll old ((path, part) :: parts) = placeAll (place path part old) parts := rfl

theorem placeAll_append (old : Value) (parts more : List (DataPath × Value)) :
    placeAll old (parts ++ more) = placeAll (placeAll old parts) more := List.foldl_append

/-- Parts placed into an object come together under their keys. -/
theorem placeAll_object {parts : List (DataPath × Value)}
    (h : ∀ part ∈ parts, ∃ key rest, part.1 = Segment.key key :: rest) (fields : Fields) :
    ∃ placed, placeAll (.object fields) parts = .object placed ∧
      ((fields.map Prod.fst).Nodup → (placed.map Prod.fst).Nodup) ∧
      (∀ key, key ∈ placed.map Prod.fst ↔ key ∈ fields.map Prod.fst ∨ headed (.key key) parts ≠ []) ∧
      ∀ key, (Fields.find? key placed).getD .null =
        placeAll ((Fields.find? key fields).getD .null) (headed (.key key) parts) := by
  induction parts generalizing fields with
  | nil => exact ⟨fields, rfl, id, by simp, fun _ => rfl⟩
  | cons part parts ih =>
    obtain ⟨path, part⟩ := part
    obtain ⟨key, rest, hpath⟩ := h _ List.mem_cons_self
    cases hpath
    obtain ⟨placed, hplaced, hnodup, hkeys, hfind⟩ :=
      ih (fun part hpart => h part (List.mem_cons_of_mem _ hpart)) (Fields.update key (place rest part) fields)
    refine ⟨placed, hplaced, fun hfields => hnodup (Fields.nodup_keys_update hfields), ?_, ?_⟩
    · intro other
      rw [hkeys, Fields.mem_keys_update]
      by_cases hother : other = key
      · subst hother
        simp
      · rw [headed_cons_of_ne fun heq => hother (Segment.key.inj heq).symm]
        simp [hother]
    · intro other
      rw [hfind]
      by_cases hother : other = key
      · subst hother
        rw [Fields.find?_update, headed_cons_self]
        rfl
      · rw [headed_cons_of_ne fun heq => hother (Segment.key.inj heq).symm, Fields.find?_update_of_ne hother]

/-! ### Positions -/

theorem toInt_ofPosition {i : Nat} (hi : i < 0x8000_0000_0000_0000) : (Int64.ofNat i).toInt = i :=
  Int64.toInt_ofNat_of_lt hi

theorem ofPosition_inj {i j : Nat} (hi : i < 0x8000_0000_0000_0000) (hj : j < 0x8000_0000_0000_0000)
    (h : Segment.ofPosition i = .ofPosition j) : i = j := by
  have hint := congrArg Int64.toInt (Segment.index.inj h)
  rw [toInt_ofPosition hi, toInt_ofPosition hj] at hint
  exact Int.ofNat.inj hint

theorem position?_ofPosition {i : Nat} (hi : i < 0x8000_0000_0000_0000) :
    (Segment.ofPosition i).position? = some i := by
  rw [Segment.ofPosition, Segment.position?, toInt_ofPosition hi, if_pos (Int.natCast_nonneg i), Int.toNat_natCast]

theorem place_position {i : Nat} (hi : i < 0x8000_0000_0000_0000) (rest : DataPath) (new : Value)
    (items : List Value) : place (.ofPosition i :: rest) new (.array items) =
      .array ((padded items (i + 1)).modify i (place rest new)) := by
  simp [place, Segment.ofPosition, toInt_ofPosition hi]

theorem place_position_null {i : Nat} (hi : i < 0x8000_0000_0000_0000) (rest : DataPath) (new : Value) :
    place (.ofPosition i :: rest) new .null = place (.ofPosition i :: rest) new (.array []) := by
  simp [place, Segment.ofPosition, toInt_ofPosition hi]

theorem length_modify_padded (items : List Value) (i : Nat) (f : Value → Value) :
    ((padded items (i + 1)).modify i f).length = max items.length (i + 1) := by
  rw [List.length_modify, padded, List.length_append, List.length_replicate]
  omega

theorem getElem?_modify_padded (items : List Value) (i j : Nat) (f : Value → Value) :
    ((padded items (i + 1)).modify i f)[j]?.getD .null =
      if i = j then f (items[j]?.getD .null) else items[j]?.getD .null := by
  by_cases hij : i = j
  · subst hij
    rw [if_pos rfl, List.getElem?_modify_eq, getElem?_padded]
    rfl
  · rw [if_neg hij, List.getElem?_modify_ne _ _ hij, padded]
    by_cases hj : j < items.length
    · rw [List.getElem?_append_left hj]
    · rw [List.getElem?_append_right (Nat.le_of_not_lt hj), List.getElem?_eq_none (Nat.le_of_not_lt hj),
        List.getElem?_replicate]
      split <;> rfl

/-- Parts placed into an array come together at their positions. -/
theorem placeAll_array {parts : List (DataPath × Value)} {bound : Nat} (hbound : bound ≤ 0x8000_0000_0000_0000)
    (h : ∀ part ∈ parts, ∃ i < bound, ∃ rest, part.1 = Segment.ofPosition i :: rest) (items : List Value) :
    ∃ placed, placeAll (.array items) parts = .array placed ∧ items.length ≤ placed.length ∧
      placed.length ≤ max items.length bound ∧
      (∀ i < bound, headed (.ofPosition i) parts ≠ [] → i < placed.length) ∧
      ∀ i < bound, placed[i]?.getD .null = placeAll (items[i]?.getD .null) (headed (.ofPosition i) parts) := by
  induction parts generalizing items with
  | nil => exact ⟨items, rfl, Nat.le_refl _, Nat.le_max_left _ _, fun _ _ hne => absurd rfl hne, fun _ _ => rfl⟩
  | cons part parts ih =>
    obtain ⟨path, part⟩ := part
    obtain ⟨i, hi, rest, hpath⟩ := h _ List.mem_cons_self
    cases hpath
    have hi' : i < 0x8000_0000_0000_0000 := Nat.lt_of_lt_of_le hi hbound
    obtain ⟨placed, hplaced, hle, hmax, hhead, hget⟩ :=
      ih (fun part hpart => h part (List.mem_cons_of_mem _ hpart)) ((padded items (i + 1)).modify i (place rest part))
    rw [length_modify_padded] at hle hmax
    have hne : ∀ j < bound, i ≠ j → Segment.ofPosition i ≠ .ofPosition j := fun j hj hij heq =>
      hij (ofPosition_inj hi' (Nat.lt_of_lt_of_le hj hbound) heq)
    refine ⟨placed, ?_, by omega, by omega, ?_, ?_⟩
    · rw [placeAll_cons, place_position hi', hplaced]
    · intro j hj hj'
      by_cases hij : i = j
      · omega
      · rw [headed_cons_of_ne (hne j hj hij)] at hj'
        exact hhead j hj hj'
    · intro j hj
      rw [hget j hj, getElem?_modify_padded]
      by_cases hij : i = j
      · subst hij
        rw [if_pos rfl, headed_cons_self]
        rfl
      · rw [if_neg hij, headed_cons_of_ne (hne j hj hij)]

/-! ## Taking values apart -/

/-- The value is taken apart: every part is taken for the piece of the value at its path, and no piece is left over or
taken twice. -/
inductive Splits (R : α → Value → Prop) : Value → List (DataPath × α) → Prop
  | whole {v : Value} {part : α} : R part v → Splits R v [([], part)]
  | split {v : Value} {parts : List (DataPath × α)} : v.isContainer = true →
      Headed ((entries v).map Prod.fst) parts → (∀ entry ∈ entries v, Splits R entry.2 (headed entry.1 parts)) →
      Splits R v parts

theorem Splits.mapped {R : α → Value → Prop} {Q : β → Value → Prop} {f : α → β} {v : Value}
    (hRQ : ∀ part v, R part v → Q (f part) v) (h : Splits R v parts) : Splits Q v (mapped f parts) := by
  induction h with
  | whole hpart => exact .whole (hRQ _ _ hpart)
  | split hcontainer hheaded _ ih =>
    refine .split hcontainer (hheaded.mapped f) ?_
    intro entry hentry
    rw [headed_mapped]
    exact ih entry hentry

theorem Splits.mono {R Q : α → Value → Prop} {v : Value} (hRQ : ∀ part v, R part v → Q part v) (h : Splits R v parts) :
    Splits Q v parts := by
  induction h with
  | whole hpart => exact .whole (hRQ _ _ hpart)
  | split hcontainer hheaded _ ih => exact .split hcontainer hheaded ih

theorem segments_object (fields : Fields) :
    (entries (.object fields)).map Prod.fst = (fields.map Prod.fst).map Segment.key := by
  rw [entries, List.map_map, List.map_map]
  rfl

theorem segments_array (items : List Value) :
    (entries (.array items)).map Prod.fst = (List.range items.length).map Segment.ofPosition := by
  rw [entries, List.map_map, List.range_eq_range', ← List.zipIdx_map_snd 0 items, List.map_map]
  rfl

theorem nodup_segments_array {items : List Value} (hlength : items.length < 0x8000_0000_0000_0000) :
    ((entries (.array items)).map Prod.fst).Nodup := by
  rw [segments_array]
  refine List.Nodup.map_on ?_ List.nodup_range
  intro i hi j hj heq
  rw [List.mem_range] at hi hj
  exact ofPosition_inj (Nat.lt_trans hi hlength) (Nat.lt_trans hj hlength) heq

theorem mem_entries_array {items : List Value} {entry : Segment × Value} :
    entry ∈ entries (.array items) ↔ ∃ i, items[i]? = some entry.2 ∧ entry.1 = .ofPosition i := by
  rw [entries, List.mem_map]
  constructor
  · rintro ⟨⟨v, i⟩, hmem, rfl⟩
    exact ⟨i, List.mem_zipIdx_iff_getElem?.1 hmem, rfl⟩
  · rintro ⟨i, hget, hsegment⟩
    exact ⟨(entry.2, i), List.mem_zipIdx_iff_getElem?.2 hget, Prod.ext hsegment.symm rfl⟩

end View

namespace Value.Filled

theorem entries_ne_nil {v : Value} (h : v.Filled) (hcontainer : v.isContainer = true) : View.entries v ≠ [] := by
  cases h with
  | primitive hprimitive =>
    rw [hprimitive] at hcontainer
    cases hcontainer
  | array hne => simpa [View.entries] using hne
  | object hne => simpa [View.entries] using hne

theorem of_mem_entries {v : Value} (h : v.Filled) {entry : Segment × Value} (hentry : entry ∈ View.entries v) :
    entry.2.Filled := by
  cases h with
  | @primitive v hprimitive => cases v <;> first | cases hentry | cases hprimitive
  | array _ _ hitems =>
    obtain ⟨i, hget, -⟩ := View.mem_entries_array.1 hentry
    exact hitems _ (List.mem_of_getElem? hget)
  | object _ _ _ hfields =>
    obtain ⟨field, hfield, rfl⟩ := List.mem_map.1 hentry
    exact hfields field hfield

theorem nodup_entries {v : Value} (h : v.Filled) : ((View.entries v).map Prod.fst).Nodup := by
  cases h with
  | @primitive v hprimitive => cases v <;> first | exact List.nodup_nil | cases hprimitive
  | @object fields _ hnodup =>
    rw [View.segments_object]
    exact hnodup.map fun _ _ heq => Segment.key.inj heq
  | array _ hlength => exact View.nodup_segments_array hlength

/-- Induction from the parts of containers to the containers. -/
theorem induct {P : Value → Prop} (primitive : ∀ v, v.isContainer = false → P v)
    (container : ∀ v, v.Filled → v.isContainer = true → (∀ entry ∈ View.entries v, P entry.2) → P v) {v : Value}
    (hv : v.Filled) : P v := by
  induction hv with
  | primitive hprimitive => exact primitive _ hprimitive
  | array hne hlength hitems ih =>
    refine container _ (.array hne hlength hitems) rfl ?_
    intro entry hentry
    obtain ⟨i, hget, -⟩ := View.mem_entries_array.1 hentry
    exact ih _ (List.mem_of_getElem? hget)
  | object hne hnodup hasync hfields ih =>
    refine container _ (.object hne hnodup hasync hfields) rfl ?_
    intro entry hentry
    obtain ⟨field, hfield, rfl⟩ := List.mem_map.1 hentry
    exact ih field hfield

theorem hasKey_async {fields : Fields} (h : (Value.object fields).Filled) :
    Fields.hasKey fields "async" = false := by
  obtain ⟨-, -, hasync, -⟩ := filled_object.1 h
  rw [Fields.hasKey, Fields.find?_eq_none hasync, Option.isSome_none]

end Value.Filled

namespace View

open Value

variable {α β : Type} {s : Segment} {parts : List (DataPath × α)}

theorem Splits.ne_nil {R : α → Value → Prop} {v : Value} (h : Splits R v parts) (hv : v.Filled) : parts ≠ [] := by
  induction h with
  | whole => exact List.cons_ne_nil _ _
  | split hcontainer _ _ ih =>
    rintro rfl
    obtain ⟨entry, hentry⟩ := List.exists_mem_of_ne_nil _ (hv.entries_ne_nil hcontainer)
    exact ih entry hentry (hv.of_mem_entries hentry) rfl

theorem headed_ne_nil {part : DataPath × α} (hmem : part ∈ parts) {rest : DataPath} (h : part.1 = s :: rest) :
    headed s parts ≠ [] := by
  obtain ⟨path, part⟩ := part
  cases h
  exact List.ne_nil_of_mem (List.mem_filterMap.2 ⟨_, hmem, tail?_cons_self s rest part⟩)

/-! ## Placing the parts of a value -/

/-- What is placed into nothing: a container of the same kind with the same segments or fewer, and under each of them
what is placed there. -/
structure Assembled (v : Value) (parts : List (DataPath × Value)) (placed : Value) : Prop where
  isContainer : placed.isContainer = true
  isObject : placed.isObject = v.isObject
  nodup : ((entries placed).map Prod.fst).Nodup
  entry : ∀ s part, (s, part) ∈ entries placed →
    s ∈ (entries v).map Prod.fst ∧ part = placeAll .null (headed s parts)
  mem : ∀ s, headed s parts ≠ [] → s ∈ (entries placed).map Prod.fst

theorem mem_segments_object {fields : Fields} {s : Segment} :
    s ∈ (entries (.object fields)).map Prod.fst ↔ ∃ key ∈ fields.map Prod.fst, s = .key key := by
  simp [entries, eq_comm]

theorem mem_segments_array {items : List Value} {s : Segment} :
    s ∈ (entries (.array items)).map Prod.fst ↔ ∃ i < items.length, s = .ofPosition i := by
  rw [segments_array, List.mem_map]
  simp [eq_comm]

theorem assembled_object {fields : Fields} {parts : List (DataPath × Value)} (hne : parts ≠ [])
    (h : Headed ((entries (.object fields)).map Prod.fst) parts) :
    Assembled (.object fields) parts (placeAll .null parts) := by
  have hkeys : ∀ part ∈ parts, ∃ key rest, part.1 = Segment.key key :: rest := by
    intro part hpart
    obtain ⟨s, hs, rest, hpath⟩ := h part hpart
    obtain ⟨key, -, rfl⟩ := mem_segments_object.1 hs
    exact ⟨key, rest, hpath⟩
  have hnull : placeAll .null parts = placeAll (.object []) parts := by
    cases parts with
    | nil => exact absurd rfl hne
    | cons part rest =>
      obtain ⟨path, part⟩ := part
      obtain ⟨key, rest, hpath⟩ := hkeys _ List.mem_cons_self
      cases hpath
      rfl
  obtain ⟨placed, hplaced, hnodup, hmem, hfind⟩ := placeAll_object hkeys []
  have hnodup' := hnodup List.nodup_nil
  rw [hnull, hplaced]
  refine ⟨rfl, rfl, ?_, ?_, ?_⟩
  · rw [segments_object]
    exact hnodup'.map fun _ _ heq => Segment.key.inj heq
  · intro s part hentry
    obtain ⟨field, hfield, heq⟩ := List.mem_map.1 hentry
    cases heq
    have hparts : headed (.key field.1) parts ≠ [] :=
      ((hmem field.1).1 (List.mem_map_of_mem hfield)).resolve_left List.not_mem_nil
    refine ⟨mem_of_headed_ne_nil h hparts, ?_⟩
    have hvalue := hfind field.1
    rwa [Fields.find?_of_mem hnodup' hfield, Option.getD_some, Fields.find?_nil, Option.getD_none] at hvalue
  · intro s hs
    obtain ⟨key, -, rfl⟩ := mem_segments_object.1 (mem_of_headed_ne_nil h hs)
    rw [segments_object]
    exact List.mem_map_of_mem ((hmem key).2 (.inr hs))

theorem assembled_array {items : List Value} {parts : List (DataPath × Value)}
    (hlength : items.length < 0x8000_0000_0000_0000) (hne : parts ≠ [])
    (h : Headed ((entries (.array items)).map Prod.fst) parts) :
    Assembled (.array items) parts (placeAll .null parts) := by
  have hpositions : ∀ part ∈ parts, ∃ i < items.length, ∃ rest, part.1 = Segment.ofPosition i :: rest := by
    intro part hpart
    obtain ⟨s, hs, rest, hpath⟩ := h part hpart
    obtain ⟨i, hi, rfl⟩ := mem_segments_array.1 hs
    exact ⟨i, hi, rest, hpath⟩
  have hnull : placeAll .null parts = placeAll (.array []) parts := by
    cases parts with
    | nil => exact absurd rfl hne
    | cons part rest =>
      obtain ⟨path, part⟩ := part
      obtain ⟨i, hi, rest, hpath⟩ := hpositions _ List.mem_cons_self
      cases hpath
      rw [placeAll_cons, place_position_null (Nat.lt_trans hi hlength), placeAll_cons]
  obtain ⟨placed, hplaced, -, hmax, hhead, hget⟩ := placeAll_array (Nat.le_of_lt hlength) hpositions []
  rw [List.length_nil, Nat.zero_max] at hmax
  rw [hnull, hplaced]
  refine ⟨rfl, rfl, ?_, ?_, ?_⟩
  · exact nodup_segments_array (Nat.lt_of_le_of_lt hmax hlength)
  · intro s part hentry
    obtain ⟨i, hpart, rfl⟩ := mem_entries_array.1 hentry
    have hi : i < items.length := Nat.lt_of_lt_of_le (List.getElem?_eq_some_iff.1 hpart).1 hmax
    refine ⟨mem_segments_array.2 ⟨i, hi, rfl⟩, ?_⟩
    have hvalue := hget i hi
    rwa [hpart, Option.getD_some, List.getElem?_nil, Option.getD_none] at hvalue
  · intro s hs
    obtain ⟨i, hi, rfl⟩ := mem_segments_array.1 (mem_of_headed_ne_nil h hs)
    exact mem_segments_array.2 ⟨i, hhead i hi hs, rfl⟩

theorem assembled {v : Value} (hv : v.Filled) (hcontainer : v.isContainer = true) {parts : List (DataPath × Value)}
    (hne : parts ≠ []) (h : Headed ((entries v).map Prod.fst) parts) : Assembled v parts (placeAll .null parts) := by
  cases hv with
  | primitive hprimitive =>
    rw [hprimitive] at hcontainer
    cases hcontainer
  | object => exact assembled_object hne h
  | array _ hlength => exact assembled_array hlength hne h

/-- Containers of the same kind are alike if they have the same segments, with alike values under each. -/
theorem alike_of_entries {v w : Value} (hv : v.isContainer = true) (hw : w.isContainer = true)
    (hkind : v.isObject = w.isObject) (hnodup : ((entries v).map Prod.fst).Nodup)
    (hperm : ((entries v).map Prod.fst).Perm ((entries w).map Prod.fst))
    (h : ∀ s part other, (s, part) ∈ entries v → (s, other) ∈ entries w → Alike part other) : Alike v w := by
  cases v with
  | object fields =>
    cases w with
    | object others =>
      rw [segments_object] at hnodup
      rw [segments_object, segments_object] at hperm
      refine .object hnodup.of_map ((List.map_perm_map_iff fun _ _ heq => Segment.key.inj heq).1 hperm) ?_
      intro key part other hpart hother
      exact h (.key key) part other (List.mem_map_of_mem (Fields.mem_of_find? hpart))
        (List.mem_map_of_mem (Fields.mem_of_find? hother))
    | array others => cases hkind
    | _ => cases hw
  | array items =>
    cases w with
    | array others =>
      have hlength : items.length = others.length := by
        have hlength := hperm.length_eq
        rwa [segments_array, segments_array, List.length_map, List.length_map, List.length_range,
          List.length_range] at hlength
      refine .array hlength ?_
      intro i part other hpart hother
      exact h (.ofPosition i) part other (mem_entries_array.2 ⟨i, hpart, rfl⟩) (mem_entries_array.2 ⟨i, hother, rfl⟩)
    | object others => cases hkind
    | _ => cases hw
  | _ => cases hv

/-- The parts of a value put it together again, in whatever order they are placed. -/
theorem Splits.placeAll_alike {v : Value} {parts : List (DataPath × Value)} (h : Splits Alike v parts)
    (hv : v.Filled) : Alike (placeAll .null parts) v := by
  induction h with
  | whole hpart => exact hpart
  | @split v parts hcontainer hheaded hsplits ih =>
    have hne : parts ≠ [] := (Splits.split hcontainer hheaded hsplits).ne_nil hv
    have hplaced := assembled hv hcontainer hne hheaded
    apply alike_of_entries hplaced.isContainer hcontainer hplaced.isObject hplaced.nodup
    · -- every segment of the value has parts, so it is there, and no other one is
      rw [List.perm_ext_iff_of_nodup hplaced.nodup hv.nodup_entries]
      intro s
      constructor
      · intro hs
        obtain ⟨⟨s, part⟩, hentry, rfl⟩ := List.mem_map.1 hs
        exact (hplaced.entry s part hentry).1
      · intro hs
        obtain ⟨entry, hentry, rfl⟩ := List.mem_map.1 hs
        exact hplaced.mem _ ((hsplits entry hentry).ne_nil (hv.of_mem_entries hentry))
    · intro s part original hpart horiginal
      rw [(hplaced.entry s part hpart).2]
      exact ih _ horiginal (hv.of_mem_entries horiginal)

end View

end DataBound
