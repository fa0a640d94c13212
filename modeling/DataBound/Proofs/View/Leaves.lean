-- SUMMARY: The primitives in a value with their paths, and how they are spread over the parts of the value.
import DataBound.Proofs.View.Parts

/-!
# Primitives in values

A value holds primitives at paths. If it is taken apart, the primitives in its parts are its own. Parts that are primitives themselves can be put together into a value of their own; that value holds them at their
paths and nothing else besides nulls, which pad arrays up to where other parts belong.
-/

namespace DataBound

open View

mutual

/-- The primitives in a value with the paths to them. -/
def Value.leaves : Value → List (DataPath × Value)
  | .object fields => fieldLeaves fields
  | .array items => itemLeaves 0 items
  | primitive => [([], primitive)]

/-- The primitives in fields. -/
def fieldLeaves : List (String × Value) → List (DataPath × Value)
  | [] => []
  | (key, v) :: rest => under [.key key] v.leaves ++ fieldLeaves rest

/-- The primitives in items that stand from a position on. -/
def itemLeaves (i : Nat) : List Value → List (DataPath × Value)
  | [] => []
  | v :: rest => under [.ofPosition i] v.leaves ++ itemLeaves (i + 1) rest

end

namespace Value

theorem leaves_primitive {v : Value} (h : v.isContainer = false) : v.leaves = [([], v)] := by
  cases v <;> first | rfl | cases h

theorem leaves_object (fields : Fields) :
    leaves (.object fields) = fields.flatMap fun (key, v) => under [.key key] v.leaves := by
  rw [leaves]
  induction fields with
  | nil => rfl
  | cons field rest ih => rw [fieldLeaves, ih, List.flatMap_cons]

theorem leaves_array (items : List Value) :
    leaves (.array items) = items.zipIdx.flatMap fun (v, i) => under [.ofPosition i] v.leaves := by
  rw [leaves]
  generalize 0 = start
  induction items generalizing start with
  | nil => rfl
  | cons v rest ih => rw [itemLeaves, ih, List.zipIdx_cons, List.flatMap_cons]

theorem leaves_container {v : Value} (h : v.isContainer = true) :
    v.leaves = (entries v).flatMap fun (s, part) => under [s] part.leaves := by
  cases v with
  | object fields => rw [leaves_object, entries, List.flatMap_map]
  | array items => rw [leaves_array, entries, List.flatMap_map]
  | _ => cases h

end Value

namespace View

open Value

variable {α β : Type}

theorem flatMap_under (path : DataPath) (parts : List (DataPath × α)) (found : α → List (DataPath × Value)) :
    ((under path parts).flatMap fun (rest, part) => under rest (found part)) =
      under path (parts.flatMap fun (rest, part) => under rest (found part)) := by
  rw [under, List.flatMap_map, under, List.map_flatMap]
  apply List.flatMap_congr
  intro part _
  exact (under_under path part.1 (found part.2)).symm

/-- The primitives of the parts are those of the value. -/
theorem Splits.leaves_perm {R : α → Value → Prop} {found : α → List (DataPath × Value)} {v : Value}
    {parts : List (DataPath × α)} (hfound : ∀ part v, R part v → (found part).Perm v.leaves)
    (h : Splits R v parts) (hv : v.Filled) :
    (parts.flatMap fun (path, part) => under path (found part)).Perm v.leaves := by
  induction h with
  | whole hpart =>
    rw [List.flatMap_singleton]
    dsimp only
    rw [under_nil]
    exact hfound _ _ hpart
  | @split v parts hcontainer hheaded _ ih =>
    refine ((perm_flatMap_headed hv.nodup_entries hheaded).symm.flatMap_right _).trans ?_
    rw [leaves_container hcontainer, List.flatMap_assoc, List.flatMap_map]
    apply List.Perm.flatMap_left
    intro entry hentry
    rw [flatMap_under]
    exact (ih entry hentry (hv.of_mem_entries hentry)).map _

/-! ## Literals among the parts -/

/-- A part of a value in a view: a literal, or a node that stands for what belongs there. -/
inductive Piece where
  | literal (v : Value)
  | node (id : NodeId)

/-- The literal, if the piece is one. -/
def Piece.literal? : Piece → Option Value
  | .literal v => some v
  | .node _ => none

/-- The node, if the piece is one. -/
def Piece.node? : Piece → Option NodeId
  | .literal _ => none
  | .node id => some id

/-- The parts that there are after a choice. -/
def chosen (f : α → Option β) (parts : List (DataPath × α)) : List (DataPath × β) :=
  parts.filterMap fun (path, part) => (f part).map (path, ·)

/-- The leaves that are no prefixes of the paths of other parts. -/
def uncovered (covers : List (DataPath × α)) (leaves : List (DataPath × Value)) : List (DataPath × Value) :=
  leaves.filter fun leaf => !covers.any fun cover => leaf.1.isPrefixOf cover.1

theorem headed_chosen (f : α → Option β) (s : Segment) (parts : List (DataPath × α)) :
    headed s (chosen f parts) = chosen f (headed s parts) := by
  rw [headed, chosen, List.filterMap_filterMap, chosen, headed, List.filterMap_filterMap]
  apply congrArg (List.filterMap · parts)
  funext part
  obtain ⟨path, part⟩ := part
  cases path with
  | nil => cases hf : f part <;> simp [hf]
  | cons t rest =>
    by_cases hts : t = s
    · subst hts
      cases hf : f part <;> simp [hf]
    · cases hf : f part <;> simp [hf, tail?_cons_of_ne hts]

theorem Headed.chosen {segments : List Segment} {parts : List (DataPath × α)} (h : Headed segments parts)
    (f : α → Option β) : Headed segments (chosen f parts) := by
  intro part hpart
  obtain ⟨original, horiginal, hpart⟩ := List.mem_filterMap.1 hpart
  obtain ⟨_, -, rfl⟩ := Option.map_eq_some_iff.1 hpart
  exact h original horiginal

theorem uncovered_flatMap (covers : List (DataPath × α)) (items : List β) (leaves : β → List (DataPath × Value)) :
    uncovered covers (items.flatMap leaves) = items.flatMap fun item => uncovered covers (leaves item) :=
  List.filter_flatMap

/-- Whether a leaf under a segment is covered is decided by what is under the segment. -/
theorem uncovered_under (covers : List (DataPath × α)) (s : Segment) (leaves : List (DataPath × Value)) :
    uncovered covers (under [s] leaves) = under [s] (uncovered (headed s covers) leaves) := by
  rw [uncovered, under, List.filter_map]
  apply congrArg
  apply List.filter_congr
  intro leaf _
  have hany : (covers.any fun cover => (s :: leaf.1).isPrefixOf cover.1) =
      (headed s covers).any fun cover => leaf.1.isPrefixOf cover.1 := by
    induction covers with
    | nil => rfl
    | cons cover rest ih =>
      obtain ⟨path, cover⟩ := cover
      cases path with
      | nil => exact ih
      | cons t path =>
        by_cases hts : t = s
        · subst hts
          simp [ih]
        · rw [headed_cons_of_ne hts, List.any_cons, ih]
          simp [Ne.symm hts]
  exact congrArg not hany

theorem chosen_node_ne_nil {parts : List (DataPath × Piece)} (hne : parts ≠ [])
    (h : chosen Piece.literal? parts = []) : chosen Piece.node? parts ≠ [] := by
  cases parts with
  | nil => exact absurd rfl hne
  | cons part rest =>
    obtain ⟨path, piece⟩ := part
    cases piece with
    | literal v => cases h
    | node id => exact List.cons_ne_nil _ _

theorem uncovered_root {covers : List (DataPath × α)} (h : covers ≠ []) (v : Value) :
    uncovered covers [([], v)] = [] := by
  cases covers with
  | nil => exact absurd rfl h
  | cons cover rest => rfl

/-- The literals among the parts of a value, put together, hold the literals at their paths, and besides only nulls
where other parts belong. -/
theorem Splits.uncovered_perm {R : Piece → Value → Prop} {v : Value} {parts : List (DataPath × Piece)}
    (hR : ∀ x v, R (.literal x) v → x.isContainer = false) (h : Splits R v parts) (hv : v.Filled)
    (hne : chosen Piece.literal? parts ≠ []) :
    (uncovered (chosen Piece.node? parts) (placeAll .null (chosen Piece.literal? parts)).leaves).Perm
      (chosen Piece.literal? parts) := by
  induction h with
  | @whole v piece hpiece =>
    cases piece with
    | node id => exact absurd rfl hne
    | literal x =>
      have hleaves : x.leaves = [([], x)] := leaves_primitive (hR x v hpiece)
      change (uncovered ([] : List (DataPath × NodeId)) x.leaves).Perm [([], x)]
      rw [hleaves]
      exact .refl _
  | @split v parts hcontainer hheaded hsplits ih =>
    have hliterals := hheaded.chosen Piece.literal?
    have hplaced := assembled hv hcontainer hne hliterals
    -- under each segment that is there: the literals there, or a null that is covered by a node
    have hunder : ∀ entry ∈ entries (placeAll .null (chosen Piece.literal? parts)),
        (uncovered (chosen Piece.node? parts) (under [entry.1] entry.2.leaves)).Perm
          (under [entry.1] (headed entry.1 (chosen Piece.literal? parts))) := by
      rintro ⟨s, part⟩ hentry
      obtain ⟨hs, rfl⟩ := hplaced.entry s part hentry
      obtain ⟨⟨s, original⟩, horiginal, rfl⟩ := List.mem_map.1 hs
      rw [uncovered_under, headed_chosen, headed_chosen]
      apply List.Perm.map
      by_cases hnone : chosen Piece.literal? (headed s parts) = []
      · have hsome := (hsplits _ horiginal).ne_nil (hv.of_mem_entries horiginal)
        rw [hnone, placeAll_nil, leaves_primitive rfl, uncovered_root (chosen_node_ne_nil hsome hnone)]
      · exact ih (s, original) horiginal (hv.of_mem_entries horiginal) hnone
    have hsegments : Headed ((entries (placeAll .null (chosen Piece.literal? parts))).map Prod.fst)
        (chosen Piece.literal? parts) := by
      intro part hpart
      obtain ⟨s, -, rest, hpath⟩ := hliterals part hpart
      exact ⟨s, hplaced.mem s (headed_ne_nil hpart hpath), rest, hpath⟩
    rw [leaves_container hplaced.isContainer, uncovered_flatMap]
    refine (List.Perm.flatMap_left _ hunder).trans ?_
    have hperm := perm_flatMap_headed hplaced.nodup hsegments
    rwa [List.flatMap_map] at hperm

end View

end DataBound
