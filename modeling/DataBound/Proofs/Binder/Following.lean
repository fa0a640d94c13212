-- SUMMARY: How a reference is followed: its value is asked for, and the value's text is normalized in its turn.
import DataBound.Proofs.Binder.Shortcut

/-!
# Following references

A reference to a path that asks for nothing asks for the value at that path. The text of the value is normalized, and
the text of the path that it leads to stands for the reference. Where that text leads to itself, as plain texts do up
to the spelling of their integers, the reference stands for the segments of the text.
-/

namespace DataBound

theorem Resolved.segmentsOf_eq_ofText {text : String} (h : text ≠ "") :
    Resolved.segmentsOf text true = DataPath.ofText text := by
  have hne : text.isEmpty = false := by
    rw [Bool.eq_false_iff, ne_eq, String.isEmpty_iff]
    exact h
  rw [Resolved.segmentsOf, DataPath.ofText, hne]
  rfl

namespace Binder

variable {σ : Type}

/-! ## Reading -/

/-- Items with dots between them. -/
theorem itemsText_join {parts : List (List Char × List Node)} (hne : parts ≠ [])
    (h : ∀ part ∈ parts, Path.ItemText part.1 part.2) :
    Path.ItemsText (List.intercalate ['.'] (parts.map Prod.fst)) (parts.flatMap Prod.snd) := by
  induction parts with
  | nil => exact absurd rfl hne
  | cons part parts ih =>
    have hpart := h part List.mem_cons_self
    cases parts with
    | nil => simpa using Path.ItemsText.last hpart
    | cons next parts =>
      have hrest := ih (List.cons_ne_nil _ _) fun other hmem => h other (List.mem_cons_of_mem _ hmem)
      rw [List.map_cons, List.map_cons, Text.intercalate_cons '.' _ (List.cons_ne_nil _ _), List.flatMap_cons]
      exact .cons hpart hrest

/-- The text between double braces. -/
def referTo (raw : String) : List Char := '{' :: '{' :: (raw.toList ++ ['}', '}'])

/-- The node stands for the text of the value at the path, whatever the services are. -/
structure RefersTo (node : Node) (path : DataPath) : Prop where
  resolveNode {σ : Type} (services : Services σ) (r : Resolved) :
    services.resolveNode r node = do
      let text ← services.followed path
      pure (r.append text true)
  nodeText {σ : Type} (services : Services σ) (updates : Updates) :
    services.nodeText updates node = do
      let text ← services.followed path
      pure (text, updates)

/-- A text that asks for nothing can be referred to. -/
theorem AsksNothing.refersTo {raw : String} {path : DataPath} (ha : AsksNothing raw path) :
    ∃ node, Path.PartText (referTo raw) node ∧ RefersTo node path := by
  obtain ⟨tree, hread, hresolves⟩ := ha.resolves
  refine ⟨.reference tree, .reference (Path.pathText_of_read_eq_ok hread), ⟨fun services r => ?_, fun services updates => ?_⟩⟩
  · simp only [Services.resolveNode, hresolves, pure_bind, Updates.merge_nil]
  · simp only [Services.nodeText, hresolves, pure_bind, Updates.merge_nil]

/-! ## The text of a value -/

variable {host : Host σ} {normalize : String → Action (State σ) Resolved} {value : Value} {text : String}
  {s s₁ s' : State σ}

/-- The value of a scalar stands for the text of the path that its own text leads to, unless that is empty. -/
theorem textOf_ends_iff (htext : value.pathText = .ok text) {r : Except Error String} :
    ((services host normalize).textOf (some value)).Ends s r s' ↔
      (∃ e, (normalize text).Ends s (.error e) s' ∧ r = .error e) ∨
      ∃ found s₁, (normalize text).Ends s (.ok found) s₁ ∧
        s' = { s₁ with pending := Updates.merge s₁.pending found.updates } ∧
        r = if found.path.text = "" then .error .emptyReference else .ok found.path.text := by
  have hpath : (MonadExcept.ofExcept value.pathText : Action (State σ) String).Ends s (.ok text) s := by
    rw [htext]
    exact Action.pure_ends_self text s
  refine hpath.bind_iff.trans (Action.bind_ends.trans (or_congr_right ?_))
  refine exists_congr fun found => exists_congr fun s₁ => and_congr_right fun _ => Action.modify_bind_ends.trans ?_
  dsimp only
  by_cases hempty : found.path.text = ""
  · rw [if_pos hempty, String.isEmpty_iff.2 hempty]
    exact Action.throw_bind_ends.trans and_comm
  · have hjoined : found.path.text.isEmpty = false := by
      rw [Bool.eq_false_iff, ne_eq, String.isEmpty_iff]
      exact hempty
    rw [if_neg hempty, hjoined]
    exact Action.pure_ends.trans and_comm

/-- A reference stands for the text of its value, and fails if the value has none. -/
theorem followed_ends_iff {path : DataPath} {services : Services (State σ)} {r : Except Error String}
    (hvalue : (services.valueAt path).Ends s (.ok (some value)) s₁) :
    (services.followed path).Ends s r s' ↔ ∃ text, (services.textOf (some value)).Ends s₁ text s' ∧
      r = text.mapError (.unresolvedSegment path.text) :=
  Action.mapError_ends.trans (exists_congr fun _ => and_congr_left fun _ => hvalue.bind_iff)

end Binder

end DataBound
