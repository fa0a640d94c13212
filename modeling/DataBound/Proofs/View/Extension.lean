-- SUMMARY: Builders with any of the standard extensions in any order, and how their handlers classify and settle nodes.
import DataBound.View.Extension
import DataBound.View.Template
import DataBound.Proofs.View.Arena
import DataBound.Proofs.View.Ensures

/-!
# Standard extensions

A builder is made with a list of extensions, each of which adds its handlers behind those of the ones before it. What
the handlers of a hook are is read off the list, so facts about the hooks of any such builder are facts about the
members of the list.
-/

namespace DataBound.View

variable {w : Type}

/-- A standard extension with what it depends on: how switch conditions are decided, how template data is read, and how
the replacements in template bodies are changed. -/
inductive Extension (w : Type) where
  | applicability
  | switch (accepts : Value → Run w Bool)
  | template (read : String → Run w (Option Value)) (taps : Hook SubstitutionTap)

namespace Extension

/-- The hooks with the handlers of the extension. -/
def extend (hooks : Hooks w) : Extension w → Hooks w
  | .applicability => hooks.withApplicability
  | .switch accepts => hooks.withSwitch accepts
  | .template read taps => hooks.withTemplate read taps

/-- The name under which the handlers are registered. -/
def name : Extension w → String
  | .applicability => "applicability"
  | .switch _ => "switch"
  | .template .. => "template"

/-- The handler that gives a type to content. -/
def classify : Extension w → Value → Option NodeType
  | .applicability => Applicability.classify
  | .switch _ => Switch.classify
  | .template .. => Template.classify

/-- The handler that builds classified content. -/
def buildNode : Extension w → Level w → Value → ContentType → Nat → Option NodeType → Build w (Option NodeId)
  | .applicability => Applicability.buildNode
  | .switch _ => Switch.buildNode
  | .template .. => Template.buildNode

/-- The handler that replaces new nodes, if there is one. -/
def onCreate? : Extension w → Option (Level w → Option NodeId → Value → Build w (Option NodeId))
  | .applicability => none
  | .switch accepts => some (Switch.onCreate accepts)
  | .template read taps => some (Template.onCreate read taps)

/-- Is a new node of this kind replaced by the extension? -/
def Replaces : Extension w → Kind → Prop
  | .switch _, .switch dynamic _ => dynamic = false
  | .template .., .template _ _ _ dynamic => dynamic = false
  | _, _ => False

end Extension

/-- The hooks of a builder with these extensions, added in order. -/
def Hooks.ofExtensions (exts : List (Extension w)) : Hooks w := exts.foldl Extension.extend .empty

/-- The nodes of this kind that are made stay, or one of the extensions replaces them. -/
def Kind.IsHandled (exts : List (Extension w)) (kind : Kind) : Prop :=
  kind.IsFinished ∨ ∃ e ∈ exts, e.Replaces kind

theorem Kind.IsFinished.not_replaced {kind : Kind} (h : kind.IsFinished) (e : Extension w) : ¬ e.Replaces kind := by
  intro hreplaces
  cases e <;> cases kind <;> simp_all [Extension.Replaces, Kind.IsFinished]

namespace Hooks

variable {exts : List (Extension w)}

/-! ## The handlers of a list of extensions -/

theorem foldl_extend_taps (hooks : Hooks w) :
    let extended := exts.foldl Extension.extend hooks
    extended.classify.taps = hooks.classify.taps ++ exts.map (fun e => ⟨e.name, e.classify⟩) ∧
    extended.buildNode.taps = hooks.buildNode.taps ++ exts.map (fun e => ⟨e.name, e.buildNode⟩) ∧
    extended.onCreate.taps = hooks.onCreate.taps ++ exts.filterMap (fun e => e.onCreate?.map (⟨e.name, ·⟩)) ∧
    extended.onObject = hooks.onObject := by
  induction exts generalizing hooks with
  | nil => simp
  | cons e rest ih =>
    obtain ⟨hclassify, hbuild, hcreate, hobject⟩ := ih (e.extend hooks)
    simp only [List.foldl_cons, hclassify, hbuild, hcreate, hobject]
    cases e <;> simp [Extension.extend, withApplicability, withSwitch, withTemplate, Hook.tap, Extension.name,
      Extension.classify, Extension.buildNode, Extension.onCreate?]

theorem ofExtensions_classify (exts : List (Extension w)) :
    (ofExtensions exts).classify.taps = exts.map fun e => ⟨e.name, e.classify⟩ :=
  (foldl_extend_taps .empty).1

theorem ofExtensions_buildNode (exts : List (Extension w)) :
    (ofExtensions exts).buildNode.taps = exts.map fun e => ⟨e.name, e.buildNode⟩ :=
  (foldl_extend_taps .empty).2.1

theorem ofExtensions_onCreate (exts : List (Extension w)) :
    (ofExtensions exts).onCreate.taps = exts.filterMap fun e => e.onCreate?.map (⟨e.name, ·⟩) :=
  (foldl_extend_taps .empty).2.2.1

theorem ofExtensions_onObject (exts : List (Extension w)) : (ofExtensions exts).onObject = ∅ :=
  (foldl_extend_taps .empty).2.2.2

theorem ofExtensions_onView (exts : List (Extension w)) : (ofExtensions exts).onView = ∅ := by
  have hextend : ∀ hooks : Hooks w, (exts.foldl Extension.extend hooks).onView = hooks.onView := by
    induction exts with
    | nil => exact fun _ => rfl
    | cons e rest ih =>
      intro hooks
      rw [List.foldl_cons, ih]
      cases e <;> rfl
  exact hextend .empty

/-! ## Classification -/

theorem firstAnswer_mem {α β : Type} {ask : α → Id (Option β)} {taps : List (Tap α)} {answer : β}
    (h : Hook.firstAnswer ask taps = pure (some answer)) : ∃ tap ∈ taps, ask tap.handler = pure (some answer) := by
  induction taps with
  | nil => cases h
  | cons tap rest ih =>
    rw [Hook.firstAnswer] at h
    cases hask : ask tap.handler with
    | none =>
      rw [hask] at h
      obtain ⟨found, hmem, hfound⟩ := ih h
      exact ⟨found, List.mem_cons_of_mem _ hmem, hfound⟩
    | some b =>
      rw [hask] at h
      exact ⟨tap, List.mem_cons_self, hask.trans h⟩

/-- A type is given by one of the extensions. -/
theorem exists_classify_of_typeOf {v : Value} {type : NodeType} (h : (ofExtensions exts).typeOf v = some type) :
    ∃ e ∈ exts, e.classify v = some type := by
  obtain ⟨tap, hmem, htap⟩ := firstAnswer_mem h
  rw [ofExtensions_classify] at hmem
  obtain ⟨e, he, rfl⟩ := List.mem_map.1 hmem
  exact ⟨e, he, htap⟩

/-- Only strings are classified as templates, and only by an extension for templates. -/
theorem template_of_typeOf {v : Value} (h : (ofExtensions exts).typeOf v = some .template) :
    v = .string "template" ∧ ∃ read taps, .template read taps ∈ exts := by
  obtain ⟨e, he, hclassify⟩ := exists_classify_of_typeOf h
  cases e with
  | template read taps =>
    refine ⟨?_, read, taps, he⟩
    cases v <;> simp_all [Extension.classify, Template.classify, Value.asString]
  | applicability =>
    simp only [Extension.classify, Applicability.classify] at hclassify
    split at hclassify <;> cases hclassify
  | switch accepts =>
    simp only [Extension.classify, Switch.classify] at hclassify
    split at hclassify <;> cases hclassify

end Hooks

end DataBound.View
