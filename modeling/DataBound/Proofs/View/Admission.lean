-- SUMMARY: Builders that stop where classified content is about to be built and is not admitted.
import DataBound.Proofs.View.Termination

/-!
# Admission

What is said about a run is often said about certain moments of it, such as those at which one object is built. A builder
that admits says which moments may come: before classified content is built it looks at the content, the template depth
and the state of the host, and it has no result where these are not admitted. So that such a builder ends says two things,
that the builder ends, and that nothing was built at a moment that is not admitted.
-/

namespace DataBound.View

variable {σ : Type}

/-- Nothing is done if the moment is admitted, and else there is no result. -/
def admission (admits : σ → Bool) : Run σ Unit := fun world => if admits world then some ((), world) else none

theorem admission_eq_some_iff {admits : σ → Bool} {world world' : σ} :
    admission admits world = some ((), world') ↔ admits world = true ∧ world' = world := by
  unfold admission
  split
  · rename_i hadmitted
    simp [hadmitted, eq_comm]
  · rename_i hrefused
    simp [hrefused]

/-- The builder that builds classified content only at moments that are admitted. -/
def Hooks.admitting (hooks : Hooks (Binder.State σ)) (admits : Value → Nat → σ → Bool) : Hooks (Binder.State σ) :=
  { hooks with
    buildNode := ⟨⟨"admission", fun _ v _ depth _ => do
      Build.onWorld (admission fun s => admits v depth s.host)
      pure none⟩ :: hooks.buildNode.taps⟩ }

theorem Hooks.admitting_heeds (exts : List (Extension (Binder.State σ))) (admits : Value → Nat → σ → Bool) :
    ((ofExtensions exts).admitting admits).Heeds exts fun v depth => admission fun s => admits v depth s.host where
  typeOf := rfl
  onCreate := rfl
  onObject := ofExtensions_onObject exts
  onView := ofExtensions_onView exts
  build _ _ _ _ _ := by
    unfold build Hook.bail admitting
    rw [Hook.firstAnswer, bind_assoc]
    rfl

/-- The rules by which classified content is built only at moments that are admitted. -/
def Rules.admitting (R : Rules (Run σ)) (admits : Value → Nat → σ → Bool) : Rules (Run σ) :=
  { R with heed := fun v depth => admission (admits v depth) }

section

variable {R : Rules (Run σ)} {admits : Value → Nat → σ → Bool}

theorem Rules.Govern.admitting {exts : List (Extension (Binder.State σ))}
    (h : R.Govern (fun s world => s.Over world) (Hooks.ofExtensions exts) exts) :
    (R.admitting admits).Govern (fun s world => s.Over world) ((Hooks.ofExtensions exts).admitting admits) exts where
  distinct := h.distinct
  typeOf := h.typeOf
  obeys e he := by
    have hobeys := h.obeys e he
    cases e <;> exact hobeys
  heeds := by
    refine ⟨_, Hooks.admitting_heeds exts admits, ?_⟩
    rintro v depth s _ ⟨hsound, rfl⟩
    dsimp only [Rules.admitting, admission]
    split
    · exact .some ⟨⟨hsound, rfl⟩, rfl⟩
    · exact .none
  complete := h.complete

theorem Rules.admitting_agree (hheed : ∀ v depth, R.heed v depth = pure ()) :
    (Refinement.runs σ).Agree (R.admitting admits) R := by
  refine ⟨rfl, rfl, fun _ => Refinement.refl _ _, ?_, fun h => h.shown rfl rfl⟩
  rintro v depth world ⟨⟨⟩, world'⟩ hr
  obtain ⟨-, rfl⟩ := admission_eq_some_iff.1 hr
  rw [hheed]
  rfl

/-- What is built with admission is built without it. -/
theorem Rules.admitting_outline (hheed : ∀ v depth, R.heed v depth = pure ()) (height : Nat) :
    (Refinement.runs σ).Outlines ((R.admitting admits).outline height) (R.outline height) :=
  Simulation.outline (admitting_agree hheed) (Refinement.fails _ _) height

/-- Where every moment is admitted, building with admission ends as building does. -/
theorem Rules.Total.admitting {I : σ → Prop} (h : R.Total I)
    (hadmits : ∀ v depth world, I world → admits v depth world = true) : (R.admitting admits).Total I where
  read := h.read
  heed v depth world hworld := ⟨(), world, if_pos (hadmits v depth world hworld), hworld⟩
  taps := h.taps
  complete := h.complete
  applicability := h.applicability

end

end DataBound.View
