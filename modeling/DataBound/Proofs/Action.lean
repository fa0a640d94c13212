-- SUMMARY: How actions end, and properties of actions that survive sequencing.
import DataBound.Effect

/-!
# Endings of actions

`x.Ends s r s'` says that the action `x`, started in the state `s`, ends in `s'` with the result or error `r`.
One lemma for each way to build an action says how it ends. A property is `Sequential` if it holds of the
actions that do nothing and survives sequencing; what holds of the parts of a program then holds of the program.
-/

namespace DataBound

namespace Action

variable {σ τ α β : Type}

/-- Started in `s` the action ends in `s'` with the result or error `r`. -/
def Ends (x : Action σ α) (s : σ) (r : Except Error α) (s' : σ) : Prop := x.run.run s = some (r, s')

theorem Ends.unique {x : Action σ α} {s s₁ s₂ : σ} {r₁ r₂ : Except Error α} (h₁ : x.Ends s r₁ s₁)
    (h₂ : x.Ends s r₂ s₂) : r₁ = r₂ ∧ s₁ = s₂ := by
  unfold Ends at h₁ h₂
  rw [h₁, Option.some.injEq, Prod.mk.injEq] at h₂
  exact h₂

/-- How an action ends can be computed. -/
theorem exists_ends_ok {x : Action σ α} {s : σ} {p : α → σ → Bool}
    (h : (x.run.run s).any (fun last => last.1.toOption.any (p · last.2)) = true) :
    ∃ a s', x.Ends s (.ok a) s' ∧ p a s' = true := by
  obtain ⟨⟨r, s'⟩, hrun, hr⟩ := (Option.any_eq_true _ _).1 h
  cases r with
  | error e => cases hr
  | ok a => exact ⟨a, s', hrun, hr⟩

theorem ends_iff_of_run_eq {x : Action σ α} {s s₁ s' : σ} {r r₁ : Except Error α}
    (h : x.run.run s = some (r₁, s₁)) : x.Ends s r s' ↔ r = r₁ ∧ s' = s₁ := by
  unfold Ends
  rw [h, Option.some.injEq, Prod.mk.injEq]
  constructor
  · rintro ⟨rfl, rfl⟩
    exact ⟨rfl, rfl⟩
  · rintro ⟨rfl, rfl⟩
    exact ⟨rfl, rfl⟩

@[simp] theorem pure_ends {a : α} {s s' : σ} {r : Except Error α} :
    (pure a : Action σ α).Ends s r s' ↔ r = .ok a ∧ s' = s := ends_iff_of_run_eq rfl

@[simp] theorem throw_ends {e : Error} {s s' : σ} {r : Except Error α} :
    (throw e : Action σ α).Ends s r s' ↔ r = .error e ∧ s' = s := ends_iff_of_run_eq rfl

@[simp] theorem not_exhausted_ends {s s' : σ} {r : Except Error α} :
    ¬ (exhausted : Action σ α).Ends s r s' := nofun

@[simp] theorem ofState_ends {step : σ → α × σ} {s s' : σ} {r : Except Error α} :
    (ofState step).Ends s r s' ↔ r = .ok (step s).1 ∧ s' = (step s).2 := ends_iff_of_run_eq rfl

@[simp] theorem ofCallback_ends {read : τ → σ} {write : σ → τ → τ} {callback : Callback σ α}
    {s s' : τ} {r : Except Error α} :
    (ofCallback read write callback).Ends s r s' ↔
      r = (callback.run (read s)).1 ∧ s' = write (callback.run (read s)).2 s :=
  ends_iff_of_run_eq rfl

@[simp] theorem modify_ends {change : σ → σ} {s s' : σ} {r : Except Error Unit} :
    (modify change : Action σ Unit).Ends s r s' ↔ r = .ok () ∧ s' = change s :=
  ends_iff_of_run_eq rfl

@[simp] theorem get_ends {s s' : σ} {r : Except Error σ} :
    (get : Action σ σ).Ends s r s' ↔ r = .ok s ∧ s' = s := ends_iff_of_run_eq rfl

theorem pure_ends_self (a : α) (s : σ) : (pure a : Action σ α).Ends s (.ok a) s := rfl

section

variable {x : Action σ α} {f : α → Action σ β} {s s₁ s' : σ} {a : α} {e : Error} {r : Except Error β}

theorem bind_run_none (h : x.run.run s = none) : (x >>= f).run.run s = none := by
  simp only [ExceptT.run, StateT.run] at h
  simp only [bind, ExceptT.bind, ExceptT.run, ExceptT.mk, StateT.run, StateT.bind, h, Option.bind_none]

theorem Ends.bind_error (h : x.Ends s (.error e) s₁) : (x >>= f).Ends s (.error e) s₁ := by
  simp only [Ends, ExceptT.run, StateT.run] at h
  simp only [Ends, bind, ExceptT.bind, ExceptT.run, ExceptT.mk, StateT.run, StateT.bind, h, Option.bind_some]
  rfl

theorem bind_run_ok (h : x.Ends s (.ok a) s₁) : (x >>= f).run.run s = (f a).run.run s₁ := by
  simp only [Ends, ExceptT.run, StateT.run] at h
  simp only [bind, ExceptT.bind, ExceptT.run, ExceptT.mk, StateT.run, StateT.bind, h, Option.bind_some]
  rfl

theorem Ends.bind (hx : x.Ends s (.ok a) s₁) (hf : (f a).Ends s₁ r s') : (x >>= f).Ends s r s' :=
  (bind_run_ok hx).trans hf

theorem Ends.bind_iff (hx : x.Ends s (.ok a) s₁) : (x >>= f).Ends s r s' ↔ (f a).Ends s₁ r s' := by
  unfold Ends
  rw [bind_run_ok hx]

/-- A sequence ends with the error of its first part, or as its second part does. -/
theorem bind_ends : (x >>= f).Ends s r s' ↔
    (∃ e, x.Ends s (.error e) s' ∧ r = .error e) ∨ ∃ a s₁, x.Ends s (.ok a) s₁ ∧ (f a).Ends s₁ r s' := by
  constructor
  · intro h
    cases hx : x.run.run s with
    | none =>
      rw [Ends, bind_run_none hx] at h
      cases h
    | some last =>
      obtain ⟨r₁, s₁⟩ := last
      cases r₁ with
      | error e =>
        obtain ⟨rfl, rfl⟩ := h.unique (Ends.bind_error hx)
        exact .inl ⟨e, hx, rfl⟩
      | ok a => exact .inr ⟨a, s₁, hx, (bind_run_ok hx).symm.trans h⟩
  · rintro (⟨e, hx, rfl⟩ | ⟨a, s₁, hx, hf⟩)
    · exact hx.bind_error
    · exact hx.bind hf

end

theorem bind_ends_ok {x : Action σ α} {f : α → Action σ β} {s s' : σ} {b : β} :
    (x >>= f).Ends s (.ok b) s' ↔ ∃ a s₁, x.Ends s (.ok a) s₁ ∧ (f a).Ends s₁ (.ok b) s' := by
  rw [bind_ends]
  exact or_iff_right fun ⟨_, _, h⟩ => nomatch h

/-- A function applied to the result changes nothing else. -/
theorem bind_pure_ends {x : Action σ α} {f : α → β} {s s' : σ} {r : Except Error β} :
    (x >>= fun a => pure (f a)).Ends s r s' ↔ ∃ r₁, x.Ends s r₁ s' ∧ r = r₁.map f := by
  rw [bind_ends]
  constructor
  · rintro (⟨e, hx, rfl⟩ | ⟨a, s₁, hx, hpure⟩)
    · exact ⟨.error e, hx, rfl⟩
    · obtain ⟨rfl, rfl⟩ := pure_ends.1 hpure
      exact ⟨.ok a, hx, rfl⟩
  · rintro ⟨r₁, hx, rfl⟩
    cases r₁ with
    | error e => exact .inl ⟨e, hx, rfl⟩
    | ok a => exact .inr ⟨a, s', hx, pure_ends_self _ _⟩

theorem throw_bind_ends {e : Error} {f : α → Action σ β} {s s' : σ} {r : Except Error β} :
    ((throw e : Action σ α) >>= f).Ends s r s' ↔ r = .error e ∧ s' = s := ends_iff_of_run_eq rfl

@[simp] theorem get_bind_ends {f : σ → Action σ α} {s s' : σ} {r : Except Error α} :
    (get >>= f).Ends s r s' ↔ (f s).Ends s r s' := Iff.rfl

@[simp] theorem modify_bind_ends {change : σ → σ} {f : Unit → Action σ α} {s s' : σ} {r : Except Error α} :
    ((modify change : Action σ Unit) >>= f).Ends s r s' ↔ (f ()).Ends (change s) r s' := Iff.rfl

theorem mapError_ends {change : Error → Error} {x : Action σ α} {s s' : σ} {r : Except Error α} :
    (mapError change x).Ends s r s' ↔ ∃ r₁, x.Ends s r₁ s' ∧ r = r₁.mapError change := by
  have hrun : (mapError change x).run.run s =
      (x.run.run s).map fun last => (last.1.mapError change, last.2) := by
    simp only [mapError, bind, ExceptT.run, ExceptT.mk, StateT.run, StateT.bind]
    cases x s with
    | none => rfl
    | some end' =>
      obtain ⟨r, s₁⟩ := end'
      cases r <;> rfl
  unfold Ends
  rw [hrun]
  cases x.run.run s with
  | none => simp
  | some end' =>
    obtain ⟨r₁, s₁⟩ := end'
    simp only [Option.map_some, Option.some.injEq, Prod.mk.injEq]
    constructor
    · rintro ⟨rfl, rfl⟩
      exact ⟨r₁, ⟨rfl, rfl⟩, rfl⟩
    · rintro ⟨_, ⟨rfl, rfl⟩, rfl⟩
      exact ⟨rfl, rfl⟩

theorem mapError_ends_ok {change : Error → Error} {x : Action σ α} {s s' : σ} {a : α} :
    (mapError change x).Ends s (.ok a) s' ↔ x.Ends s (.ok a) s' := by
  rw [mapError_ends]
  constructor
  · rintro ⟨r, hx, hr⟩
    cases r with
    | error e => cases hr
    | ok b =>
      cases hr
      exact hx
  · exact fun hx => ⟨.ok a, hx, rfl⟩

/-- A run never fails as an action. -/
theorem lift_ends {x : Run σ α} {s s' : σ} {r : Except Error α} :
    (liftM x : Action σ α).Ends s r s' ↔ ∃ a, x.run s = some (a, s') ∧ r = .ok a := by
  have hrun : (liftM x : Action σ α).run.run s = (x.run s).map fun last => (.ok last.1, last.2) := by
    simp only [liftM, monadLift, MonadLift.monadLift, ExceptT.lift, ExceptT.run, ExceptT.mk,
      StateT.run, Functor.map, StateT.map]
    cases x s <;> rfl
  unfold Ends
  rw [hrun]
  cases x.run s with
  | none => simp
  | some end' =>
    obtain ⟨a, s₁⟩ := end'
    simp only [Option.map_some, Option.some.injEq, Prod.mk.injEq]
    constructor
    · rintro ⟨rfl, rfl⟩
      exact ⟨a, ⟨rfl, rfl⟩, rfl⟩
    · rintro ⟨_, ⟨rfl, rfl⟩, rfl⟩
      exact ⟨rfl, rfl⟩

/-! ## Properties that survive sequencing -/

/-- A property of actions that sequences have when their parts have it. Errors may be replaced by errors with the same
    root cause. -/
structure Composed (P : ∀ {α : Type}, Action σ α → Prop) : Prop where
  pure {α : Type} (a : α) : P (pure a)
  bind {α β : Type} {x : Action σ α} {f : α → Action σ β} : P x → (∀ a, P (f a)) → P (x >>= f)
  mapError {α : Type} {change : Error → Error} {x : Action σ α} :
    (∀ e, (change e).rootCause = e.rootCause) → P x → P (mapError change x)

/-- A property of actions that programs have when their parts have it, whatever they fail with and also if they look at
    how a part ended. -/
structure Sequential (P : ∀ {α : Type}, Action σ α → Prop) : Prop extends Composed P where
  throw {α : Type} (e : Error) : P (throw e : Action σ α)
  exhausted {α : Type} : P (exhausted : Action σ α)
  attempt {α : Type} {x : Action σ α} : P x → P (liftM x.run : Action σ (Except Error α))

/-- Whatever the action does from a state with `I`, it ends in one. -/
def Keeps (I : σ → Prop) (x : Action σ α) : Prop := ∀ s r s', I s → x.Ends s r s' → I s'

variable {I : σ → Prop}

theorem keeps_sequential : Sequential (fun x => Keeps I x) where
  pure a := by
    intro s r s' hs h
    rw [pure_ends] at h
    exact h.2 ▸ hs
  throw e := by
    intro s r s' hs h
    rw [throw_ends] at h
    exact h.2 ▸ hs
  exhausted := by
    intro _ s r s' _ h
    exact absurd h not_exhausted_ends
  bind hx hf := by
    intro s r s' hs h
    rcases bind_ends.1 h with ⟨e, hxe, -⟩ | ⟨a, s₁, hxa, hfa⟩
    · exact hx s _ s' hs hxe
    · exact hf a s₁ r s' (hx s _ s₁ hs hxa) hfa
  mapError _ hx := by
    intro s r s' hs h
    obtain ⟨r₁, hx₁, -⟩ := mapError_ends.1 h
    exact hx s r₁ s' hs hx₁
  attempt hx := by
    intro s r s' hs h
    obtain ⟨a, hrun, -⟩ := lift_ends.1 h
    exact hx s a s' hs hrun

theorem keeps_ofState {step : σ → α × σ} (h : ∀ s, I s → I (step s).2) : Keeps I (ofState step) := by
  intro s r s' hs hends
  rw [ofState_ends] at hends
  exact hends.2 ▸ h s hs

theorem keeps_modify {change : σ → σ} (h : ∀ s, I s → I (change s)) :
    Keeps I (modify change : Action σ Unit) := by
  intro s r s' hs hends
  rw [modify_ends] at hends
  exact hends.2 ▸ h s hs

end Action

end DataBound
