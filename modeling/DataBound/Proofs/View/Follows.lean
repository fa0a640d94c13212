-- SUMMARY: When a step of building follows a computation without arenas: rules for the ways to build a step.
import DataBound.Proofs.View.Ensures
import DataBound.Proofs.View.Shape

/-!
# Steps that follow computations

`x.Follows stands Rel a o` says that the step `x`, started with the arena `a`, goes as the computation `o` does from every
state that the world of the step stands over: it ends if and only if `o` does, and then in a world over the state in
which `o` ends, with nothing of the arena changed but more in it, and with something that stands in the relation `Rel` to
the result of `o`. Relations are meant to stay as arenas go on. The rules go through a step and its counterpart together;
what the counterpart has no part of, such as the numbers of new nodes, is passed over.
-/

namespace DataBound

variable {α β γ δ : Type} {Rel : α → γ → Prop} {Rel' : β → δ → Prop} {x : Option α} {y : Option γ}

theorem rel_bind {f : α → Option β} {g : γ → Option δ} (h : Option.Rel Rel x y)
    (hf : ∀ a c, Rel a c → Option.Rel Rel' (f a) (g c)) : Option.Rel Rel' (x.bind f) (y.bind g) := by
  cases h with
  | none => exact .none
  | some hrel => exact hf _ _ hrel

theorem exists_of_rel_left {a : α} (h : Option.Rel Rel (some a) y) : ∃ c, y = some c ∧ Rel a c := by
  cases h with
  | some hrel => exact ⟨_, rfl, hrel⟩

theorem exists_of_rel_right {c : γ} (h : Option.Rel Rel x (some c)) : ∃ a, x = some a ∧ Rel a c := by
  cases h with
  | some hrel => exact ⟨_, rfl, hrel⟩

theorem rel_mono {Rel₂ : α → γ → Prop} (h : Option.Rel Rel x y) (hrel : ∀ a c, Rel a c → Rel₂ a c) :
    Option.Rel Rel₂ x y := by
  cases h with
  | none => exact .none
  | some h => exact .some (hrel _ _ h)

end DataBound

namespace DataBound.View.Build

variable {w σ α β γ τ υ : Type}

/-- Two ends that go along with each other, after a start with the arena. -/
structure Meet (stands : w → σ → Prop) (Rel : Arena → α → τ → Prop) (a : Arena) (last : α × Stage w) (t : τ × σ) :
    Prop where
  stands : stands last.2.world t.2
  «extends» : a.Extends last.2.arena
  rel : Rel last.2.arena last.1 t.1

/-- Started with the arena the step goes as the computation does. -/
def Follows (stands : w → σ → Prop) (Rel : Arena → α → τ → Prop) (x : Build w α) (a : Arena) (o : Run σ τ) : Prop :=
  ∀ world h, stands world h → Option.Rel (Meet stands Rel a) (x ⟨a, world⟩) (o h)

/-- What is related stays so however the arena goes on. -/
def Stays (Rel : Arena → α → τ → Prop) : Prop := ∀ a a' r t, a.Extends a' → Rel a r t → Rel a' r t

variable {stands : w → σ → Prop} {Rel : Arena → α → τ → Prop} {Rel' : Arena → β → υ → Prop} {a : Arena}

theorem follows_failure : Follows stands Rel (fun _ => none) a failure := fun _ _ _ => .none

theorem follows_pure {r : α} {t : τ} (h : Rel a r t) : Follows stands Rel (pure r) a (pure t) :=
  fun _ _ hover => .some ⟨hover, .refl a, h⟩

theorem follows_bind {x : Build w α} {f : α → Build w β} {o : Run σ τ} {F : τ → Run σ υ} (hx : x.Follows stands Rel a o)
    (hf : ∀ r t a', a.Extends a' → Rel a' r t → (f r).Follows stands Rel' a' (F t)) :
    (x >>= f).Follows stands Rel' a (o >>= F) := by
  intro world h hover
  apply rel_bind (hx world h hover)
  rintro ⟨r, stage⟩ ⟨t, h'⟩ hmeet
  apply rel_mono (hf r t stage.arena hmeet.extends hmeet.rel _ _ hmeet.stands)
  intro last t' hlast
  exact ⟨hlast.stands, hmeet.extends.trans hlast.extends, hlast.rel⟩

theorem Follows.imp {Rel₂ : Arena → α → τ → Prop} {x : Build w α} {o : Run σ τ} (h : x.Follows stands Rel a o)
    (hrel : ∀ a' r t, Rel a' r t → Rel₂ a' r t) : x.Follows stands Rel₂ a o := by
  intro world s hover
  apply rel_mono (h world s hover)
  intro last t hmeet
  exact ⟨hmeet.stands, hmeet.extends, hrel _ _ _ hmeet.rel⟩

/-- A step that ends without a counterpart. -/
theorem follows_step {x : Build w α} {f : α → Build w β} {P : Arena → α → Prop} {o : Run σ υ}
    (hx : x.Follows stands (fun b r (_ : Unit) => P b r) a (pure ()))
    (hf : ∀ r b, a.Extends b → P b r → (f r).Follows stands Rel' b o) : (x >>= f).Follows stands Rel' a o :=
  follows_bind hx fun r _ b hext hP => hf r b hext hP

/-- The step is known for the arena. -/
theorem follows_of_eq {x y : Build w α} {o : Run σ τ} (heq : ∀ world, x ⟨a, world⟩ = y ⟨a, world⟩)
    (h : y.Follows stands Rel a o) : x.Follows stands Rel a o := fun world s hover => heq world ▸ h world s hover

theorem follows_alloc {kind : Kind} {f : NodeId → Build w β} {o : Run σ υ}
    (h : (f a.size).Follows stands Rel' (a.alloc kind).2 o) : (alloc kind >>= f).Follows stands Rel' a o := by
  apply follows_step (P := fun b r => r = a.size ∧ b = (a.alloc kind).2)
  · exact fun _ _ hover => .some ⟨hover, Arena.extends_alloc a kind, rfl, rfl⟩
  · rintro _ _ - ⟨rfl, rfl⟩
    exact h

theorem follows_kind? {id : NodeId} {f : Option Kind → Build w β} {o : Run σ υ}
    (h : (f (a.kind? id)).Follows stands Rel' a o) : (kind? id >>= f).Follows stands Rel' a o :=
  follows_of_eq (fun world => kind?_bind_eq id f a world) h

theorem follows_adopt {parent : NodeId} {children : List NodeId} {f : Unit → Build w β} {o : Run σ υ}
    (h : (f ()).Follows stands Rel' (a.adopt parent children) o) :
    (adopt parent children >>= f).Follows stands Rel' a o := by
  apply follows_step (P := fun b _ => b = a.adopt parent children)
  · exact fun _ _ hover => .some ⟨hover, Arena.extends_adopt a parent children, rfl⟩
  · rintro _ _ - rfl
    exact h

theorem onWorld_pure_bind (r : α) (f : α → Build w β) : onWorld (pure r) >>= f = f r := rfl

/-- A run over the world that goes as the computation does, with the same result. -/
def Serves (stands : w → σ → Prop) (run : Run w α) (o : Run σ α) : Prop :=
  ∀ world h, stands world h → Option.Rel (fun last t => stands last.2 t.2 ∧ last.1 = t.1) (run world) (o h)

theorem Serves.follows {run : Run w α} {o : Run σ α} (h : Serves stands run o) :
    (onWorld run).Follows stands (fun _ r t => r = t) a o := by
  intro world s hover
  rw [← Option.bind_fun_some (o s)]
  apply rel_bind (h world s hover)
  rintro last t ⟨hover', hsame⟩
  exact .some ⟨hover', .refl a, hsame⟩

/-! ## Repetition -/

/-- Every round follows its counterpart from what is related before it. -/
theorem follows_foldlM {f : α → γ → Build w α} {F : τ → γ → Run σ τ} {items : List γ} {r : α} {t : τ}
    (hstart : Rel a r t)
    (hround : ∀ item ∈ items, ∀ r t a', Rel a' r t → (f r item).Follows stands Rel a' (F t item)) :
    (items.foldlM f r).Follows stands Rel a (items.foldlM F t) := by
  induction items generalizing a r t with
  | nil => exact follows_pure hstart
  | cons item rest ih =>
    rw [List.foldlM_cons, List.foldlM_cons]
    apply follows_bind (hround item List.mem_cons_self r t a hstart)
    intro r' t' a' _ hrel
    exact ih hrel fun item' hmem => hround item' (List.mem_cons_of_mem _ hmem)

/-- One round does everything, and those before and after it change nothing. -/
theorem follows_foldlM_key {f : α → γ → Build w α} {before after : List γ} {key : γ} {r : α} {o : Run σ τ}
    (hbefore : ∀ item ∈ before, ∀ world, f r item ⟨a, world⟩ = some (r, ⟨a, world⟩))
    (hkey : (f r key).Follows stands Rel a o)
    (hafter : ∀ b r t, a.Extends b → Rel b r t → ∀ item ∈ after, ∀ world, f r item ⟨b, world⟩ = some (r, ⟨b, world⟩)) :
    ((before ++ key :: after).foldlM f r).Follows stands Rel a o := by
  rw [List.foldlM_append]
  apply follows_of_eq (y := f r key >>= fun r => after.foldlM f r)
  · intro world
    exact congrArg (fun x => Option.bind x _) (foldlM_eq_of_eq fun item hmem => hbefore item hmem world)
  · rw [← bind_pure o]
    apply follows_bind hkey
    intro r' t b hext hrel
    apply follows_of_eq (y := pure r')
    · exact fun world => foldlM_eq_of_eq fun item hmem => hafter b r' t hext hrel item hmem world
    · exact follows_pure hrel

/-- Every item follows its counterpart, and what was collected stays related. -/
theorem follows_filterMapM (hstays : Stays Rel) {f : γ → Build w (Option α)} {F : γ → Run σ (Option τ)}
    {items : List γ}
    (hitem : ∀ item ∈ items, ∀ a', (f item).Follows stands (fun b => Option.Rel (Rel b)) a' (F item)) :
    (items.filterMapM f).Follows stands (fun b => List.Forall₂ (Rel b)) a (items.filterMapM F) := by
  induction items generalizing a with
  | nil => exact follows_pure .nil
  | cons item rest ih =>
    rw [List.filterMapM_cons, List.filterMapM_cons]
    apply follows_bind (hitem item List.mem_cons_self a)
    intro r t a' _ hrel
    have hrest := ih (a := a') fun item' hmem => hitem item' (List.mem_cons_of_mem _ hmem)
    cases hrel with
    | none => exact hrest
    | some hfirst =>
      apply follows_bind hrest
      intro rs ts a'' hext hrels
      exact follows_pure (.cons (hstays _ _ _ _ hext hfirst) hrels)

end DataBound.View.Build
