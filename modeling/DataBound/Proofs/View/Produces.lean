-- SUMMARY: A program logic for building that ends: what a step comes to, in every world that is good.
import DataBound.Proofs.View.Follows

/-!
# What building produces

`x.Produces I a Q` says that the step `x`, started with the arena `a` in a world with `I`, ends in a world with `I`, with
a result and an arena that satisfy `Q`. It promises what `Ensures` does and in addition that there is an end, so the rules
are the same but for those that live on steps without one.
-/

namespace DataBound.View

namespace Build

variable {w α β γ τ : Type}

/-- Started with the arena in a world with `I`, the step ends with `Q` and in a world with `I`. -/
def Produces (I : w → Prop) (x : Build w α) (a : Arena) (Q : α → Arena → Prop) : Prop :=
  ∀ world, I world → ∃ r s, x ⟨a, world⟩ = some (r, s) ∧ I s.world ∧ Q r s.arena

variable {I : w → Prop} {a : Arena} {x : Build w α}

theorem Produces.mono {P Q : α → Arena → Prop} (h : x.Produces I a P) (hPQ : ∀ r a', P r a' → Q r a') :
    x.Produces I a Q := by
  intro world hworld
  obtain ⟨r, s, hx, hI, hP⟩ := h world hworld
  exact ⟨r, s, hx, hI, hPQ r _ hP⟩

section

variable {Q : α → Arena → Prop}

theorem produces_pure {r : α} (h : Q r a) : Produces I (pure r) a Q := fun world hworld =>
  ⟨r, ⟨a, world⟩, rfl, hworld, h⟩

theorem produces_bind {f : β → Build w α} {y : Build w β} (h : y.Produces I a fun r a' => (f r).Produces I a' Q) :
    (y >>= f).Produces I a Q := by
  intro world hworld
  obtain ⟨b, s, hy, hI, hrest⟩ := h world hworld
  obtain ⟨r, s', hf, hI', hQ⟩ := hrest s.world hI
  exact ⟨r, s', Option.bind_eq_some_iff.2 ⟨(b, s), hy, hf⟩, hI', hQ⟩

/-- What is asked of the world has a known answer. -/
theorem produces_onWorld {run : Run w α} {answer : α}
    (hrun : ∀ world, I world → ∃ world', run world = some (answer, world') ∧ I world') (h : Q answer a) :
    (onWorld run).Produces I a Q := by
  intro world hworld
  obtain ⟨world', hanswer, hI⟩ := hrun world hworld
  exact ⟨answer, ⟨a, world'⟩, Option.bind_eq_some_iff.2 ⟨(answer, world'), hanswer, rfl⟩, hI, h⟩

end

theorem produces_alloc {kind : Kind} {Q : NodeId → Arena → Prop} (h : Q a.size (a.alloc kind).2) :
    (alloc kind).Produces I a Q := fun world hworld => ⟨_, ⟨_, world⟩, rfl, hworld, h⟩

theorem produces_kind? {id : NodeId} {Q : Option Kind → Arena → Prop} (h : Q (a.kind? id) a) :
    (kind? id).Produces I a Q := fun world hworld => ⟨_, ⟨_, world⟩, rfl, hworld, h⟩

theorem produces_adopt {parent : NodeId} {children : List NodeId} {Q : Unit → Arena → Prop}
    (h : Q () (a.adopt parent children)) : (adopt parent children).Produces I a Q :=
  fun world hworld => ⟨_, ⟨_, world⟩, rfl, hworld, h⟩

/-- A step that changes nothing. -/
theorem produces_of_eq {r : α} (h : ∀ world, x ⟨a, world⟩ = some (r, ⟨a, world⟩)) :
    x.Produces I a fun r' a' => r' = r ∧ a' = a := fun world hworld => ⟨r, ⟨a, world⟩, h world, hworld, rfl, rfl⟩

/-- Every round ends with what its counterpart gives, from what is related before it. -/
theorem produces_foldlM {Rel : Arena → α → τ → Prop} {f : α → γ → Build w α} {F : τ → γ → τ} {items : List γ} {r : α}
    {t : τ} (hstart : Rel a r t)
    (hround : ∀ item ∈ items, ∀ r t a', Rel a' r t →
      (f r item).Produces I a' fun r b => a'.Extends b ∧ Rel b r (F t item)) :
    (items.foldlM f r).Produces I a fun r b => a.Extends b ∧ Rel b r (items.foldl F t) := by
  induction items generalizing a r t with
  | nil => exact produces_pure ⟨.refl a, hstart⟩
  | cons item rest ih =>
    rw [List.foldlM_cons, List.foldl_cons]
    apply produces_bind
    apply (hround item List.mem_cons_self r t a hstart).mono
    rintro r' b ⟨hext, hrel⟩
    apply (ih hrel fun item' hmem => hround item' (List.mem_cons_of_mem _ hmem)).mono
    rintro r'' b' ⟨hext', hrel'⟩
    exact ⟨hext.trans hext', hrel'⟩

/-- Every item gives what belongs to it, and what was collected stays related. -/
theorem produces_filterMapM {Rel : Arena → α → τ → Prop} (hstays : Stays Rel) {f : γ → Build w (Option α)}
    {F : γ → Option τ} {items : List γ}
    (hitem : ∀ item ∈ items, ∀ a', (f item).Produces I a' fun r b => a'.Extends b ∧ Option.Rel (Rel b) r (F item)) :
    (items.filterMapM f).Produces I a fun rs b => a.Extends b ∧ List.Forall₂ (Rel b) rs (items.filterMap F) := by
  induction items generalizing a with
  | nil => exact produces_pure ⟨.refl a, .nil⟩
  | cons item rest ih =>
    have hrest : ∀ a', (rest.filterMapM f).Produces I a' _ := fun a' =>
      ih (a := a') fun item' hmem => hitem item' (List.mem_cons_of_mem _ hmem)
    rw [List.filterMapM_cons]
    apply produces_bind
    apply (hitem item List.mem_cons_self a).mono
    rintro r b ⟨hext, hrel⟩
    rw [List.filterMap_cons]
    generalize F item = t at hrel
    cases hrel with
    | none =>
      apply (hrest b).mono
      rintro rs b' ⟨hext', hrels⟩
      exact ⟨hext.trans hext', hrels⟩
    | some hfirst =>
      apply produces_bind
      apply (hrest b).mono
      rintro rs b' ⟨hext', hrels⟩
      exact produces_pure ⟨hext.trans hext', .cons (hstays _ _ _ _ hext' hfirst) hrels⟩

end Build

open Build

/-! ## Contents -/

variable {w : Type}

/-- From some height on the content is built, whatever is in the arena and in every world with `I`; it comes to a node of
the shape, or to no node if there is no shape. -/
def Hooks.Makes (hooks : Hooks w) (I : w → Prop) (v : Value) (type : ContentType) (depth : Nat) (t : Option Shape) :
    Prop :=
  ∃ least, ∀ height, least ≤ height → ∀ a,
    ((hooks.level height).object v type depth).Produces I a fun r b => a.Extends b ∧ Option.Rel b.Shows r t

end DataBound.View
