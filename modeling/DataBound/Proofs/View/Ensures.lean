-- SUMMARY: A program logic for building: what a step makes sure of about its result and the arena after it.
import DataBound.View.Builder

/-!
# What building ensures

`x.Ensures I a Q` says that the step `x`, started with the arena `a` in a world with `I`, can only end with a result and
an arena that satisfy `Q`, in a world with `I` again. A step that does not end ensures everything. There is one rule for
each primitive step, for sequencing, and for the ways to repeat a step over a list; a rule for a loop asks for what
holds before and after each round.
-/

namespace DataBound.View.Build

variable {w α β γ : Type}

/-- Started with the arena in a world with `I`, the step can only end with `Q` and in a world with `I`. -/
def Ensures (I : w → Prop) (x : Build w α) (a : Arena) (Q : α → Arena → Prop) : Prop :=
  ∀ world r s, I world → x ⟨a, world⟩ = some (r, s) → I s.world ∧ Q r s.arena

variable {I : w → Prop} {a : Arena} {x : Build w α}

theorem Ensures.mono {P Q : α → Arena → Prop} (h : x.Ensures I a P) (hPQ : ∀ r a', P r a' → Q r a') :
    x.Ensures I a Q := by
  intro world r s hworld hx
  obtain ⟨hI, hP⟩ := h world r s hworld hx
  exact ⟨hI, hPQ r _ hP⟩

section

variable {Q : α → Arena → Prop}

theorem ensures_none : Ensures (α := α) I (fun _ => none) a Q := nofun

theorem ensures_pure {r : α} (h : Q r a) : Ensures I (pure r) a Q := by
  rintro world _ _ hworld ⟨⟩
  exact ⟨hworld, h⟩

theorem ensures_bind {f : β → Build w α} {y : Build w β} (h : y.Ensures I a fun r a' => (f r).Ensures I a' Q) :
    (y >>= f).Ensures I a Q := by
  intro world r s hworld hx
  obtain ⟨⟨b, s₁⟩, hy, hf⟩ := Option.bind_eq_some_iff.1 hx
  obtain ⟨hI, hrest⟩ := h world b s₁ hworld hy
  exact hrest s₁.world r s hI hf

theorem ensures_onWorld {run : Run w α}
    (h : ∀ world r world', I world → run world = some (r, world') → I world' ∧ Q r a) :
    (onWorld run).Ensures I a Q := by
  intro world r s hworld hx
  obtain ⟨⟨b, world'⟩, hrun, hs⟩ := Option.bind_eq_some_iff.1 hx
  cases hs
  exact h world r world' hworld hrun

end

theorem ensures_alloc {kind : Kind} {Q : NodeId → Arena → Prop} (h : Q a.size (a.alloc kind).2) :
    (alloc kind).Ensures I a Q := by
  rintro world _ _ hworld ⟨⟩
  exact ⟨hworld, h⟩

theorem ensures_kind? {id : NodeId} {Q : Option Kind → Arena → Prop} (h : Q (a.kind? id) a) :
    (kind? id).Ensures I a Q := by
  rintro world _ _ hworld ⟨⟩
  exact ⟨hworld, h⟩

theorem ensures_adopt {parent : NodeId} {children : List NodeId} {Q : Unit → Arena → Prop}
    (h : Q () (a.adopt parent children)) : (adopt parent children).Ensures I a Q := by
  rintro world _ _ hworld ⟨⟩
  exact ⟨hworld, h⟩

theorem kind?_bind_eq (id : NodeId) (f : Option Kind → Build w β) (a : Arena) (world : w) :
    (kind? id >>= f) ⟨a, world⟩ = f (a.kind? id) ⟨a, world⟩ := rfl

/-- A step that changes nothing. -/
theorem ensures_of_eq {r : α} (h : ∀ world, x ⟨a, world⟩ = some (r, ⟨a, world⟩)) :
    x.Ensures I a fun r' a' => r' = r ∧ a' = a := by
  intro world r' s hworld hx
  rw [h world] at hx
  cases hx
  exact ⟨hworld, rfl, rfl⟩

/-! ## Repetition -/

/-- Rounds that change nothing. -/
theorem foldlM_eq_of_eq {f : β → γ → Build w β} {items : List γ} {b : β} {s : Stage w}
    (h : ∀ item ∈ items, f b item s = some (b, s)) : items.foldlM f b s = some (b, s) := by
  induction items with
  | nil => rfl
  | cons item rest ih =>
    obtain ⟨hitem, hrest⟩ := List.forall_mem_cons.1 h
    rw [List.foldlM_cons]
    exact Option.bind_eq_some_iff.2 ⟨(b, s), hitem, ih hrest⟩

/-- What holds before the first round and survives every round holds after the last one. -/
theorem ensures_foldlM (Inv : β → Arena → Prop) {f : β → γ → Build w β} {items : List γ} {start : β}
    (hstart : Inv start a) (hround : ∀ item ∈ items, ∀ b a', Inv b a' → (f b item).Ensures I a' Inv) :
    (items.foldlM f start).Ensures I a Inv := by
  induction items generalizing start a with
  | nil => exact ensures_pure hstart
  | cons item rest ih =>
    rw [List.foldlM_cons]
    apply ensures_bind
    apply (hround item List.mem_cons_self start a hstart).mono
    intro b a' hb
    exact ih hb fun item' hmem => hround item' (List.mem_cons_of_mem _ hmem)

/-- A round that does its part whenever it comes is not undone by the other rounds. -/
theorem ensures_foldlM_of_mem (Todo : β → Arena → Prop) {Done : β → Arena → Prop} {f : β → γ → Build w β}
    {items : List γ} {start : β} (key : γ) (hkey : key ∈ items) (hstart : Todo start a)
    (htodo : ∀ item ∈ items, ∀ b a', Todo b a' → (f b item).Ensures I a' fun b' a'' => Todo b' a'' ∨ Done b' a'')
    (hdo : ∀ b a', Todo b a' → (f b key).Ensures I a' Done)
    (hdone : ∀ item ∈ items, ∀ b a', Done b a' → (f b item).Ensures I a' Done) :
    (items.foldlM f start).Ensures I a Done := by
  induction items generalizing start a with
  | nil => cases hkey
  | cons item rest ih =>
    have hdone' := fun item' hmem => hdone item' (List.mem_cons_of_mem _ hmem)
    rw [List.foldlM_cons]
    apply ensures_bind
    rcases List.mem_cons.1 hkey with rfl | hkey
    · apply (hdo start a hstart).mono
      intro b a' hb
      exact ensures_foldlM Done hb hdone'
    · apply (htodo item List.mem_cons_self start a hstart).mono
      rintro b a' (hb | hb)
      · exact ih hkey hb (fun item' hmem => htodo item' (List.mem_cons_of_mem _ hmem)) hdone'
      · exact ensures_foldlM Done hb hdone'

/-- `Inv` is about the results collected so far. -/
theorem ensures_filterMapM (Inv : List β → Arena → Prop) {f : γ → Build w (Option β)} {items : List γ}
    (hstart : Inv [] a)
    (hround : ∀ item ∈ items, ∀ found a', Inv found a' →
      (f item).Ensures I a' fun r a'' => Inv (found ++ r.toList) a'') :
    (items.filterMapM f).Ensures I a Inv := by
  suffices hfound : ∀ found, Inv found a →
      (items.filterMapM f).Ensures I a fun more a' => Inv (found ++ more) a' from hfound [] hstart
  clear hstart
  induction items generalizing a with
  | nil =>
    intro found hstart
    rw [List.filterMapM_nil]
    apply ensures_pure
    rwa [List.append_nil]
  | cons item rest ih =>
    intro found hstart
    rw [List.filterMapM_cons]
    apply ensures_bind
    apply (hround item List.mem_cons_self found a hstart).mono
    intro r a' hr
    have hrest := ih (fun item' hmem => hround item' (List.mem_cons_of_mem _ hmem)) _ hr
    cases r with
    | none =>
      simpa only [Option.toList_none, List.append_nil] using hrest
    | some b =>
      apply ensures_bind
      apply hrest.mono
      intro more a'' hmore
      apply ensures_pure
      rwa [Option.toList_some, List.append_assoc, List.singleton_append] at hmore

/-- Handlers are asked until one of them answers; `Inv` holds as long as none has. -/
theorem ensures_firstAnswer (Inv : Arena → Prop) {Q : Option β → Arena → Prop} {ask : γ → Build w (Option β)}
    {taps : List (Tap γ)} (hstart : Inv a)
    (hask : ∀ tap ∈ taps, ∀ a', Inv a' →
      (ask tap.handler).Ensures I a' fun r a'' => match r with
        | none => Inv a''
        | some b => Q (some b) a'')
    (hnone : ∀ a', Inv a' → Q none a') : (Hook.firstAnswer ask taps).Ensures I a Q := by
  induction taps generalizing a with
  | nil => exact ensures_pure (hnone a hstart)
  | cons tap rest ih =>
    rw [Hook.firstAnswer]
    apply ensures_bind
    apply (hask tap List.mem_cons_self a hstart).mono
    intro r a' hr
    cases r with
    | none => exact ih hr fun tap' hmem => hask tap' (List.mem_cons_of_mem _ hmem)
    | some b => exact ensures_pure hr

end DataBound.View.Build
