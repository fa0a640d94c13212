-- SUMMARY: What allocating and adopting do to an arena, arenas that grow, and forests in them.
import DataBound.View.Arena

/-!
# Growing arenas and forests

Building only adds nodes to an arena and links the nodes that it added. A `Forest` is a list of nodes whose trees stand
one after the other in a range of numbers, each node after everything below it. So no tree shares a node with another
one, and what is added behind the range leaves the forest as it is.
-/

namespace DataBound.View

/-- Is the node kind one that stays? Empty nodes stand for content that is left out; static switches and templates
are replaced as soon as they are made. -/
def Kind.IsFinished : Kind → Prop
  | .empty => False
  | .switch dynamic _ => dynamic = true
  | .template _ _ _ dynamic => dynamic = true
  | _ => True

namespace Arena

variable {a a' b : Arena} {id c p lo hi : Nat} {kind : Kind} {ids : List Nat}

/-! ## Allocating and adopting -/

theorem lt_size_of_get? {node : Node} (h : a.get? id = some node) : id < a.size :=
  (Array.getElem?_eq_some_iff.1 h).1

theorem lt_size_of_kind? (h : a.kind? id = some kind) : id < a.size := by
  obtain ⟨node, hnode, -⟩ := Option.map_eq_some_iff.1 h
  exact lt_size_of_get? hnode

theorem lt_size_of_parent? (h : a.parent? id = some p) : id < a.size := by
  obtain ⟨node, hnode, -⟩ := Option.bind_eq_some_iff.1 h
  exact lt_size_of_get? hnode

theorem parent?_eq_none_of_size_le (h : a.size ≤ id) : a.parent? id = none := by
  rw [parent?, get?, Array.getElem?_eq_none h, Option.bind_none]

@[simp] theorem alloc_fst (kind : Kind) (a : Arena) : (a.alloc kind).1 = a.size := rfl

@[simp] theorem size_alloc (kind : Kind) (a : Arena) : (a.alloc kind).2.size = a.size + 1 := Array.size_push _

theorem get?_alloc (kind : Kind) (a : Arena) (id : NodeId) :
    (a.alloc kind).2.get? id = if id = a.size then some ⟨kind, none⟩ else a.get? id := Array.getElem?_push

theorem get?_alloc_of_lt (h : id < a.size) : (a.alloc kind).2.get? id = a.get? id := by
  rw [get?_alloc, if_neg (Nat.ne_of_lt h)]

@[simp] theorem kind?_alloc_self (kind : Kind) (a : Arena) : (a.alloc kind).2.kind? a.size = some kind := by
  rw [kind?, get?_alloc, if_pos rfl, Option.map_some]

@[simp] theorem parent?_alloc_self (kind : Kind) (a : Arena) : (a.alloc kind).2.parent? a.size = none := by
  rw [parent?, get?_alloc, if_pos rfl, Option.bind_some]

theorem get?_setParent (child parent : NodeId) (a : Arena) (id : NodeId) :
    (a.setParent child parent).get? id =
      if child = id then (a.get? id).map fun node => { node with parent := some parent } else a.get? id :=
  Array.getElem?_modify

@[simp] theorem size_adopt (parent : NodeId) (children : List NodeId) (a : Arena) :
    (a.adopt parent children).size = a.size := by
  induction children generalizing a with
  | nil => rfl
  | cons child rest ih =>
    rw [adopt, List.foldl_cons]
    exact (ih _).trans Array.size_modify

/-- Adopting changes nothing but the parents of the adopted. -/
theorem get?_adopt (parent : NodeId) (children : List NodeId) (a : Arena) (id : NodeId) :
    (a.adopt parent children).get? id =
      if id ∈ children then (a.get? id).map fun node => { node with parent := some parent } else a.get? id := by
  induction children generalizing a with
  | nil => rfl
  | cons child rest ih =>
    have hrest := ih (a.setParent child parent)
    rw [adopt, List.foldl_cons]
    refine hrest.trans ?_
    rw [get?_setParent]
    by_cases hchild : child = id
    · subst hchild
      simp only [if_true, List.mem_cons, true_or, Option.map_map]
      split <;> rfl
    · simp only [if_neg hchild, List.mem_cons, Ne.symm hchild, false_or]

@[simp] theorem kind?_adopt (parent : NodeId) (children : List NodeId) (a : Arena) (id : NodeId) :
    (a.adopt parent children).kind? id = a.kind? id := by
  rw [kind?, get?_adopt]
  split
  · rw [Option.map_map]
    rfl
  · rfl

theorem parent?_adopt_of_not_mem (h : id ∉ ids) : (a.adopt p ids).parent? id = a.parent? id := by
  rw [parent?, get?_adopt, if_neg h, parent?]

theorem parent?_adopt_of_mem (h : id ∈ ids) (hid : id < a.size) : (a.adopt p ids).parent? id = some p := by
  rw [parent?, get?_adopt, if_pos h]
  obtain ⟨node, hnode⟩ : ∃ node, a.get? id = some node := ⟨_, Array.getElem?_eq_getElem hid⟩
  rw [hnode]
  rfl

/-! ## Growth -/

/-- The old nodes are as before; the new ones list earlier nodes only and have later ones as parents. -/
structure Grows (a a' : Arena) : Prop where
  size_le : a.size ≤ a'.size
  old : ∀ id, id < a.size → a'.get? id = a.get? id
  lists : ∀ id kind, a.size ≤ id → a'.kind? id = some kind → ∀ c ∈ kind.childIds, c < id
  links : ∀ id p, a.size ≤ id → a'.parent? id = some p → id < p ∧ p < a'.size

theorem Grows.refl (a : Arena) : Grows a a where
  size_le := Nat.le_refl _
  old _ _ := rfl
  lists _ _ hid hkind := absurd (lt_size_of_kind? hkind) (Nat.not_lt.2 hid)
  links _ _ hid hp := absurd (lt_size_of_parent? hp) (Nat.not_lt.2 hid)

theorem Grows.kind?_eq (h : Grows a a') (hid : id < a.size) : a'.kind? id = a.kind? id := by
  rw [kind?, h.old id hid, kind?]

theorem Grows.parent?_eq (h : Grows a a') (hid : id < a.size) : a'.parent? id = a.parent? id := by
  rw [parent?, h.old id hid, parent?]

theorem Grows.trans (h : Grows a b) (h' : Grows b a') : Grows a a' where
  size_le := Nat.le_trans h.size_le h'.size_le
  old id hid := (h'.old id (Nat.lt_of_lt_of_le hid h.size_le)).trans (h.old id hid)
  lists id kind hid hkind := by
    by_cases hb : id < b.size
    · exact h.lists id kind hid (h'.kind?_eq hb ▸ hkind)
    · exact h'.lists id kind (Nat.not_lt.1 hb) hkind
  links id p hid hp := by
    by_cases hb : id < b.size
    · obtain ⟨hlt, hsize⟩ := h.links id p hid (h'.parent?_eq hb ▸ hp)
      exact ⟨hlt, Nat.lt_of_lt_of_le hsize h'.size_le⟩
    · exact h'.links id p (Nat.not_lt.1 hb) hp

theorem Grows.alloc (hkind : ∀ c ∈ kind.childIds, c < a.size) : Grows a (a.alloc kind).2 where
  size_le := by simp
  old _ hid := get?_alloc_of_lt hid
  lists id k hid hk := by
    have hlt := lt_size_of_kind? hk
    rw [size_alloc] at hlt
    obtain rfl : id = a.size := Nat.le_antisymm (Nat.le_of_lt_succ hlt) hid
    rw [kind?_alloc_self, Option.some.injEq] at hk
    exact hk ▸ hkind
  links id p hid hp := by
    have hlt := lt_size_of_parent? hp
    rw [size_alloc] at hlt
    obtain rfl : id = a.size := Nat.le_antisymm (Nat.le_of_lt_succ hlt) hid
    rw [parent?_alloc_self] at hp
    cases hp

/-- New nodes can be adopted by later ones. -/
theorem Grows.adopt (h : Grows a b) (hp : p < b.size) (hids : ∀ c ∈ ids, a.size ≤ c ∧ c < p) :
    Grows a (b.adopt p ids) where
  size_le := by
    rw [size_adopt]
    exact h.size_le
  old id hid := by
    have hnot : id ∉ ids := fun hmem => absurd hid (Nat.not_lt.2 (hids id hmem).1)
    rw [get?_adopt, if_neg hnot]
    exact h.old id hid
  lists id kind hid hkind := by
    rw [kind?_adopt] at hkind
    exact h.lists id kind hid hkind
  links id q hid hq := by
    rw [size_adopt]
    by_cases hmem : id ∈ ids
    · obtain ⟨-, hlt⟩ := hids id hmem
      rw [parent?_adopt_of_mem hmem (Nat.lt_trans hlt hp), Option.some.injEq] at hq
      exact ⟨hq ▸ hlt, hq ▸ hp⟩
    · rw [parent?_adopt_of_not_mem hmem] at hq
      exact h.links id q hid hq

/-! ## Forests -/

/-- The trees of the nodes stand one after the other in the range from `lo` to `hi`, with finished nodes only. If
`linked` holds, every listed node has the node that lists it as its parent. -/
inductive Forest (linked : Prop) (a : Arena) : Nat → Nat → List NodeId → Prop
  | nil {lo hi : Nat} : lo ≤ hi → Forest linked a lo hi []
  | cons {lo hi id : Nat} {kind : Kind} {rest : List NodeId} :
      a.kind? id = some kind → kind.IsFinished → Forest linked a lo id kind.childIds →
      (linked → ∀ c ∈ kind.childIds, a.parent? c = some id) → Forest linked a (id + 1) hi rest →
      Forest linked a lo hi (id :: rest)

variable {linked : Prop}

theorem Forest.le (h : Forest linked a lo hi ids) : lo ≤ hi := by
  induction h with
  | nil hle => exact hle
  | cons _ _ _ _ _ ihbelow ihrest => omega

theorem Forest.bounds (h : Forest linked a lo hi ids) : ∀ id ∈ ids, lo ≤ id ∧ id < hi := by
  induction h with
  | nil hle => exact nofun
  | cons _ _ hbelow _ hrest _ ihrest =>
    intro id hid
    have hle := hbelow.le
    rcases List.mem_cons.1 hid with rfl | hid
    · exact ⟨hle, hrest.le⟩
    · obtain ⟨hlo, hhi⟩ := ihrest id hid
      exact ⟨by omega, hhi⟩

theorem Forest.widen (h : Forest linked a lo hi ids) {lo' hi' : Nat} (hlo : lo' ≤ lo) (hhi : hi ≤ hi') :
    Forest linked a lo' hi' ids := by
  induction h generalizing lo' hi' with
  | nil hle => exact .nil (by omega)
  | cons hkind hfinished _ hlinks _ ihbelow ihrest =>
    exact .cons hkind hfinished (ihbelow hlo (Nat.le_refl _)) hlinks (ihrest (Nat.le_refl _) hhi)

theorem Forest.append {mid : Nat} {more : List NodeId} (h : Forest linked a lo mid ids)
    (hmore : Forest linked a mid hi more) : Forest linked a lo hi (ids ++ more) := by
  induction h with
  | nil hle => exact hmore.widen hle (Nat.le_refl _)
  | cons hkind hfinished hbelow hlinks _ _ ihrest => exact .cons hkind hfinished hbelow hlinks (ihrest hmore)

/-- A forest stays one while the nodes in its range keep their kinds and all but the roots their parents. -/
theorem Forest.congr (h : Forest linked a lo hi ids) (hkinds : ∀ id, lo ≤ id → id < hi → a'.kind? id = a.kind? id)
    (hparents : ∀ id, lo ≤ id → id < hi → id ∉ ids → a'.parent? id = a.parent? id) :
    Forest linked a' lo hi ids := by
  induction h with
  | nil hle => exact .nil hle
  | @cons lo hi id kind rest hkind hfinished hbelow hlinks hrest ihbelow ihrest =>
    have hlo := hbelow.le
    have hhi := hrest.le
    have hnot : ∀ c, c < id → c ∉ id :: rest := by
      intro c hc hmem
      rcases List.mem_cons.1 hmem with rfl | hmem
      · exact Nat.lt_irrefl _ hc
      · have := (hrest.bounds c hmem).1
        omega
    refine .cons ((hkinds id hlo hhi).trans hkind) hfinished ?_ ?_ ?_
    · apply ihbelow
      · intro c hc hlt
        exact hkinds c hc (by omega)
      · intro c hc hlt _
        exact hparents c hc (by omega) (hnot c hlt)
    · intro hlinked c hc
      obtain ⟨hc₁, hc₂⟩ := hbelow.bounds c hc
      rw [hparents c hc₁ (by omega) (hnot c hc₂)]
      exact hlinks hlinked c hc
    · apply ihrest
      · intro c hc hlt
        exact hkinds c (by omega) hlt
      · intro c hc hlt hnotmem
        refine hparents c (by omega) hlt ?_
        intro hmem
        rcases List.mem_cons.1 hmem with rfl | hmem
        · omega
        · exact hnotmem hmem

theorem Forest.grows (h : Forest linked a lo hi ids) (hgrows : Grows a a') (hhi : hi ≤ a.size) :
    Forest linked a' lo hi ids := by
  apply h.congr
  · intro id _ hid
    exact hgrows.kind?_eq (by omega)
  · intro id _ hid _
    exact hgrows.parent?_eq (by omega)

/-- The roots of a forest can be adopted. -/
theorem Forest.adopt (h : Forest linked a lo hi ids) (p : NodeId) : Forest linked (a.adopt p ids) lo hi ids := by
  apply h.congr
  · intro id _ _
    exact kind?_adopt p ids a id
  · intro id _ _ hnot
    exact parent?_adopt_of_not_mem hnot

/-- One of the roots of a forest and the tree below it. -/
theorem Forest.of_mem (h : Forest linked a lo hi ids) (hid : id ∈ ids) : Forest linked a lo hi [id] := by
  induction h with
  | nil => cases hid
  | @cons lo hi root kind rest hkind hfinished hbelow hlinks hrest _ ihrest =>
    rcases List.mem_cons.1 hid with rfl | hid
    · exact .cons hkind hfinished hbelow hlinks (.nil hrest.le)
    · have := hbelow.le
      exact (ihrest hid).widen (by omega) (Nat.le_refl _)

theorem Forest.kind?_of_mem (h : Forest linked a lo hi ids) (hid : id ∈ ids) :
    ∃ kind, a.kind? id = some kind ∧ kind.IsFinished := by
  cases h.of_mem hid with
  | cons hkind hfinished _ _ _ => exact ⟨_, hkind, hfinished⟩

/-! ## Added trees -/

/-- The arena grows, and in the range of the new nodes stand the trees of `ids`, whose roots nobody has adopted. -/
structure Adds (linked : Prop) (a : Arena) (ids : List Nat) (a' : Arena) : Prop where
  grows : Grows a a'
  forest : Forest linked a' a.size a'.size ids
  parents : ∀ id ∈ ids, a'.parent? id = none

theorem Grows.adds (h : Grows a a') : a.Adds linked [] a' where
  grows := h
  forest := .nil h.size_le
  parents := nofun

theorem Adds.append {more : List Nat} (h : a.Adds linked ids b) (hmore : b.Adds linked more a') :
    a.Adds linked (ids ++ more) a' where
  grows := h.grows.trans hmore.grows
  forest := (h.forest.grows hmore.grows (Nat.le_refl _)).append hmore.forest
  parents id hid := by
    rcases List.mem_append.1 hid with hid | hid
    · rw [hmore.grows.parent?_eq (h.forest.bounds id hid).2]
      exact h.parents id hid
    · exact hmore.parents id hid

theorem Adds.of_grows (h : Grows a b) (h' : b.Adds linked ids a') : a.Adds linked ids a' := h.adds.append h'

/-- A finished node without a parent that adopts the nodes which it lists is one tree with them. -/
theorem adds_adopt (hgrows : Grows a b) (hkind : b.kind? p = some kind) (hfinished : kind.IsFinished)
    (hbelow : Forest linked b lo p kind.childIds) (hlo : a.size ≤ lo) (hparent : b.parent? p = none) :
    a.Adds linked [p] (b.adopt p kind.childIds) := by
  have hp : p < b.size := lt_size_of_kind? hkind
  have hbounds := hbelow.bounds
  have hle := hbelow.le
  refine ⟨?_, ?_, ?_⟩
  · apply hgrows.adopt hp
    intro c hc
    obtain ⟨hc₁, hc₂⟩ := hbounds c hc
    exact ⟨by omega, hc₂⟩
  · refine .cons ((kind?_adopt ..).trans hkind) hfinished ((hbelow.adopt p).widen hlo (Nat.le_refl _)) ?_ (.nil ?_)
    · intro _ c hc
      have := (hbounds c hc).2
      exact parent?_adopt_of_mem hc (by omega)
    · rw [size_adopt]
      exact hp
  · intro id hid
    obtain rfl := List.mem_singleton.1 hid
    have hnot : id ∉ kind.childIds := fun hmem => Nat.lt_irrefl _ (hbounds id hmem).2
    rw [parent?_adopt_of_not_mem hnot]
    exact hparent

/-- A new node that adopts the nodes which it lists is one tree with them. -/
theorem adds_alloc_adopt (hgrows : Grows a b) (hfinished : kind.IsFinished)
    (hbelow : Forest linked b lo b.size kind.childIds) (hlo : a.size ≤ lo) :
    a.Adds linked [b.size] ((b.alloc kind).2.adopt b.size kind.childIds) := by
  have halloc : Grows b (b.alloc kind).2 := .alloc fun c hc => (hbelow.bounds c hc).2
  exact adds_adopt (hgrows.trans halloc) (kind?_alloc_self _ _) hfinished (hbelow.grows halloc (Nat.le_refl _)) hlo
    (parent?_alloc_self _ _)

/-- A new node is one tree with the nodes which it lists, if no links are asked for or it lists none. -/
theorem adds_alloc (hgrows : Grows a b) (hfinished : kind.IsFinished)
    (hbelow : Forest linked b lo b.size kind.childIds) (hlo : a.size ≤ lo) (hlinks : linked → kind.childIds = []) :
    a.Adds linked [b.size] (b.alloc kind).2 := by
  have halloc : Grows b (b.alloc kind).2 := .alloc fun c hc => (hbelow.bounds c hc).2
  refine ⟨hgrows.trans halloc, ?_, ?_⟩
  · refine .cons (kind?_alloc_self _ _) hfinished ((hbelow.grows halloc (Nat.le_refl _)).widen hlo (Nat.le_refl _)) ?_
      (.nil ?_)
    · intro hlinked c hc
      rw [hlinks hlinked] at hc
      cases hc
    · exact Nat.le_of_eq (size_alloc kind b).symm
  · intro id hid
    obtain rfl := List.mem_singleton.1 hid
    exact parent?_alloc_self _ _

theorem Adds.kind? (h : a.Adds linked [id] a') : ∃ kind, a'.kind? id = some kind ∧ kind.IsFinished :=
  h.forest.kind?_of_mem List.mem_cons_self

theorem Adds.of_mem (h : a.Adds linked ids a') (hid : id ∈ ids) : a.Adds linked [id] a' where
  grows := h.grows
  forest := h.forest.of_mem hid
  parents x hx := by
    obtain rfl := List.mem_singleton.1 hx
    exact h.parents x hid

/-- A node made in between, which is dropped for one that stands already, changes nothing. -/
theorem Adds.of_mem_alloc (h : a.Adds linked ids b) (hid : id ∈ ids) (hkind : ∀ c ∈ kind.childIds, c < b.size) :
    a.Adds linked [id] (b.alloc kind).2 := by
  have hadds := (h.of_mem hid).append (Grows.alloc hkind).adds
  rwa [List.append_nil] at hadds

/-- Adopting again what a node lists leaves its tree a tree. -/
theorem Adds.adopt (h : a.Adds linked [p] a') (hkind : a'.kind? p = some kind) :
    a.Adds linked [p] (a'.adopt p kind.childIds) := by
  cases h.forest with
  | cons hkind' hfinished hbelow _ _ =>
    obtain rfl := Option.some.inj (hkind'.symm.trans hkind)
    exact adds_adopt h.grows hkind hfinished hbelow (Nat.le_refl _) (h.parents p List.mem_cons_self)

end Arena

end DataBound.View
