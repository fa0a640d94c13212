-- SUMMARY: The walk over a forest visits every node below its roots exactly once, and ways up end at a root.
import DataBound.Proofs.View.Arena
import Mathlib.Data.List.Nodup
import Mathlib.Data.List.Pairwise

/-!
# Walks over forests

The walk with a stack visits the nodes in preorder. Over a forest no bound on the depth cuts it short, as long as the
bound is at least the end of the forest's range; the nodes visited are those that can be reached from the roots, each
once, and each node but the roots is listed by exactly one of them.
-/

namespace DataBound.View

namespace Arena

variable {a : Arena} {linked : Prop} {id lo hi depth : Nat} {ids : List Nat} {kind : Kind}

theorem childIds_eq (h : a.kind? id = some kind) : a.childIds id = kind.childIds := by
  rw [childIds, h]

theorem preorder_succ (h : a.kind? id = some kind) (depth : Nat) :
    a.preorder (depth + 1) id = id :: kind.childIds.flatMap (a.preorder depth) := by
  rw [preorder, h]

theorem walk_none (hkind : a.kind? id = none) (depth : Nat) (rest : List (Nat × NodeId)) :
    a.walk ((depth + 1, id) :: rest) = a.walk rest := by
  rw [walk]
  split
  · rfl
  · rename_i kind hsome
    rw [hkind] at hsome
    cases hsome

theorem walk_cons (hkind : a.kind? id = some kind) (depth : Nat) (rest : List (Nat × NodeId)) :
    a.walk ((depth + 1, id) :: rest) = id :: a.walk (kind.childIds.map (depth, ·) ++ rest) := by
  rw [walk]
  split
  · rename_i hnone
    rw [hnone] at hkind
    cases hkind
  · rename_i kind' hkind'
    obtain rfl := Option.some.inj (hkind.symm.trans hkind')
    rfl

/-- Taking nodes from a stack and putting their children in their place is the walk in preorder. -/
theorem walk_eq (stack : List (Nat × NodeId)) :
    a.walk stack = stack.flatMap fun (depth, id) => a.preorder depth id := by
  induction stack using walk.induct a with
  | case1 => rw [walk, List.flatMap_nil]
  | case2 id rest ih =>
    rw [walk, ih]
    rfl
  | case3 depth id rest hnone ih =>
    have hpreorder : a.preorder (depth + 1) id = [] := by rw [preorder, hnone]
    rw [walk_none hnone, List.flatMap_cons, ih]
    dsimp only
    rw [hpreorder, List.nil_append]
  | case4 depth id rest kind hkind ih =>
    rw [walk_cons hkind, List.flatMap_cons]
    dsimp only
    rw [preorder_succ hkind, ih, List.flatMap_append, List.flatMap_map, List.cons_append]

/-! ## Nodes below a node -/

/-- The nodes that one comes to from a node by going to listed nodes. -/
inductive Reaches (a : Arena) (root : NodeId) : NodeId → Prop
  | refl : Reaches a root root
  | step {m c : NodeId} : Reaches a root m → c ∈ a.childIds m → Reaches a root c

theorem Reaches.of_mem_preorder {root x : NodeId} (hroot : Reaches a root id) (hx : x ∈ a.preorder depth id) :
    Reaches a root x := by
  induction depth generalizing id with
  | zero => cases hx
  | succ depth ih =>
    rw [preorder] at hx
    split at hx
    · cases hx
    · rename_i kind hkind
      rcases List.mem_cons.1 hx with rfl | hx
      · exact hroot
      · obtain ⟨c, hc, hx⟩ := List.mem_flatMap.1 hx
        exact ih (hroot.step (childIds_eq hkind ▸ hc)) hx

/-! ## Preorder of a forest -/

theorem Forest.mem_preorder_bounds (h : Forest linked a lo hi ids) (depth : Nat) :
    ∀ x : Nat, x ∈ ids.flatMap (a.preorder depth) → lo ≤ x ∧ x < hi := by
  induction h generalizing depth with
  | nil hle => exact nofun
  | @cons lo hi id kind rest hkind _ hbelow _ hrest ihbelow ihrest =>
    intro x hx
    have hlo := hbelow.le
    have hhi := hrest.le
    rw [List.flatMap_cons, List.mem_append] at hx
    rcases hx with hx | hx
    · cases depth with
      | zero => cases hx
      | succ depth =>
        rw [preorder_succ hkind, List.mem_cons] at hx
        rcases hx with rfl | hx
        · exact ⟨hlo, hhi⟩
        · obtain ⟨h₁, h₂⟩ := ihbelow depth x hx
          exact ⟨h₁, by omega⟩
    · obtain ⟨h₁, h₂⟩ := ihrest depth x hx
      exact ⟨by omega, h₂⟩

/-- The trees of a forest share no nodes, and none of them lists a node twice. -/
theorem Forest.nodup_preorder (h : Forest linked a lo hi ids) (depth : Nat) :
    (ids.flatMap (a.preorder depth)).Nodup := by
  induction h generalizing depth with
  | nil => exact List.nodup_nil
  | @cons lo hi id kind rest hkind _ hbelow _ hrest ihbelow ihrest =>
    rw [List.flatMap_cons, List.nodup_append]
    have hlast : ∀ x : Nat, x ∈ a.preorder depth id → x ≤ id := by
      intro x hx
      cases depth with
      | zero => cases hx
      | succ depth =>
        rw [preorder_succ hkind, List.mem_cons] at hx
        rcases hx with rfl | hx
        · exact Nat.le_refl _
        · exact Nat.le_of_lt (hbelow.mem_preorder_bounds depth x hx).2
    refine ⟨?_, ihrest depth, ?_⟩
    · cases depth with
      | zero => exact List.nodup_nil
      | succ depth =>
        rw [preorder_succ hkind, List.nodup_cons]
        refine ⟨?_, ihbelow depth⟩
        intro hmem
        exact Nat.lt_irrefl _ (hbelow.mem_preorder_bounds depth id hmem).2
    · intro x hx y hy
      exact Nat.ne_of_lt (Nat.lt_of_le_of_lt (hlast x hx) (hrest.mem_preorder_bounds depth y hy).1)

/-- A deeper walk over a forest visits no more nodes. -/
theorem Forest.preorder_eq (h : Forest linked a lo hi ids) {depth' : Nat} (hdepth : hi ≤ depth)
    (hdepth' : hi ≤ depth') :
    ids.flatMap (a.preorder depth) = ids.flatMap (a.preorder depth') := by
  induction h generalizing depth depth' with
  | nil => rfl
  | @cons lo hi id kind rest hkind _ hbelow _ hrest ihbelow ihrest =>
    have hhi := hrest.le
    obtain ⟨d, rfl⟩ := Nat.exists_eq_add_of_lt (show id < depth by omega)
    obtain ⟨d', rfl⟩ := Nat.exists_eq_add_of_lt (show id < depth' by omega)
    rw [List.flatMap_cons, List.flatMap_cons, ihrest hdepth hdepth', preorder_succ hkind, preorder_succ hkind,
      ihbelow (Nat.le_add_right id d) (Nat.le_add_right id d')]

/-- Every node of a forest but the roots is listed by one of its nodes, once. -/
theorem Forest.preorder_perm (h : Forest linked a lo hi ids) (hdepth : hi ≤ depth) :
    (ids.flatMap (a.preorder depth)).Perm (ids ++ (ids.flatMap (a.preorder depth)).flatMap a.childIds) := by
  induction h generalizing depth with
  | nil => exact .nil
  | @cons lo hi id kind rest hkind _ hbelow _ hrest ihbelow ihrest =>
    have hhi := hrest.le
    obtain ⟨d, rfl⟩ := Nat.exists_eq_add_of_lt (show id < depth by omega)
    have hbelow' := ihbelow (Nat.le_add_right id d)
    have hrest' := ihrest hdepth
    rw [List.flatMap_cons, preorder_succ hkind]
    generalize kind.childIds.flatMap (a.preorder (id + d)) = below at hbelow' ⊢
    generalize rest.flatMap (a.preorder (id + d + 1)) = others at hrest' ⊢
    rw [List.cons_append, List.cons_append, List.flatMap_cons, List.flatMap_append, childIds_eq hkind]
    refine .cons id ((hbelow'.append hrest').trans ?_)
    rw [← List.append_assoc, ← List.append_assoc, ← List.append_assoc]
    exact List.Perm.append_right _ ((List.perm_append_comm).trans (by rw [List.append_assoc]))

theorem Forest.finished_of_mem_preorder (h : Forest linked a lo hi ids) {x : NodeId}
    (hx : x ∈ ids.flatMap (a.preorder depth)) : ∃ kind, a.kind? x = some kind ∧ kind.IsFinished := by
  induction h generalizing depth with
  | nil => cases hx
  | cons hkind hfinished _ _ _ ihbelow ihrest =>
    rw [List.flatMap_cons, List.mem_append] at hx
    rcases hx with hx | hx
    · cases depth with
      | zero => cases hx
      | succ depth =>
        rw [preorder_succ hkind, List.mem_cons] at hx
        rcases hx with rfl | hx
        · exact ⟨_, hkind, hfinished⟩
        · exact ihbelow hx
    · exact ihrest hx

theorem Forest.parent?_of_mem_preorder (h : Forest linked a lo hi ids) (hlinked : linked) {m : NodeId}
    (hm : m ∈ ids.flatMap (a.preorder depth)) : ∀ c ∈ a.childIds m, a.parent? c = some m := by
  induction h generalizing depth with
  | nil => cases hm
  | cons hkind _ _ hlinks _ ihbelow ihrest =>
    rw [List.flatMap_cons, List.mem_append] at hm
    rcases hm with hm | hm
    · cases depth with
      | zero => cases hm
      | succ depth =>
        rw [preorder_succ hkind, List.mem_cons] at hm
        rcases hm with rfl | hm
        · rw [childIds_eq hkind]
          exact hlinks hlinked
        · exact ihbelow hm
    · exact ihrest hm

variable {root : Nat}

theorem Forest.mem_preorder_iff (h : Forest linked a lo hi [root]) (hdepth : hi ≤ depth) {x : NodeId} :
    x ∈ a.preorder depth root ↔ Reaches a root x := by
  constructor
  · exact Reaches.refl.of_mem_preorder
  · intro hx
    have hperm := h.preorder_perm hdepth
    rw [List.flatMap_singleton] at hperm
    induction hx with
    | refl => exact hperm.mem_iff.2 List.mem_cons_self
    | step _ hc ih => exact hperm.mem_iff.2 (List.mem_cons_of_mem _ (List.mem_flatMap.2 ⟨_, ih, hc⟩))

/-! ## Ways up -/

theorem mem_ancestors {P : NodeId → Prop} (hup : ∀ x p, P x → a.parent? x = some p → P p) {steps : Nat} {id : NodeId}
    (hid : P id) : ∀ x ∈ a.ancestors steps id, P x := by
  induction steps generalizing id with
  | zero => exact nofun
  | succ steps ih =>
    rw [ancestors]
    split
    · exact nofun
    · rename_i p hp
      have hparent := hup id p hid hp
      intro x hx
      rcases List.mem_cons.1 hx with rfl | hx
      · exact hparent
      · exact ih hparent x hx

/-- If parents are later nodes, a way up with a step for each later node ends at a node without a parent. -/
theorem parent?_getLast_ancestors (hup : ∀ id p : Nat, a.parent? id = some p → id < p) {steps : Nat} {id : Nat}
    (hsteps : a.size ≤ id + steps) :
    a.parent? ((id :: a.ancestors steps id).getLast (List.cons_ne_nil _ _)) = none := by
  induction steps generalizing id with
  | zero => exact parent?_eq_none_of_size_le hsteps
  | succ steps ih =>
    cases hp : a.parent? id with
    | none =>
      have hnil : a.ancestors (steps + 1) id = [] := by rw [ancestors, hp]
      simp only [hnil, List.getLast_singleton, hp]
    | some p =>
      have hcons : a.ancestors (steps + 1) id = p :: a.ancestors steps p := by rw [ancestors, hp]
      have hlt := hup id p hp
      simp only [hcons]
      rw [List.getLast_cons (List.cons_ne_nil _ _)]
      apply ih
      omega

end Arena

/-! ## Trees -/

/-- A tree of finished nodes: what is listed is earlier, no reachable node is listed twice, and the walk finds exactly
what can be reached, each node once, however deep it may go. -/
structure Tree.WellListed (tree : Tree) : Prop where
  lists_earlier : ∀ id, ∀ c ∈ tree.arena.childIds id, c < id ∧ id < tree.arena.size
  one_lister : ∀ m ∈ tree.reachable, ∀ n ∈ tree.reachable,
    ∀ c, c ∈ tree.arena.childIds m → c ∈ tree.arena.childIds n → m = n
  lists_once : ∀ m ∈ tree.reachable, (tree.arena.childIds m).Nodup
  mem_reachable : ∀ id, id ∈ tree.reachable ↔ Arena.Reaches tree.arena tree.root id
  nodup_reachable : tree.reachable.Nodup
  walk_ends : ∀ depth, tree.depthBound ≤ depth → tree.arena.walk [(depth, tree.root)] = tree.reachable
  finished : ∀ id ∈ tree.reachable, ∃ kind, tree.arena.kind? id = some kind ∧ kind ≠ .empty ∧
    (∀ cases, kind ≠ .switch false cases) ∧ ∀ data body depth, kind ≠ .template data body depth false

/-- Every reachable node but the root has the node that lists it as its parent, parents are later nodes, and ways up
come to their end by themselves, those of reachable nodes at the root. -/
structure Tree.WellLinked (tree : Tree) : Prop where
  root : tree.arena.parent? tree.root = none
  listed : ∀ m ∈ tree.reachable, ∀ c ∈ tree.arena.childIds m, tree.arena.parent? c = some m
  lister : ∀ n ∈ tree.reachable, n ≠ tree.root →
    ∃ m ∈ tree.reachable, n ∈ tree.arena.childIds m ∧ tree.arena.parent? n = some m
  parent_later : ∀ id p, tree.arena.parent? id = some p → id < p ∧ p < tree.arena.size
  ancestors_end : ∀ id, tree.arena.parent? ((id :: tree.ancestors id).getLast (List.cons_ne_nil _ _)) = none
  ancestors_root : ∀ id ∈ tree.reachable, (id :: tree.ancestors id).getLast (List.cons_ne_nil _ _) = tree.root

namespace Tree

variable {tree : Tree} {linked : Prop}

/-- All nodes of the arena list earlier nodes and have later parents, and what is below the root is a forest. -/
structure Grown (linked : Prop) (tree : Tree) : Prop where
  grows : Arena.Grows .empty tree.arena
  forest : Arena.Forest linked tree.arena 0 tree.arena.size [tree.root]
  root : tree.arena.parent? tree.root = none

theorem reachable_eq (tree : Tree) : tree.reachable = [tree.root].flatMap (tree.arena.preorder tree.depthBound) := by
  rw [reachable, Arena.walk_eq, List.flatMap_singleton, List.flatMap_singleton]

theorem size_le_depthBound (tree : Tree) : tree.arena.size ≤ tree.depthBound := Nat.le_succ _

theorem Grown.mem_reachable (h : tree.Grown linked) (id : NodeId) :
    id ∈ tree.reachable ↔ Arena.Reaches tree.arena tree.root id := by
  rw [reachable_eq, List.flatMap_singleton]
  exact h.forest.mem_preorder_iff tree.size_le_depthBound

theorem Grown.reachable_perm (h : tree.Grown linked) :
    tree.reachable.Perm (tree.root :: tree.reachable.flatMap tree.arena.childIds) := by
  rw [reachable_eq]
  exact h.forest.preorder_perm tree.size_le_depthBound

theorem Grown.nodup_reachable (h : tree.Grown linked) : tree.reachable.Nodup := by
  rw [reachable_eq]
  exact h.forest.nodup_preorder _

theorem Grown.nodup_listed (h : tree.Grown linked) : (tree.reachable.flatMap tree.arena.childIds).Nodup :=
  (h.reachable_perm.nodup_iff.1 h.nodup_reachable).of_cons

theorem Grown.wellListed (h : tree.Grown linked) : tree.WellListed where
  lists_earlier id c hc := by
    cases hkind : tree.arena.kind? id with
    | none =>
      rw [Arena.childIds, hkind] at hc
      cases hc
    | some kind =>
      rw [Arena.childIds_eq hkind] at hc
      exact ⟨h.grows.lists id kind (Nat.zero_le _) hkind c hc, Arena.lt_size_of_kind? hkind⟩
  one_lister m hm n hn c hc hc' := by
    refine Decidable.byContradiction fun hne => ?_
    have : Std.Symm (Function.onFun List.Disjoint tree.arena.childIds) := ⟨fun _ _ h _ hx hx' => h hx' hx⟩
    have hdisjoint := (List.nodup_flatMap.1 h.nodup_listed).2.forall hm hn hne
    exact hdisjoint hc hc'
  lists_once := (List.nodup_flatMap.1 h.nodup_listed).1
  mem_reachable := h.mem_reachable
  nodup_reachable := h.nodup_reachable
  walk_ends depth hdepth := by
    have hbound := tree.size_le_depthBound
    rw [reachable_eq, Arena.walk_eq, List.flatMap_singleton,
      h.forest.preorder_eq hbound (Nat.le_trans hbound hdepth), List.flatMap_singleton]
  finished id hid := by
    rw [reachable_eq] at hid
    obtain ⟨kind, hkind, hfinished⟩ := h.forest.finished_of_mem_preorder hid
    refine ⟨kind, hkind, ?_, ?_, ?_⟩
    · rintro rfl
      exact hfinished
    · rintro cases rfl
      cases hfinished
    · rintro data body depth rfl
      cases hfinished

theorem Grown.wellLinked (h : tree.Grown True) : tree.WellLinked := by
  have hup : ∀ id p, tree.arena.parent? id = some p → id < p ∧ p < tree.arena.size :=
    fun id p => h.grows.links id p (Nat.zero_le _)
  have hlisted : ∀ m ∈ tree.reachable, ∀ c ∈ tree.arena.childIds m, tree.arena.parent? c = some m := by
    intro m hm
    rw [reachable_eq] at hm
    exact h.forest.parent?_of_mem_preorder trivial hm
  have hlister : ∀ n ∈ tree.reachable, n ≠ tree.root →
      ∃ m ∈ tree.reachable, n ∈ tree.arena.childIds m ∧ tree.arena.parent? n = some m := by
    intro n hn hne
    have hcons := h.reachable_perm.mem_iff.1 hn
    obtain ⟨m, hm, hc⟩ := List.mem_flatMap.1 ((List.mem_cons.1 hcons).resolve_left hne)
    exact ⟨m, hm, hc, hlisted m hm n hc⟩
  have hend : ∀ id : Nat, tree.arena.parent? ((id :: tree.ancestors id).getLast (List.cons_ne_nil _ _)) = none := by
    intro id
    apply Arena.parent?_getLast_ancestors fun id p hp => (hup id p hp).1
    exact Nat.le_trans tree.size_le_depthBound (Nat.le_add_left _ _)
  refine ⟨h.root, hlisted, hlister, hup, hend, ?_⟩
  intro id hid
  -- the last node on the way up is reachable as well, and only the root has no parent
  have hreachable : ∀ x ∈ id :: tree.ancestors id, x ∈ tree.reachable := by
    have hparent : ∀ x p, x ∈ tree.reachable → tree.arena.parent? x = some p → p ∈ tree.reachable := by
      intro x p hx hp
      have hne : x ≠ tree.root := by
        rintro rfl
        rw [h.root] at hp
        cases hp
      obtain ⟨m, hm, -, hm'⟩ := hlister x hx hne
      rw [hp, Option.some.injEq] at hm'
      exact hm' ▸ hm
    intro x hx
    rcases List.mem_cons.1 hx with rfl | hx
    · exact hid
    · exact Arena.mem_ancestors hparent hid x hx
  refine Decidable.byContradiction fun hne => ?_
  obtain ⟨m, -, -, hm⟩ := hlister _ (hreachable _ (List.getLast_mem _)) hne
  rw [hend id] at hm
  cases hm

end Tree

end DataBound.View
