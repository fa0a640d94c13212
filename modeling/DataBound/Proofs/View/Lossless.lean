-- SUMMARY: A builder without handlers loses no part of its content and finds a place for each part once.
import DataBound.Proofs.View.Rebuild
import DataBound.Proofs.Value

/-!
# Lossless building

Without handlers, content is only spread out: primitives go into literal values, arrays become multi-nodes, assets nodes
of their own. What a level of the builder gathers from a value are the parts of the value: literals and nodes that hold
what belongs at their paths. So the node that is made of them holds the value.
-/

namespace DataBound

namespace View

open Value Arena

theorem nesting_lt_of_mem_entries {v : Value} {entry : Segment × Value} (h : entry ∈ entries v) :
    entry.2.nesting < v.nesting := by
  cases v with
  | object fields =>
    obtain ⟨field, hfield, rfl⟩ := List.mem_map.1 h
    exact Nat.lt_succ_of_le (nesting_le_fieldsNesting hfield)
  | array items =>
    obtain ⟨i, hget, -⟩ := mem_entries_array.1 h
    exact Nat.lt_succ_of_le (nesting_le_itemsNesting (List.mem_of_getElem? hget))
  | _ => cases h

variable {w : Type}

/-! ## Steps -/

/-- A step that ends goes on with its result. -/
theorem Build.bind_eq {α β : Type} {x : Build w α} {f : α → Build w β} {s s' : Stage w} {r : α}
    (h : x s = some (r, s')) : (x >>= f) s = f r s' := by
  change (x s).bind _ = _
  rw [h]
  rfl

/-- Only nodes have been added since. -/
structure Stage.Extends (s s' : Stage w) : Prop where
  arena : s.arena.Extends s'.arena
  world : s'.world = s.world

variable {s s' s'' : Stage w}

theorem Stage.Extends.refl (s : Stage w) : s.Extends s := ⟨.refl _, rfl⟩

theorem Stage.Extends.trans (h : s.Extends s') (h' : s'.Extends s'') : s.Extends s'' :=
  ⟨h.arena.trans h'.arena, h'.world.trans h.world⟩

/-! ## Gathering -/

/-- More literals and nodes gathered, at paths under a path. -/
def Gathered.add (g : Gathered) (path : DataPath) (literals : List (DataPath × Value))
    (nodes : List (DataPath × NodeId)) : Gathered :=
  ⟨collected g.value (under path literals), g.children ++ childrenAt (under path nodes)⟩

theorem Gathered.add_add (g : Gathered) (path : DataPath) (literals more : List (DataPath × Value))
    (nodes others : List (DataPath × NodeId)) :
    (g.add path literals nodes).add path more others = g.add path (literals ++ more) (nodes ++ others) := by
  simp [add, childrenAt, collected_append]

theorem Gathered.add_under (g : Gathered) (path : DataPath) (s : Segment) (literals : List (DataPath × Value))
    (nodes : List (DataPath × NodeId)) :
    g.add path (under [s] literals) (under [s] nodes) = g.add (path ++ [s]) literals nodes := by
  simp [add, under_under]

@[simp] theorem Gathered.add_nil (g : Gathered) (path : DataPath) : g.add path [] [] = g := by
  simp [add, childrenAt, under, collected]

theorem Gathered.push_eq (g : Gathered) (path : DataPath) (node : NodeId) :
    g.push path node = g.add path [] [([], node)] := by
  simp [push, add, childrenAt, under, collected]

theorem Gathered.place_eq (g : Gathered) (path : DataPath) (v : Value) :
    g.place path v = g.add path [([], v)] [] := by
  simp [place, add, childrenAt, under, collected]

/-- The step takes the value apart: it adds literals and nodes at the path that are the parts of the value. -/
def Spreads (x : Build w Gathered) (s : Stage w) (g : Gathered) (path : DataPath) (v : Value) : Prop :=
  ∃ literals nodes s', x s = some (g.add path literals nodes, s') ∧ s.Extends s' ∧
    Splits (Piece.Stands s'.arena) v (pieces literals nodes)

/-- Filled values that nest less deep than the level is high come out whole: as a node that holds the value, and as
gathered parts that the value is taken apart into. -/
structure Level.Lossless (height : Nat) (level : Level w) : Prop where
  object (v : Value) (type : ContentType) (depth : Nat) (s : Stage w) : v.Filled → v.nesting < height →
    ∃ id s', level.object v type depth s = some (some id, s') ∧ s.Extends s' ∧ s'.arena.Holds id v
  gather (v : Value) (type : ContentType) (depth : Nat) (path : DataPath) (g : Gathered) (s : Stage w) :
    v.Filled → v.isContainer = true → v.nesting < height →
    Spreads (level.gather v type depth path g) s g path v

theorem spreads_push {x : Build w Gathered} {g : Gathered} {path : DataPath} {v : Value} {id : NodeId}
    (hx : x s = some (g.push path id, s')) (hext : s.Extends s') (hholds : s'.arena.Holds id v) :
    Spreads x s g path v :=
  ⟨[], [([], id)], s', by rw [hx, Gathered.push_eq], hext, .whole (.node hholds)⟩

/-- The literals and nodes are the parts of the entries, each under its segment. -/
structure Covers (a : Arena) (es : List (Segment × Value)) (literals : List (DataPath × Value))
    (nodes : List (DataPath × NodeId)) : Prop where
  headedLiterals : Headed (es.map Prod.fst) literals
  headedNodes : Headed (es.map Prod.fst) nodes
  splits : ∀ e ∈ es, Splits (Piece.Stands a) e.2 (pieces (headed e.1 literals) (headed e.1 nodes))

section

variable {a : Arena} {es : List (Segment × Value)} {literals more : List (DataPath × Value)}
  {nodes others : List (DataPath × NodeId)}

theorem covers_nil (a : Arena) : Covers a [] [] [] := ⟨nofun, nofun, nofun⟩

theorem Covers.cons {e : Segment × Value} (hfresh : e.1 ∉ es.map Prod.fst)
    (he : Splits (Piece.Stands a) e.2 (pieces literals nodes)) (h : Covers a es more others) :
    Covers a (e :: es) (under [e.1] literals ++ more) (under [e.1] nodes ++ others) where
  headedLiterals := h.headedLiterals.under_append e.1
  headedNodes := h.headedNodes.under_append e.1
  splits := by
    intro entry hentry
    rcases List.mem_cons.1 hentry with rfl | hentry
    · rwa [headed_under_append_self h.headedLiterals hfresh, headed_under_append_self h.headedNodes hfresh]
    · have hne : e.1 ≠ entry.1 := fun heq => hfresh (heq ▸ List.mem_map_of_mem hentry)
      rw [headed_under_append_of_ne hne, headed_under_append_of_ne hne]
      exact h.splits entry hentry

theorem Covers.splits_container {v : Value} (hcontainer : v.isContainer = true)
    (h : Covers a (entries v) literals nodes) : Splits (Piece.Stands a) v (pieces literals nodes) := by
  refine .split hcontainer ((h.headedLiterals.mapped _).append (h.headedNodes.mapped _)) ?_
  intro e he
  rw [headed_pieces]
  exact h.splits e he

end

/-! ## The builder without handlers -/

namespace Hooks

variable {lower : Level w} {height : Nat}

theorem isOfType_empty (type : NodeType) (v : Value) : (empty : Hooks w).isOfType type v = false := by
  cases type <;> rfl

theorem changed_empty (v : Value) (type : ContentType) : (empty : Hooks w).changed v type = pure (some v) := rfl

theorem create_empty (kind : Kind) (source : Value) (s : Stage w) :
    (empty : Hooks w).create lower kind source s = some (some s.arena.size, ⟨(s.arena.alloc kind).2, s.world⟩) := rfl

theorem adoptMembers_multi {id : NodeId} {overrides : Bool} {ids : List NodeId}
    (h : s.arena.kind? id = some (.multi overrides ids)) :
    adoptMembers id s = some ((), ⟨s.arena.adopt id ids, s.world⟩) := by
  have hkind : Build.kind? id s = some (some (.multi overrides ids), s) := by rw [← h]; rfl
  rw [adoptMembers, Build.bind_eq hkind]
  rfl

/-- The items of an array get a node each. -/
theorem filterMapM_holds (hlower : lower.Lossless height) (depth : Nat) {items : List Value} (s : Stage w)
    (hitems : ∀ v ∈ items, v.Filled ∧ v.nesting < height) :
    ∃ ids s', (items.filterMapM fun item => lower.object item .value depth) s = some (ids, s') ∧ s.Extends s' ∧
      List.Forall₂ s'.arena.Holds ids items := by
  induction items generalizing s with
  | nil => exact ⟨[], s, rfl, .refl s, .nil⟩
  | cons item rest ih =>
    obtain ⟨hfilled, hnesting⟩ := hitems item List.mem_cons_self
    obtain ⟨id, s₁, hobject, hext, hholds⟩ := hlower.object item .value depth s hfilled hnesting
    obtain ⟨ids, s₂, hrest, hext', hforall⟩ := ih s₁ fun v hv => hitems v (List.mem_cons_of_mem _ hv)
    refine ⟨id :: ids, s₂, ?_, hext.trans hext', .cons (hholds.extends hext'.arena) hforall⟩
    rw [List.filterMapM_cons, Build.bind_eq hobject]
    exact Build.bind_eq hrest

theorem members_spreads (hlower : lower.Lossless height) (depth : Nat) (path : DataPath) (g : Gathered)
    (overrides : Bool) {items : List Value} (s : Stage w) (hv : (Value.array items).Filled)
    (hnesting : (Value.array items).nesting ≤ height) :
    Spreads ((empty : Hooks w).members lower depth path g overrides items) s g path (.array items) := by
  obtain ⟨hne, -, hitems⟩ := filled_array.1 hv
  obtain ⟨ids, s₁, hids, hext, hforall⟩ := filterMapM_holds hlower depth s fun v hv =>
    ⟨hitems v hv, Nat.lt_of_le_of_lt (nesting_le_itemsNesting hv) hnesting⟩
  let kind := Kind.multi overrides ids
  let arena := (s₁.arena.alloc kind).2.adopt s₁.arena.size ids
  have hextended : s₁.arena.Extends arena := extends_alloc_adopt _ kind ids
  have hkind : arena.kind? s₁.arena.size = some kind := by
    rw [kind?_adopt, kind?_alloc_self]
  have hmembers : ids ≠ [] := by
    rintro rfl
    exact hne (List.forall₂_nil_left_iff.1 hforall)
  have hrun : (empty : Hooks w).members lower depth path g overrides items s =
      some (g.push path s₁.arena.size, ⟨arena, s₁.world⟩) := by
    rw [members, Build.bind_eq hids, if_neg (by simpa using hmembers), Build.bind_eq (create_empty _ _ _)]
    exact Build.bind_eq (adoptMembers_multi (kind?_alloc_self _ _))
  exact spreads_push hrun (hext.trans ⟨hextended, rfl⟩) (holds_multi hforall hextended hkind)

/-- Every entry of a container is taken apart: an asset into a node of its own, an array into a multi-node, a primitive
goes into the literal value, and any other object is gathered below its key. -/
theorem entry_spreads (hlower : lower.Lossless height) (around : Value) (type : ContentType) (depth : Nat)
    (path : DataPath) (g : Gathered) (key : Segment) {v : Value} (s : Stage w) (hv : v.Filled)
    (hnesting : v.nesting < height) :
    Spreads ((empty : Hooks w).entry lower around type depth path g key v) s g (path ++ [key]) v := by
  unfold entry
  simp only [isOfType_empty, Option.any_false, Bool.and_false, Bool.false_eq_true, if_false]
  cases v with
  | object fields =>
    by_cases hasset : (key.asKey == some "asset" && (Value.object fields).isObject) = true
    · obtain ⟨id, s', hobject, hext, hholds⟩ := hlower.object (.object fields) .asset depth s hv hnesting
      rw [if_pos hasset]
      exact spreads_push (Build.bind_eq hobject) hext hholds
    · rw [if_neg hasset]
      dsimp only
      rw [if_neg (by simp [hv.hasKey_async])]
      exact hlower.gather (.object fields) type depth (path ++ [key]) g s hv rfl hnesting
  | array items =>
    rw [if_neg (by simp [Value.isObject])]
    exact members_spreads hlower depth _ g _ s hv (Nat.le_of_lt hnesting)
  | _ =>
    rw [if_neg (by simp [Value.isObject])]
    exact ⟨_, [], s, congrArg (fun g => some (g, s)) (g.place_eq _ _), .refl s, .whole (.literal rfl)⟩

/-- What the entries of a container leave behind are their parts, each under its own segment. -/
theorem entries_covers (hlower : lower.Lossless height) (around : Value) (type : ContentType) (depth : Nat)
    (path : DataPath) {es : List (Segment × Value)} (g : Gathered) (s : Stage w) (hnodup : (es.map Prod.fst).Nodup)
    (hes : ∀ e ∈ es, e.2.Filled ∧ e.2.nesting < height) :
    ∃ literals nodes s',
      (es.foldlM (fun g (key, v) => (empty : Hooks w).entry lower around type depth path g key v) g) s =
        some (g.add path literals nodes, s') ∧ s.Extends s' ∧ Covers s'.arena es literals nodes := by
  induction es generalizing g s with
  | nil => exact ⟨[], [], s, by rw [Gathered.add_nil]; rfl, .refl s, covers_nil _⟩
  | cons e rest ih =>
    obtain ⟨hfresh, hrest⟩ := List.nodup_cons.1 hnodup
    obtain ⟨hfilled, hnesting⟩ := hes e List.mem_cons_self
    obtain ⟨literals, nodes, s₁, hentry, hext, hsplits⟩ :=
      entry_spreads hlower around type depth path g e.1 s hfilled hnesting
    rw [← Gathered.add_under] at hentry
    obtain ⟨more, others, s₂, hmore, hext', hcovers⟩ :=
      ih (g.add path (under [e.1] literals) (under [e.1] nodes)) s₁ hrest fun e he => hes e (List.mem_cons_of_mem _ he)
    rw [Gathered.add_add] at hmore
    have hsplits' : Splits (Piece.Stands s₂.arena) e.2 (pieces literals nodes) :=
      hsplits.mono fun _ _ hstands => hstands.extends hext'.arena
    refine ⟨_, _, s₂, ?_, hext.trans hext', hcovers.cons hfresh hsplits'⟩
    rw [List.foldlM_cons, Build.bind_eq hentry, hmore]

theorem gather_spreads (hlower : lower.Lossless height) (type : ContentType) (depth : Nat) (path : DataPath)
    (g : Gathered) {v : Value} (s : Stage w) (hv : v.Filled) (hcontainer : v.isContainer = true)
    (hnesting : v.nesting ≤ height) : Spreads ((empty : Hooks w).gather lower v type depth path g) s g path v := by
  obtain ⟨literals, nodes, s', hentries, hext, hcovers⟩ :=
    entries_covers hlower v type depth path g s hv.nodup_entries fun e he =>
      ⟨hv.of_mem_entries he, Nat.lt_of_lt_of_le (nesting_lt_of_mem_entries he) hnesting⟩
  refine ⟨literals, nodes, s', ?_, hext, hcovers.splits_container hcontainer⟩
  have hcontainer' : ¬ (!v.isObject && !v.isArray) = true := by
    cases v <;> first | exact Bool.false_ne_true | cases hcontainer
  rw [gather, if_neg hcontainer', changed_empty]
  exact hentries

/-- A content node of the parts of a value holds the value. -/
theorem contentNode_holds (type : ContentType) {v : Value} {literals : List (DataPath × Value)}
    {nodes : List (DataPath × NodeId)} (hv : v.Filled) (h : Splits (Piece.Stands s.arena) v (pieces literals nodes)) :
    ∃ id s', contentNode type (Gathered.empty.add [] literals nodes) s = some (some id, s') ∧ s.Extends s' ∧
      s'.arena.Holds id v := by
  let kind := Kind.content type (collected none literals) (childrenAt nodes)
  let arena := (s.arena.alloc kind).2.adopt s.arena.size ((childrenAt nodes).map Child.node)
  have hextended : s.arena.Extends arena := extends_alloc_adopt _ kind _
  have hkind : arena.kind? s.arena.size = some kind := by
    rw [kind?_adopt, kind?_alloc_self]
  have hadd : Gathered.empty.add [] literals nodes = ⟨collected none literals, childrenAt nodes⟩ := by
    rw [Gathered.add, under_nil, under_nil]
    rfl
  -- a value has parts, so there is something to make a node of
  have hsome : ¬ ((collected none literals).isNone && (childrenAt nodes).isEmpty) = true := by
    intro hnone
    obtain ⟨hvalue, hchildren⟩ := Bool.and_eq_true_iff.1 hnone
    have hliterals : literals = [] := by
      refine Decidable.byContradiction fun hne => ?_
      rw [collected_none hne] at hvalue
      cases hvalue
    have hnodes : nodes = [] := by simpa [childrenAt] using hchildren
    subst hliterals hnodes
    exact h.ne_nil hv rfl
  refine ⟨s.arena.size, ⟨arena, s.world⟩, ?_, ⟨hextended, rfl⟩, holds_content hv h hextended hkind⟩
  rw [hadd, contentNode, if_neg hsome]
  rfl

theorem object_holds (hlower : lower.Lossless height) (type : ContentType) (depth : Nat) {v : Value} (s : Stage w)
    (hv : v.Filled) (hnesting : v.nesting ≤ height) :
    ∃ id s', (empty : Hooks w).object lower v type depth s = some (some id, s') ∧ s.Extends s' ∧
      s'.arena.Holds id v := by
  have hgather : Spreads ((empty : Hooks w).gather lower v type depth [] .empty) s .empty [] v := by
    by_cases hcontainer : v.isContainer = true
    · exact gather_spreads hlower type depth [] .empty s hv hcontainer hnesting
    · have hprimitive : v.isContainer = false := by simpa using hcontainer
      refine ⟨[([], v)], [], s, ?_, .refl s, .whole (.literal hprimitive)⟩
      cases v <;> first | rfl | cases hprimitive
  obtain ⟨literals, nodes, s₁, hgathered, hext, hsplits⟩ := hgather
  obtain ⟨id, s₂, hnode, hext', hholds⟩ := contentNode_holds type hv hsplits
  refine ⟨id, s₂, ?_, hext.trans hext', hholds⟩
  have hobject : (empty : Hooks w).object lower v type depth s =
      ((empty : Hooks w).gather lower v type depth [] .empty >>= fun g => contentNode type g >>= pure) s := rfl
  rw [hobject, Build.bind_eq hgathered, bind_pure, hnode]

theorem lossless_level (height : Nat) : ((empty : Hooks w).level height).Lossless height := by
  induction height with
  | zero =>
    constructor
    · exact fun _ _ _ _ _ hnesting => absurd hnesting (Nat.not_lt_zero _)
    · exact fun _ _ _ _ _ _ _ _ hnesting => absurd hnesting (Nat.not_lt_zero _)
  | succ height ih =>
    constructor
    · intro v type depth s hv hnesting
      exact object_holds ih type depth s hv (Nat.le_of_lt_succ hnesting)
    · intro v type depth path g s hv hcontainer hnesting
      exact gather_spreads ih type depth path g s hv hcontainer (Nat.le_of_lt_succ hnesting)

/-- Without handlers nothing of an object is lost or doubled: content that is filled is built, whatever is asked for,
and the tree that comes out gives the content back, with each primitive found once and at its own path. The limit only
has to be beyond the nesting of the content. -/
theorem rebuild_of_buildObject_empty {fields : Fields} (hfilled : (Value.object fields).Filled) (type : ContentType)
    (depth : Nat) (world : w) {limit : Nat} (hlimit : (Value.object fields).nesting < limit) :
    ∃ tree, (empty : Hooks w).buildObject limit (.object fields) type depth world = some (some tree, world) ∧
      Alike tree.rebuild (.object fields) ∧ tree.found.Perm (Value.object fields).leaves := by
  obtain ⟨root, s, hobject, hext, hholds⟩ :=
    (lossless_level limit).object (.object fields) type depth ⟨.empty, world⟩ hfilled hlimit
  have hdepth : root < (Tree.mk s.arena root).depthBound := Nat.lt_succ_of_lt hholds.lt_size
  refine ⟨⟨s.arena, root⟩, ?_, hholds.alike s.arena _ (.refl _) hdepth, hholds.found s.arena _ (.refl _) hdepth⟩
  obtain ⟨arena, world'⟩ := s
  obtain rfl : world' = world := hext.world
  rw [buildObject, hobject]
  rfl

/-- A view with an asset, options that nest, a list of lists, and nulls in between. -/
theorem rebuild_of_buildObject_empty_sample :
    let asset : Fields := [("id", .string "a"), ("label", .null)]
    let options : Fields := [("shown", .bool true), ("sizes", .array [.string "s", .object [("asset", .object asset)]])]
    let lists : List Value := [.array [.null, .array [.string "x"]], .string "y"]
    let fields : Fields := [("id", .string "v"), ("asset", .object asset), ("options", .object options),
      ("lists", .array lists)]
    (Value.object fields).Filled ∧ (Value.object fields).nesting < 8 ∧
      ∃ tree, (empty : Hooks Unit).buildObject 8 (.object fields) .view 0 () = some (some tree, ()) ∧
        Alike tree.rebuild (.object fields) ∧ tree.found.Perm (Value.object fields).leaves := by
  intro asset options lists fields
  have hfilled : (Value.object fields).Filled := by
    simp [fields, options, lists, asset, filled_object, filled_array, Filled.primitive, isContainer, isObject, isArray]
  have hnesting : (Value.object fields).nesting < 8 := by decide
  exact ⟨hfilled, hnesting, rebuild_of_buildObject_empty hfilled .view 0 () hnesting⟩

end Hooks

end View

end DataBound
