-- SUMMARY: Vetoing objects is building the content with empty objects in their place, and changes nothing else.
import DataBound.Proofs.View.Plain

/-!
# Vetoes

A handler vetoes an object before anything in it is looked at. Wherever the object stands, at the root, under a key, as
an asset, in an array or in arrays of arrays, it comes to what the empty object comes to, which is nothing. So a run
with the handler is the run without handlers over the content with the vetoed objects emptied: the same nodes are made
in the same order.

Two keys are left out. A placeholder is built from its object without the `async` field, of which the handler may think
differently than of the object; and a descriptor under `template` counts for the arrays next to it even if it is vetoed.
-/

namespace DataBound

mutual

/-- The value with every outermost object of which `P` holds emptied. -/
def Value.cut (P : Value → Bool) : Value → Value
  | .object fields => .object (if P (.object fields) then [] else cutFields P fields)
  | .array items => .array (cutItems P items)
  | primitive => primitive

/-- The fields with their values cut. -/
def cutFields (P : Value → Bool) : List (String × Value) → List (String × Value)
  | [] => []
  | (key, v) :: rest => (key, v.cut P) :: cutFields P rest

/-- The items cut. -/
def cutItems (P : Value → Bool) : List Value → List Value
  | [] => []
  | v :: rest => v.cut P :: cutItems P rest

end

theorem cutFields_eq_map (P : Value → Bool) (fields : Fields) :
    cutFields P fields = fields.map fun (key, v) => (key, v.cut P) := by
  induction fields with
  | nil => rfl
  | cons field rest ih => rw [cutFields, ih, List.map_cons]

theorem cutItems_eq_map (P : Value → Bool) (items : List Value) : cutItems P items = items.map (Value.cut P) := by
  induction items with
  | nil => rfl
  | cons v rest ih => rw [cutItems, ih, List.map_cons]

namespace View

open Build Value

variable {w : Type} {P : Value → Bool} {v : Value}

/-! ## Content that is cut -/

theorem cut_primitive (h : v.isContainer = false) (P : Value → Bool) : v.cut P = v := by
  cases v with
  | object fields => cases h
  | array items => cases h
  | _ => rw [cut] <;> nofun

theorem cut_of_vetoed (hP : ∀ v, P v = true → v.isObject = true) (h : P v = true) : v.cut P = .object [] := by
  have hobject := hP v h
  cases v with
  | object fields => rw [cut, if_pos h]
  | _ => cases hobject

theorem entries_cut (h : P v = false) : entries (v.cut P) = (entries v).map fun (key, x) => (key, x.cut P) := by
  cases v with
  | object fields =>
    rw [cut, if_neg (Bool.eq_false_iff.1 h), entries, entries, cutFields_eq_map, List.map_map, List.map_map]
    rfl
  | array items =>
    rw [cut, entries, entries, cutItems_eq_map, List.zipIdx_map, List.map_map, List.map_map]
    rfl
  | _ => rfl

theorem isContainer_cut (v : Value) (P : Value → Bool) : (v.cut P).isContainer = v.isContainer := by
  cases v with
  | object fields => rw [cut]; rfl
  | array items => rw [cut]; rfl
  | _ => rw [cut_primitive rfl]

theorem isObject_cut (v : Value) (P : Value → Bool) : (v.cut P).isObject = v.isObject := by
  cases v with
  | object fields => rw [cut]; rfl
  | array items => rw [cut]; rfl
  | _ => rw [cut_primitive rfl]

mutual

/-- Where `P` holds of nothing there is nothing to empty. -/
theorem cut_eq_self : ∀ {v : Value}, v.Throughout (P · = false) → v.cut P = v
  | .null, _ | .bool _, _ | .number _, _ | .string _, _ => cut_primitive rfl P
  | .array items, h => by rw [cut, cutItems_eq_self h.2]
  | .object fields, h => by rw [cut, if_neg (Bool.eq_false_iff.1 h.1), cutFields_eq_self h.2]

theorem cutItems_eq_self : ∀ {items : List Value}, itemsThroughout (P · = false) items → cutItems P items = items
  | [], _ => rfl
  | _ :: _, h => by rw [cutItems, cut_eq_self h.1, cutItems_eq_self h.2]

theorem cutFields_eq_self : ∀ {fields : List (String × Value)}, fieldsThroughout (P · = false) fields →
    cutFields P fields = fields
  | [], _ => rfl
  | (_, _) :: _, h => by rw [cutFields, cut_eq_self h.1, cutFields_eq_self h.2]

end

/-- `x` stands in `v` at the path, and `P` holds of nothing that it stands in. -/
inductive Outside (P : Value → Bool) : Value → DataPath → Value → Prop
  | here (v : Value) : Outside P v [] v
  | entry {v x y : Value} {key : Segment} {path : DataPath} :
      P v = false → (key, x) ∈ entries v → Outside P x path y → Outside P v (key :: path) y

/-- `x` stands in `v` at the path. -/
abbrev Stands (v : Value) (path : DataPath) (x : Value) : Prop := Outside (fun _ => false) v path x

/-- What is left when a value is cut is what stands outside the objects of which `P` holds, where it stood before. -/
theorem stands_cut_iff (hP : ∀ v, P v = true → v.isObject = true) {path : DataPath} {y : Value} :
    Stands (v.cut P) path y ↔ ∃ x, Outside P v path x ∧ x.cut P = y := by
  constructor
  · intro h
    generalize hv : v.cut P = v' at h
    induction h generalizing v with
    | here => exact ⟨v, .here v, hv⟩
    | entry _ hentry _ ih =>
      subst hv
      cases hveto : P v with
      | false =>
        rw [entries_cut hveto] at hentry
        obtain ⟨⟨key, x⟩, hmem, heq⟩ := List.mem_map.1 hentry
        cases heq
        obtain ⟨z, houtside, hz⟩ := ih rfl
        exact ⟨z, .entry hveto hmem houtside, hz⟩
      | true =>
        rw [cut_of_vetoed hP hveto] at hentry
        cases hentry
  · rintro ⟨x, h, rfl⟩
    induction h with
    | here v => exact .here _
    | entry hveto hentry _ ih =>
      refine .entry rfl ?_ ih
      rw [entries_cut hveto]
      exact List.mem_map_of_mem (f := fun (key, x) => (key, x.cut P)) hentry

/-! ## Keys that are left out -/

/-- An object has no `async` and no `template` field; other values have no fields. -/
def Immediate : Value → Prop
  | .object fields => Fields.hasKey fields "async" = false ∧ Fields.hasKey fields "template" = false
  | _ => True

instance : DecidablePred Immediate
  | .object fields =>
    inferInstanceAs (Decidable (Fields.hasKey fields "async" = false ∧ Fields.hasKey fields "template" = false))
  | .array _ | .null | .bool _ | .number _ | .string _ => isTrue trivial

theorem find?_cutFields (key : String) (fields : Fields) :
    Fields.find? key (cutFields P fields) = (Fields.find? key fields).map (Value.cut P) := by
  induction fields with
  | nil => rfl
  | cons field rest ih =>
    rw [cutFields, Fields.find?, Fields.find?, ih]
    split <;> rfl

theorem hasKey_cutFields (key : String) (fields : Fields) :
    Fields.hasKey (cutFields P fields) key = Fields.hasKey fields key := by
  rw [Fields.hasKey, find?_cutFields, Option.isSome_map, Fields.hasKey]

theorem Immediate.hasTemplateOutput (h : Immediate v) (key : Segment) : View.hasTemplateOutput v key = false := by
  apply hasTemplateOutput_of_field?
  cases v with
  | object fields => exact Option.not_isSome_iff_eq_none.1 (Bool.eq_false_iff.1 h.2)
  | _ => rfl

theorem Immediate.cut (h : Immediate v) (P : Value → Bool) : Immediate (v.cut P) := by
  cases v with
  | object fields =>
    rw [Value.cut]
    split
    · exact ⟨rfl, rfl⟩
    · rw [Immediate, hasKey_cutFields, hasKey_cutFields]
      exact h
  | _ => exact trivial

/-! ## Steps -/

namespace Build

variable {α β γ δ : Type}

/-- Started anywhere the step ends, in the world in which it was started. -/
def Ends (x : Build w α) : Prop := ∀ s, ∃ r a, x s = some (r, ⟨a, s.world⟩)

theorem ends_pure (r : α) : Ends (pure r : Build w α) := fun s => ⟨r, s.arena, rfl⟩

theorem ends_onArena (change : Arena → α × Arena) : Ends (onArena change : Build w α) := fun _ => ⟨_, _, rfl⟩

theorem Ends.bind {x : Build w β} {f : β → Build w α} (hx : x.Ends) (hf : ∀ r, (f r).Ends) : (x >>= f).Ends := by
  intro s
  obtain ⟨r, a, hr⟩ := hx s
  obtain ⟨r', a', hr'⟩ := hf r ⟨a, s.world⟩
  exact ⟨r', a', (bind_eq hr).trans hr'⟩

theorem ends_foldlM {f : α → β → Build w α} {items : List β} (hround : ∀ item ∈ items, ∀ r, (f r item).Ends) (r : α) :
    (items.foldlM f r).Ends := by
  induction items generalizing r with
  | nil => exact ends_pure r
  | cons item rest ih =>
    obtain ⟨hitem, hrest⟩ := List.forall_mem_cons.1 hround
    exact (hitem r).bind (ih hrest)

theorem ends_filterMapM {f : β → Build w (Option α)} {items : List β} (hitem : ∀ item ∈ items, (f item).Ends) :
    (items.filterMapM f).Ends := by
  induction items with
  | nil => exact ends_pure []
  | cons item rest ih =>
    obtain ⟨hfirst, hrest⟩ := List.forall_mem_cons.1 hitem
    rw [List.filterMapM_cons]
    apply hfirst.bind
    rintro (_ | r)
    · exact ih hrest
    · exact (ih hrest).bind fun _ => ends_pure _

theorem foldlM_map_congr {f : α → γ → Build w α} {g : α → β → Build w α} {h : β → γ} {items : List β}
    (hround : ∀ item ∈ items, ∀ r, g r item = f r (h item)) (r : α) :
    items.foldlM g r = (items.map h).foldlM f r := by
  induction items generalizing r with
  | nil => rfl
  | cons item rest ih =>
    obtain ⟨hitem, hrest⟩ := List.forall_mem_cons.1 hround
    rw [List.map_cons, List.foldlM_cons, List.foldlM_cons, hitem]
    exact bind_congr (ih hrest)

theorem filterMapM_map_congr {f : γ → Build w (Option δ)} {g : β → Build w (Option δ)} {h : β → γ} {items : List β}
    (hitem : ∀ item ∈ items, g item = f (h item)) : items.filterMapM g = (items.map h).filterMapM f := by
  induction items with
  | nil => rfl
  | cons item rest ih =>
    obtain ⟨hfirst, hrest⟩ := List.forall_mem_cons.1 hitem
    rw [List.map_cons, List.filterMapM_cons, List.filterMapM_cons, hfirst, ih hrest]

end Build

/-! ## Levels -/

/-- The first level builds what the second one builds from content that is cut. -/
structure Level.Cuts (P : Value → Bool) (lower lower' : Level w) : Prop where
  object : ∀ v type depth, v.Throughout Immediate → lower.object v type depth = lower'.object (v.cut P) type depth
  gather : ∀ v type depth path g, v.Throughout Immediate →
    lower.gather v type depth path g = lower'.gather (v.cut P) type depth path g

/-- The level ends on immediate content that nests less deep than its height. -/
structure Level.Ends (lower : Level w) (height : Nat) : Prop where
  object : ∀ v type depth, v.Throughout Immediate → v.nesting < height → (lower.object v type depth).Ends
  gather : ∀ v type depth path g, v.Throughout Immediate → v.nesting < height →
    (lower.gather v type depth path g).Ends

namespace Hooks

/-! ## Content that nobody classifies -/

section

variable {hooks : Hooks w} {lower : Level w} {around v : Value} {type : ContentType} {depth : Nat} {path : DataPath}
  {g : Gathered} {key : Segment} (hclassify : hooks.classify = ∅)

include hclassify

theorem isOfType_of_classify (nodeType : NodeType) (v : Value) : hooks.isOfType nodeType v = false := by
  rw [isOfType, typeOf, hclassify]
  cases nodeType <;> rfl

theorem entry_object {fields : Fields} (hasync : Fields.hasKey fields "async" = false) :
    hooks.entry lower around type depth path g key (.object fields) =
      if key.asKey == some "asset" then do
        pure (pushed g (path ++ [key]) (← lower.object (.object fields) .asset depth))
      else lower.gather (.object fields) type depth (path ++ [key]) g := by
  unfold entry
  simp only [isOfType_of_classify hclassify, hasync, Value.isObject, Option.any_false, Bool.and_false, Bool.and_true,
    Bool.false_eq_true, if_false]

theorem entry_array (items : List Value) :
    hooks.entry lower around type depth path g key (.array items) =
      hooks.members lower depth (path ++ [key]) g (!hasTemplateOutput around key) items := by
  unfold entry
  simp only [isOfType_of_classify hclassify, Value.isObject, Option.any_false, Bool.and_false, Bool.false_eq_true,
    if_false]

theorem entry_primitive (hprimitive : v.isContainer = false) :
    hooks.entry lower around type depth path g key v = pure (g.place (path ++ [key]) v) := by
  unfold entry
  cases v with
  | object fields => cases hprimitive
  | array items => cases hprimitive
  | _ =>
    simp only [isOfType_of_classify hclassify, Value.isObject, Option.any_false, Bool.and_false, Bool.false_eq_true,
      if_false]

theorem object_of_classify (hcreate : hooks.onCreate = ∅) :
    hooks.object lower v type depth = hooks.gather lower v type depth [] .empty >>= contentNode type := by
  have hobject : hooks.object lower v type depth =
      hooks.gather lower v type depth [] .empty >>= fun g => contentNode type g >>= pure := by
    unfold object settle
    rw [typeOf, hclassify, hcreate]
    rfl
  rw [hobject]
  exact bind_congr fun g => bind_pure _

omit hclassify in
theorem gather_container (hcontainer : v.isContainer = true) :
    hooks.gather lower v type depth path g = (do
      match ← hooks.changed v type with
      | none => pure g
      | some around =>
        (entries around).foldlM (fun g (key, x) => hooks.entry lower around type depth path g key x) g) := by
  cases v with
  | object fields => rfl
  | array items => rfl
  | _ => cases hcontainer

end

/-! ## Vetoes -/

/-- The hooks with one handler, which vetoes the objects of which `P` holds and leaves the others as they are. -/
def vetoing (P : Value → Bool) : Hooks w :=
  { (empty : Hooks w) with onObject := (∅ : Hook _).tap "veto" fun v _ => pure (if P v then none else some v) }

theorem changed_vetoing (v : Value) (type : ContentType) :
    (vetoing P : Hooks w).changed v type = pure (if P v then none else some v) := rfl

variable {lower lower' : Level w}

theorem members_cut (hcuts : lower.Cuts P lower') (depth : Nat) (path : DataPath) (g : Gathered) (overrides : Bool)
    {items : List Value} (hitems : ∀ v ∈ items, v.Throughout Immediate) :
    (vetoing P).members lower depth path g overrides items =
      empty.members lower' depth path g overrides (items.map (Value.cut P)) := by
  unfold members
  rw [filterMapM_map_congr (f := fun v => lower'.object v .value depth) (h := Value.cut P) fun v hv =>
    hcuts.object v .value depth (hitems v hv)]
  rfl

theorem entry_cut (hcuts : lower.Cuts P lower') {around around' : Value} (haround : Immediate around)
    (haround' : Immediate around') (type : ContentType) (depth : Nat) (path : DataPath) (g : Gathered) (key : Segment)
    {v : Value} (hv : v.Throughout Immediate) :
    (vetoing P).entry lower around type depth path g key v =
      empty.entry lower' around' type depth path g key (v.cut P) := by
  cases v with
  | object fields =>
    obtain ⟨fields', hcut⟩ : ∃ fields', (Value.object fields).cut P = .object fields' := ⟨_, by rw [Value.cut]⟩
    have hcut' : Immediate (.object fields') := hcut ▸ hv.self.cut P
    rw [hcut, entry_object rfl hv.self.1, entry_object rfl hcut'.1,
      hcuts.object _ _ _ hv, hcuts.gather _ _ _ _ _ hv, hcut]
  | array items =>
    rw [Value.cut, entry_array rfl, entry_array rfl, haround.hasTemplateOutput, haround'.hasTemplateOutput,
      members_cut hcuts _ _ _ _ fun _ => hv.item, cutItems_eq_map]
  | _ =>
    rw [cut_primitive rfl, entry_primitive rfl rfl, entry_primitive rfl rfl]

theorem gather_cut (hP : ∀ v, P v = true → v.isObject = true) (hcuts : lower.Cuts P lower') {v : Value}
    (hv : v.Throughout Immediate) (type : ContentType) (depth : Nat) (path : DataPath) (g : Gathered) :
    (vetoing P).gather lower v type depth path g = empty.gather lower' (v.cut P) type depth path g := by
  by_cases hcontainer : v.isContainer = true
  · rw [gather_container hcontainer, gather_container ((isContainer_cut v P).trans hcontainer),
      changed_vetoing, changed_empty, pure_bind, pure_bind]
    cases hveto : P v with
    | true =>
      -- nothing is taken from a vetoed object, and the empty object has nothing to take
      rw [cut_of_vetoed hP hveto]
      rfl
    | false =>
      have hentries :
          (entries v).foldlM (fun g (key, x) => (vetoing P).entry lower v type depth path g key x) g =
            ((entries v).map fun (key, x) => (key, x.cut P)).foldlM
              (fun g (key, x) => empty.entry lower' (v.cut P) type depth path g key x) g := by
        apply foldlM_map_congr
        intro entry hentry g
        exact entry_cut hcuts hv.self (hv.self.cut P) type depth path g entry.1 (throughout_entry hv hentry)
      rw [← entries_cut hveto] at hentries
      exact hentries
  · have hprimitive : v.isContainer = false := Bool.eq_false_iff.2 hcontainer
    rw [cut_primitive hprimitive, gather_primitive hprimitive, gather_primitive hprimitive]

theorem object_cut (hP : ∀ v, P v = true → v.isObject = true) (hcuts : lower.Cuts P lower') {v : Value}
    (hv : v.Throughout Immediate) (type : ContentType) (depth : Nat) :
    (vetoing P).object lower v type depth = empty.object lower' (v.cut P) type depth := by
  rw [object_of_classify rfl rfl, object_of_classify rfl rfl, gather_cut hP hcuts hv]

theorem cuts_level (hP : ∀ v, P v = true → v.isObject = true) (height : Nat) :
    ((vetoing P : Hooks w).level height).Cuts P (empty.level height) := by
  induction height with
  | zero => exact ⟨fun _ _ _ _ => rfl, fun _ _ _ _ _ _ => rfl⟩
  | succ height ih =>
    exact ⟨fun _ type depth hv => object_cut hP ih hv type depth,
      fun _ type depth path g hv => gather_cut hP ih hv type depth path g⟩

/-! ### Runs that end -/

theorem adoptMembers_ends (id : NodeId) : (adoptMembers id : Build w Unit).Ends := by
  unfold adoptMembers
  apply (ends_onArena _).bind
  intro kind
  split
  · exact ends_onArena _
  · exact ends_pure _

theorem contentNode_ends (type : ContentType) (g : Gathered) : (contentNode type g : Build w (Option NodeId)).Ends := by
  unfold contentNode
  split
  · exact ends_pure none
  · exact (ends_onArena _).bind fun _ => (ends_onArena _).bind fun _ => ends_pure _

variable {height : Nat}

theorem members_ends (hlower : lower.Ends height) (depth : Nat) (path : DataPath) (g : Gathered) (overrides : Bool)
    {items : List Value} (hitems : ∀ v ∈ items, v.Throughout Immediate ∧ v.nesting < height) :
    ((vetoing P).members lower depth path g overrides items).Ends := by
  unfold members
  apply (ends_filterMapM fun v hv => hlower.object v .value depth (hitems v hv).1 (hitems v hv).2).bind
  intro nodes
  split
  · exact ends_pure g
  · apply ((ends_onArena _).bind fun id => ends_pure (some id)).bind
    rintro (_ | node)
    · exact ends_pure g
    · exact (adoptMembers_ends node).bind fun _ => ends_pure _

theorem entry_ends (hlower : lower.Ends height) (around : Value) (type : ContentType) (depth : Nat) (path : DataPath)
    (g : Gathered) (key : Segment) {v : Value} (hv : v.Throughout Immediate) (hnesting : v.nesting < height) :
    ((vetoing P).entry lower around type depth path g key v).Ends := by
  cases v with
  | object fields =>
    rw [entry_object rfl hv.self.1]
    split
    · exact (hlower.object _ _ _ hv hnesting).bind fun _ => ends_pure _
    · exact hlower.gather _ _ _ _ _ hv hnesting
  | array items =>
    rw [entry_array rfl]
    apply members_ends hlower
    intro v hmem
    exact ⟨hv.item hmem, Nat.lt_of_le_of_lt (nesting_le_itemsNesting hmem) (Nat.lt_of_succ_lt hnesting)⟩
  | _ =>
    rw [entry_primitive rfl rfl]
    exact ends_pure _

theorem gather_ends (hlower : lower.Ends height) {v : Value} (hv : v.Throughout Immediate)
    (hnesting : v.nesting ≤ height) (type : ContentType) (depth : Nat) (path : DataPath) (g : Gathered) :
    ((vetoing P).gather lower v type depth path g).Ends := by
  by_cases hcontainer : v.isContainer = true
  · rw [gather_container hcontainer, changed_vetoing, pure_bind]
    cases P v with
    | true => exact ends_pure g
    | false =>
      apply ends_foldlM
      intro entry hentry g
      exact entry_ends hlower v type depth path g entry.1 (throughout_entry hv hentry)
        (Nat.lt_of_lt_of_le (nesting_lt_of_mem_entries hentry) hnesting)
  · rw [gather_primitive (Bool.eq_false_iff.2 hcontainer)]
    exact ends_pure _

theorem object_ends (hlower : lower.Ends height) {v : Value} (hv : v.Throughout Immediate)
    (hnesting : v.nesting ≤ height) (type : ContentType) (depth : Nat) :
    ((vetoing P).object lower v type depth).Ends := by
  rw [object_of_classify rfl rfl]
  exact (gather_ends hlower hv hnesting type depth [] .empty).bind fun g => contentNode_ends type g

theorem ends_level (P : Value → Bool) (height : Nat) : ((vetoing P : Hooks w).level height).Ends height := by
  induction height with
  | zero =>
    constructor
    · exact fun _ _ _ _ hnesting => absurd hnesting (Nat.not_lt_zero _)
    · exact fun _ _ _ _ _ _ hnesting => absurd hnesting (Nat.not_lt_zero _)
  | succ height ih =>
    constructor
    · intro v type depth hv hnesting
      exact object_ends ih hv (Nat.le_of_lt_succ hnesting) type depth
    · intro v type depth path g hv hnesting
      exact gather_ends ih hv (Nat.le_of_lt_succ hnesting) type depth path g

/-! ### Runs -/

theorem buildObject_cut (hP : ∀ v, P v = true → v.isObject = true) {content : Value}
    (hcontent : content.Throughout Immediate) (limit : Nat) (type : ContentType) (depth : Nat) :
    (vetoing P : Hooks w).buildObject limit content type depth =
      empty.buildObject limit (content.cut P) type depth := by
  unfold buildObject
  rw [(cuts_level hP limit).object content type depth hcontent]

theorem buildObject_ends (P : Value → Bool) {content : Value} (hcontent : content.Throughout Immediate) {limit : Nat}
    (hlimit : content.nesting < limit) (type : ContentType) (depth : Nat) (world : w) :
    ∃ tree?, (vetoing P).buildObject limit content type depth world = some (tree?, world) := by
  obtain ⟨root, arena, hobject⟩ := (ends_level P limit).object content type depth hcontent hlimit ⟨.empty, world⟩
  refine ⟨root.map (Tree.mk arena), ?_⟩
  rw [buildObject, hobject]
  rfl

theorem buildView_cut (hP : ∀ v, P v = true → v.isObject = true) {content : Value}
    (hcontent : content.Throughout Immediate) (limit depth : Nat) :
    (vetoing P : Hooks w).buildView limit content depth = empty.buildView limit (content.cut P) depth := by
  unfold buildView
  rw [isObject_cut, buildObject_cut hP hcontent]
  rfl

theorem buildView_ends (P : Value → Bool) {content : Value} (hcontent : content.Throughout Immediate) {limit : Nat}
    (hlimit : content.nesting < limit) (depth : Nat) (world : w) :
    ∃ r, ((vetoing P).buildView limit content depth).Ends world r world := by
  obtain ⟨tree?, htree⟩ := buildObject_ends P hcontent hlimit .view depth world
  have hlift : (liftM ((vetoing P : Hooks w).buildObject limit content .view depth) : Action w (Option Tree)).Ends world
      (.ok tree?) world := Action.lift_ends.2 ⟨tree?, htree, rfl⟩
  unfold buildView
  split
  · exact ⟨_, Action.throw_bind_ends.2 ⟨rfl, rfl⟩⟩
  · simp only [Action.Ends.bind_iff hlift]
    cases tree? with
    | none => exact ⟨_, Action.throw_ends.2 ⟨rfl, rfl⟩⟩
    | some tree =>
      dsimp only
      split
      · exact ⟨_, Action.throw_bind_ends.2 ⟨rfl, rfl⟩⟩
      · exact ⟨.ok tree, Action.Ends.bind (Action.lift_ends.2 ⟨(), rfl, rfl⟩) (Action.pure_ends_self _ _)⟩

/-- A veto takes out what stands in the vetoed objects and nothing else. Vetoing objects of immediate content is
building the content cut, at every limit, and a limit beyond the nesting of the content is never used up. What is cut
has the rest of the content at the places where it was. -/
theorem vetoing_builds_cut (hP : ∀ v, P v = true → v.isObject = true) {content : Value}
    (hcontent : content.Throughout Immediate) :
    (∀ limit type depth, (vetoing P : Hooks w).buildObject limit content type depth =
      empty.buildObject limit (content.cut P) type depth) ∧
    (∀ limit depth, (vetoing P : Hooks w).buildView limit content depth =
      empty.buildView limit (content.cut P) depth) ∧
    (∀ limit, content.nesting < limit → ∀ depth world,
      (∀ type, ∃ tree?, (vetoing P : Hooks w).buildObject limit content type depth world = some (tree?, world)) ∧
      ∃ r, ((vetoing P : Hooks w).buildView limit content depth).Ends world r world) ∧
    (∀ path y, Stands (content.cut P) path y ↔ ∃ x, Outside P content path x ∧ x.cut P = y) ∧
    ∀ x : Value, x.Throughout (P · = false) → x.cut P = x :=
  ⟨buildObject_cut hP hcontent, buildView_cut hP hcontent,
    fun _ hlimit depth world => ⟨fun type => buildObject_ends P hcontent hlimit type depth world,
      buildView_ends P hcontent hlimit depth world⟩,
    fun _ _ => stands_cut_iff hP, fun _ => cut_eq_self⟩

/-- Hidden objects under a key, as an asset, in an array and in an array of arrays; and one in a hidden one. -/
theorem vetoing_builds_cut_sample :
    let hidden : Fields := [("hidden", .bool true), ("text", .string "t")]
    let P : Value → Bool := fun v => (v.field? "hidden").isSome
    let asset : Fields := [("id", .string "a"), ("asset", .object hidden)]
    let outer : Fields := [("hidden", .null), ("inner", .object hidden)]
    let lists : List Value := [.object hidden, .string "x", .array [.null, .object outer, .object asset]]
    let content : Value := .object [("id", .string "v"), ("asset", .object asset), ("options", .object outer),
      ("lists", .array lists)]
    let left : Value := .object [("id", .string "v"),
      ("asset", .object [("id", .string "a"), ("asset", .object [])]), ("options", .object []),
      ("lists", .array [.object [], .string "x",
        .array [.null, .object [], .object [("id", .string "a"), ("asset", .object [])]]])]
    (∀ v, P v = true → v.isObject = true) ∧ content.Throughout Immediate ∧ content.cut P = left ∧
      ∃ tree?, (vetoing P : Hooks Unit).buildObject 8 content .view 0 () = some (tree?, ()) ∧
        empty.buildObject 8 left .view 0 () = some (tree?, ()) := by
  intro hidden P asset outer lists content left
  have hP : ∀ v, P v = true → v.isObject = true := by
    intro v h
    cases v with
    | object fields => rfl
    | _ => cases h
  have hcontent : content.Throughout Immediate := by decide
  have hcut : content.cut P = left := by rfl
  obtain ⟨hbuilds, -, hends, -⟩ := vetoing_builds_cut (w := Unit) hP hcontent
  obtain ⟨tree?, htree⟩ := (hends 8 (by decide) 0 ()).1 .view
  exact ⟨hP, hcontent, hcut, tree?, htree, by rw [← hcut, ← hbuilds, htree]⟩

end Hooks

end View

end DataBound
