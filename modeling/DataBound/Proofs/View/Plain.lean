-- SUMMARY: Content without the keys that extensions act on is built, to a tree that a recursion over the content gives.
import Mathlib.Data.List.Permutation
import DataBound.Proofs.View.Lossless
import DataBound.Proofs.View.Standard
import DataBound.Proofs.View.Expansion

/-!
# Plain content

A few keys mean more than a property to the builder and its standard extensions. Content in which no object has one of
them is plain. It is built at every height that is a little more than its nesting, and to what a recursion over the
content says: primitives are placed into the literal value, objects go on at longer paths, assets become nodes of their
own, and arrays become multi-nodes.

One text is not taken as it stands. An item that is the text `template` is classified by the extension for templates,
which knows no better than that this is the name of a list of templates. It makes a template without data and body of it,
and the empty path text leads to the whole document.
-/

namespace DataBound.View

open Arena Build Value

/-! ## What is plain -/

/-- The keys that are more than the name of a property. -/
def reserved : List String :=
  ["template", Applicability.fieldName, "async", Switch.staticField, Switch.dynamicField]

/-- An object has no reserved key; other values have no keys. -/
def Unreserved : Value → Prop
  | .object fields => ∀ field ∈ fields, field.1 ∉ reserved
  | _ => True

instance : DecidablePred Unreserved
  | .object fields => inferInstanceAs (Decidable (∀ field ∈ fields, field.1 ∉ reserved))
  | .array _ | .null | .bool _ | .number _ | .string _ => isTrue trivial

/-- No object in the value has a reserved key. -/
abbrev IsPlain (v : Value) : Prop := v.Throughout Unreserved

theorem Unreserved.find? {fields : Fields} (h : Unreserved (.object fields)) {key : String} (hkey : key ∈ reserved) :
    Fields.find? key fields = none := by
  apply Fields.find?_eq_none
  intro hmem
  obtain ⟨field, hfield, rfl⟩ := List.mem_map.1 hmem
  exact h field hfield hkey

theorem Unreserved.hasKey {fields : Fields} (h : Unreserved (.object fields)) {key : String} (hkey : key ∈ reserved) :
    Fields.hasKey fields key = false := by
  rw [Fields.hasKey, h.find? hkey]
  rfl

theorem hasTemplateOutput_of_field? {v : Value} (h : v.field? "template" = none) (key : Segment) :
    hasTemplateOutput v key = false := by
  unfold hasTemplateOutput
  rw [h]
  cases key <;> rfl

theorem Unreserved.hasTemplateOutput {v : Value} (h : Unreserved v) (key : Segment) :
    hasTemplateOutput v key = false := by
  apply hasTemplateOutput_of_field?
  cases v with
  | object fields => exact h.find? (by decide)
  | _ => rfl

/-! ## What plain content comes to -/

/-- The node of the text `template`, given what is read at the empty path text: one null for every item of an array. -/
def wordShape (root : Option Value) (type : ContentType) : Shape :=
  match root with
  | some (.array items) => .multi false (items.map fun _ => (Shape.content .value (some .null) []).toValue)
  | _ => .content type (some (.string "template")) []

mutual

/-- What is gathered from plain content at a path, added to what was gathered before. -/
def plainSketch (root : Option Value) : Value → DataPath → Sketch → Sketch
  | .object fields, path, g => fieldsSketch root fields path g
  | .array items, path, g => itemsSketch root items 0 path g
  | primitive, _, _ => ⟨some primitive, []⟩

/-- What is gathered from fields, each in its turn. -/
def fieldsSketch (root : Option Value) : List (String × Value) → DataPath → Sketch → Sketch
  | [], _, g => g
  | (key, v) :: rest, path, g => fieldsSketch root rest path (entrySketch root v (.key key) path g)

/-- What is gathered from items that stand from a position on, each in its turn. -/
def itemsSketch (root : Option Value) : List Value → Nat → DataPath → Sketch → Sketch
  | [], _, _, g => g
  | v :: rest, i, path, g => itemsSketch root rest (i + 1) path (entrySketch root v (.ofPosition i) path g)

/-- What is gathered from an entry. -/
def entrySketch (root : Option Value) : Value → Segment → DataPath → Sketch → Sketch
  | .object fields, key, path, g =>
    if key.asKey = some "asset" then
      g.pushed (path ++ [key]) ((fieldsSketch root fields [] .empty).shape? .asset)
    else fieldsSketch root fields (path ++ [key]) g
  | .array items, key, path, g =>
    let shapes := itemShapes root items
    if shapes.isEmpty then g else g.push (path ++ [key]) (.multi true (shapes.map Shape.toValue))
  | primitive, key, path, g => g.place (path ++ [key]) primitive

/-- The nodes of the items that give one. -/
def itemShapes (root : Option Value) : List Value → List Shape
  | [] => []
  | v :: rest =>
    (if v.asString = some "template" then some (wordShape root .value)
      else (plainSketch root v [] .empty).shape? .value).toList ++ itemShapes root rest

end

/-- The node of plain content, if it gives one. -/
def plainShape (root : Option Value) (type : ContentType) (v : Value) : Option Shape :=
  if v.asString = some "template" then some (wordShape root type) else (plainSketch root v [] .empty).shape? type

section

variable {root : Option Value} {v : Value} {path : DataPath} {g : Sketch}

theorem plainSketch_container (h : v.isContainer = true) (path : DataPath) (g : Sketch) : plainSketch root v path g =
    (entries v).foldl (fun g (entry : Segment × Value) => entrySketch root entry.2 entry.1 path g) g := by
  cases v with
  | object fields =>
    rw [plainSketch, entries, List.foldl_map]
    clear h
    induction fields generalizing g with
    | nil => rw [fieldsSketch, List.foldl_nil]
    | cons field rest ih => rw [fieldsSketch, ih, List.foldl_cons]
  | array items =>
    rw [plainSketch, entries, List.foldl_map]
    clear h
    generalize 0 = start
    induction items generalizing g start with
    | nil => rw [itemsSketch, List.zipIdx_nil, List.foldl_nil]
    | cons v rest ih => rw [itemsSketch, ih, List.zipIdx_cons, List.foldl_cons]
  | _ => cases h

theorem plainShape_of_container (h : v.isContainer = true) (type : ContentType) :
    plainShape root type v = (plainSketch root v [] .empty).shape? type := by
  cases v with
  | object | array => exact if_neg nofun
  | _ => cases h

theorem itemShapes_eq (root : Option Value) (items : List Value) :
    itemShapes root items = items.filterMap (plainShape root .value) := by
  induction items with
  | nil => rfl
  | cons v rest ih =>
    rw [itemShapes, ih, List.filterMap_cons]
    change (plainShape root .value v).toList ++ _ = _
    cases plainShape root .value v <;> rfl

end

/-! ## Types of plain content -/

variable {w : Type} {I : w → Prop} {a : Arena} {exts : List (Extension w)} {accepts : Value → Run w Bool}
  {read : String → Run w (Option Value)} {root : Option Value} {lower : Level w} {v : Value}

theorem typeOf_of_unreserved (hv : Unreserved v) (hword : v.asString ≠ some "template") :
    (Hooks.ofExtensions exts).typeOf v = none := by
  rw [Hooks.typeOf_eq, List.findSome?_eq_none_iff]
  intro e _
  cases v with
  | object fields =>
    cases e with
    | applicability => rw [Hooks.classify_applicability, hv.hasKey (by decide), if_neg Bool.false_ne_true]
    | switch accepts =>
      rw [Hooks.classify_switch, hv.hasKey (by decide), hv.hasKey (by decide)]
      rfl
    | template read taps => rfl
  | string text =>
    cases e with
    | template read taps => exact if_neg (by simpa using hword)
    | _ => rfl
  | _ => cases e <;> rfl

theorem isOfType_of_unreserved (hv : Unreserved v) {type : NodeType} (htype : type ≠ .template) :
    (Hooks.ofExtensions exts).isOfType type v = false := by
  rw [Hooks.isOfType, beq_eq_false_iff_ne]
  intro h
  by_cases hword : v.asString = some "template"
  · obtain ⟨e, -, hclassify⟩ := Hooks.exists_classify_of_typeOf h
    cases v with
    | string text =>
      cases e with
      | template read taps =>
        simp only [Extension.classify, Template.classify, hword] at hclassify
        cases hclassify
        exact htype rfl
      | _ => cases hclassify
    | _ => cases hword
  · rw [typeOf_of_unreserved hv hword] at h
    cases h

/-! ## Building plain content -/

/-- The level builds the plain value to its node, and gathers from it what there is to gather. -/
structure Level.BuildsPlain (lower : Level w) (I : w → Prop) (root : Option Value) (v : Value) : Prop where
  object (type : ContentType) (depth : Nat) (a : Arena) :
    (lower.object v type depth).Produces I a fun r b => a.Extends b ∧ Option.Rel b.Shows r (plainShape root type v)
  gather (type : ContentType) (depth : Nat) (path : DataPath) (g : Gathered) (sketch : Sketch) (a : Arena) :
    v.isContainer = true → g.Shows a sketch →
    (lower.gather v type depth path g).Produces I a fun g b => a.Extends b ∧ g.Shows b (plainSketch root v path sketch)

theorem members_produces {items : List Value} {shape? : Value → Option Shape} {depth : Nat}
    (hitems : ∀ item ∈ items, ∀ a', (lower.object item .value depth).Produces I a' fun r b =>
      a'.Extends b ∧ Option.Rel b.Shows r (shape? item))
    {g : Gathered} {sketch : Sketch} (hg : g.Shows a sketch) (path : DataPath) (overrides : Bool) :
    ((Hooks.ofExtensions exts).members lower depth path g overrides items).Produces I a fun g b =>
      a.Extends b ∧ g.Shows b (if (items.filterMap shape?).isEmpty then sketch
        else sketch.push path (.multi overrides ((items.filterMap shape?).map Shape.toValue))) := by
  apply produces_bind
  apply (produces_filterMapM stays_shows hitems).mono
  rintro nodes b ⟨hext, hnodes⟩
  have hempty : nodes.isEmpty = (items.filterMap shape?).isEmpty := by
    rw [Bool.eq_iff_iff, List.isEmpty_iff_length_eq_zero, List.isEmpty_iff_length_eq_zero, hnodes.length_eq]
  rw [hempty]
  split
  · exact produces_pure ⟨hext, hg.extends hext⟩
  · have hmulti := shows_alloc_multi overrides hnodes
    have hsettled : Settled exts (some b.size) (b.alloc (.multi overrides nodes)).2 := settled_of_shows (.some hmulti)
    apply produces_bind
    apply produces_bind
    apply produces_alloc
    apply (produces_of_eq (Hooks.settle_eq_of_settled hsettled (.array items))).mono
    rintro _ _ ⟨rfl, rfl⟩
    apply produces_bind
    apply (adoptMembers_produces _).mono
    intro _ b' hext'
    have hgrown := (hext.trans (extends_alloc b _)).trans hext'
    exact produces_pure ⟨hgrown, (hg.extends hgrown).pushed path (.node (.some (hmulti.extends hext')))⟩

/-- A value that no handler builds is gathered. -/
theorem gathered_produces {type : ContentType} {depth : Nat} {sketch : Sketch}
    (hgather : ((Hooks.ofExtensions exts).gather lower v type depth [] .empty).Produces I a fun g b =>
      a.Extends b ∧ g.Shows b sketch) :
    (do
      let g ← (Hooks.ofExtensions exts).gather lower v type depth [] .empty
      let base ← Hooks.contentNode type g
      (Hooks.ofExtensions exts).settle lower base v : Build w (Option NodeId)).Produces I a fun r b =>
        a.Extends b ∧ Option.Rel b.Shows r (sketch.shape? type) := by
  apply produces_bind
  apply hgather.mono
  rintro g b ⟨hext, hg⟩
  apply (contentNode_produces hg type v).mono
  rintro r b' ⟨hext', hrel⟩
  exact ⟨hext.trans hext', hrel⟩

theorem object_produces_of_untyped (htype : (Hooks.ofExtensions exts).typeOf v = none) {type : ContentType}
    {depth : Nat} {sketch : Sketch}
    (hgather : ((Hooks.ofExtensions exts).gather lower v type depth [] .empty).Produces I a fun g b =>
      a.Extends b ∧ g.Shows b sketch) :
    ((Hooks.ofExtensions exts).object lower v type depth).Produces I a fun r b =>
      a.Extends b ∧ Option.Rel b.Shows r (sketch.shape? type) := by
  unfold Hooks.object
  rw [htype]
  exact gathered_produces hgather

theorem gather_primitive {hooks : Hooks w} (hv : v.isContainer = false) (type : ContentType) (depth : Nat)
    (path : DataPath) (g : Gathered) : hooks.gather lower v type depth path g = pure ⟨some v, []⟩ := by
  unfold Hooks.gather
  rw [if_pos]
  rw [isContainer, Bool.or_eq_false_iff] at hv
  rw [hv.1, hv.2]
  rfl

theorem primitive_produces (hv : v.isContainer = false) (type : ContentType) (depth : Nat) :
    ((Hooks.ofExtensions exts).gather lower v type depth [] .empty).Produces I a fun g b =>
      a.Extends b ∧ g.Shows b ⟨some v, []⟩ := by
  rw [gather_primitive hv]
  exact produces_pure ⟨.refl a, rfl, .nil⟩

/-! ### The text that is taken for a key -/

/-- The template that is made of the text is replaced by its copies, whether switches are asked before it or after. -/
theorem settle_word (hexts : exts.Perm [.applicability, .switch accepts, .template read ∅]) {depth : Nat}
    {shape? : Nat → Option Shape} (h : Supplied read I lower "" .null depth root shape?) {id : NodeId}
    (hkind : a.kind? id = some (.template "" .null depth false)) (source : Value) :
    ((Hooks.ofExtensions exts).settle lower (some id) source).Produces I a fun r b => a.Extends b ∧
      Option.Rel b.Shows r ((root.bind Value.asArray).map fun items =>
        .multi false ((cells .null depth shape? items).map Shape.toValue)) := by
  let switch : Tap (Level w → Option NodeId → Value → Build w (Option NodeId)) := ⟨"switch", Switch.onCreate accepts⟩
  let template : Tap (Level w → Option NodeId → Value → Build w (Option NodeId)) := ⟨"template", Template.onCreate read ∅⟩
  have hpair : (exts.filterMap fun e => e.onCreate?.map (Tap.mk e.name)).Perm [switch, template] :=
    hexts.filterMap _
  have hexpand : (Template.onCreate read ∅ lower (some id) source).Produces I a fun r b => a.Extends b ∧
      Option.Rel b.Shows r ((root.bind Value.asArray).map fun items =>
        .multi false ((cells .null depth shape? items).map Shape.toValue)) := by
    apply produces_bind
    apply produces_kind?
    rw [hkind]
    exact expand_produces h
  unfold Hooks.settle Hook.thread
  rw [Hooks.ofExtensions_onCreate]
  rcases List.perm_pair.1 hpair with htaps | htaps <;> rw [htaps]
  · have hkept : ∀ world, Switch.onCreate accepts lower (some id) source ⟨a, world⟩ = some (some id, ⟨a, world⟩) :=
      Extension.onCreate_eq_of_not_replaces (e := .switch accepts) rfl hkind not_false source
    apply produces_bind
    apply (produces_of_eq hkept).mono
    rintro _ _ ⟨rfl, rfl⟩
    apply produces_bind
    apply hexpand.mono
    rintro r b hr
    exact produces_pure hr
  · apply produces_bind
    apply hexpand.mono
    rintro r b ⟨hext, hrel⟩
    have hsettled : Settled [.switch accepts] r b := settled_of_shows hrel
    have hkept : ∀ world, Switch.onCreate accepts lower r source ⟨b, world⟩ = some (r, ⟨b, world⟩) :=
      Extension.onCreate_eq_of_settled (e := .switch accepts) List.mem_cons_self rfl hsettled source
    apply produces_bind
    apply (produces_of_eq hkept).mono
    rintro _ _ ⟨rfl, rfl⟩
    exact produces_pure ⟨hext, hrel⟩

theorem cells_null (depth : Nat) (s : Shape) (items : List Value) :
    cells .null depth (fun _ => some s) items = items.map fun _ => s := by
  have hcopy : ∀ i, Template.copy? ∅ .null ⟨i, .null, depth⟩ = some .null := by
    intro i
    rw [Template.copy?_eq]
    rfl
  unfold cells
  simp only [hcopy, Option.bind_some]
  rw [List.filterMap_eq_map', List.map_const', List.map_const', List.length_range]

theorem unlessEmpty_produces {id : NodeId} {s : Shape} (h : a.Shows id s) :
    (Hooks.unlessEmpty id : Build w (Option NodeId)).Produces I a fun r b => r = some id ∧ b = a := by
  obtain ⟨kind, hkind, hfinished⟩ := h.finished
  apply produces_bind
  apply produces_kind?
  rw [hkind]
  split
  · rename_i heq
    cases heq
    exact hfinished.elim
  · exact produces_pure ⟨rfl, rfl⟩

/-- The text is made a template without a body. -/
theorem build_word (hexts : exts.Perm [.applicability, .switch accepts, .template read ∅]) (type : ContentType)
    (depth : Nat) : (Hooks.ofExtensions exts).build lower (.string "template") type depth (some .template) =
      lower.create (.template "" .null depth false) (.string "template") := by
  have hmem : .template read ∅ ∈ exts := hexts.mem_iff.2 (by simp)
  have hdistinct : (exts.map Extension.type).Nodup := by
    rw [(hexts.map Extension.type).nodup_iff]
    exact (by decide : [NodeType.applicability, .switch, .template].Nodup)
  obtain ⟨e, he, hclassify, hbuild⟩ := Hooks.exists_build_eq hdistinct (Hooks.typeOf_word hmem)
  rw [hbuild]
  cases e with
  | template read' taps => rfl
  | _ => cases hclassify

/-- Two levels up from any level, the text is built to its node. -/
theorem word_produces (hexts : exts.Perm [.applicability, .switch accepts, .template read ∅])
    (hread : ∀ world, I world → ∃ world', read "" world = some (root, world') ∧ I world') (type : ContentType)
    (depth : Nat) :
    ((Hooks.ofExtensions exts).object ((Hooks.ofExtensions exts).step ((Hooks.ofExtensions exts).step lower))
      (.string "template") type depth).Produces I a fun r b =>
        a.Extends b ∧ Option.Rel b.Shows r (some (wordShape root type)) := by
  have hmem : .template read ∅ ∈ exts := hexts.mem_iff.2 (by simp)
  have htype : (Hooks.ofExtensions exts).typeOf (.string "template") = some .template := Hooks.typeOf_word hmem
  -- the copies of the body that is missing are null
  have hsupplied : Supplied read I ((Hooks.ofExtensions exts).step lower) "" .null depth root
      fun _ => some (.content .value (some .null) []) := by
    refine ⟨hread, ?_⟩
    intro items _ i _ c hcopy b
    rw [Template.copy?_eq] at hcopy
    cases hcopy
    exact object_produces_of_untyped (typeOf_of_unreserved (v := .null) trivial nofun) (primitive_produces rfl .value (depth + 1))
  unfold Hooks.object
  rw [htype]
  apply produces_bind
  rw [build_word hexts]
  apply produces_bind
  apply produces_alloc
  apply (settle_word hexts hsupplied (kind?_alloc_self _ _) (.string "template")).mono
  rintro r b ⟨hext, hrel⟩
  have hgrown : a.Extends b := (extends_alloc a _).trans hext
  have hgathered : ((Hooks.ofExtensions exts).gather ((Hooks.ofExtensions exts).step ((Hooks.ofExtensions exts).step lower))
      (.string "template") type depth [] .empty).Produces I b fun g b' =>
        b.Extends b' ∧ g.Shows b' ⟨some (.string "template"), []⟩ := primitive_produces rfl type depth
  simp only [cells_null, List.map_map] at hrel
  unfold wordShape
  cases hitems : root.bind Value.asArray with
  | none =>
    rw [hitems] at hrel
    cases hrel
    apply (gathered_produces hgathered).mono
    rintro r b' ⟨hext', hrel'⟩
    refine ⟨hgrown.trans hext', ?_⟩
    split
    · cases hitems
    · exact hrel'
  | some items =>
    obtain ⟨answer, rfl, harray⟩ := Option.bind_eq_some_iff.1 hitems
    obtain rfl : answer = .array items := by
      cases answer <;> cases harray
      rfl
    cases hrel with
    | some hnode =>
      apply (unlessEmpty_produces hnode).mono
      rintro _ _ ⟨rfl, rfl⟩
      exact ⟨hgrown, .some hnode⟩

/-! ### Levels -/

theorem throughout_entry {p : Value → Prop} (h : v.Throughout p) {entry : Segment × Value} (hentry : entry ∈ entries v) :
    entry.2.Throughout p := by
  cases v with
  | object fields =>
    obtain ⟨field, hfield, rfl⟩ := List.mem_map.1 hentry
    exact h.field hfield
  | array items =>
    obtain ⟨i, hget, -⟩ := mem_entries_array.1 hentry
    exact h.item (List.mem_of_getElem? hget)
  | _ => cases hentry

/-- The keys of plain content do not introduce templates. -/
theorem not_isOfType_template_of_mem_entries (hv : Unreserved v) {entry : Segment × Value} (hentry : entry ∈ entries v) :
    (entry.1.asKey.any fun name => (Hooks.ofExtensions exts).isOfType .template (.string name)) = false := by
  cases v with
  | object fields =>
    obtain ⟨field, hfield, rfl⟩ := List.mem_map.1 hentry
    rw [Bool.eq_false_iff]
    intro htype
    have hname := (Hooks.template_of_typeOf (beq_iff_eq.1 htype)).1
    exact hv field hfield (Value.string.inj hname ▸ by decide)
  | array items =>
    obtain ⟨i, -, hsegment⟩ := mem_entries_array.1 hentry
    rw [hsegment]
    rfl
  | _ => cases hentry

theorem entry_produces (hv : Unreserved v) {entry : Segment × Value} (hentry : entry ∈ entries v)
    (hplain : Unreserved entry.2) (hlower : lower.BuildsPlain I root entry.2)
    (hitems : ∀ items, entry.2 = .array items → ∀ item ∈ items, lower.BuildsPlain I root item) (type : ContentType)
    (depth : Nat) (path : DataPath) {g : Gathered} {sketch : Sketch} (hg : g.Shows a sketch) :
    ((Hooks.ofExtensions exts).entry lower v type depth path g entry.1 entry.2).Produces I a fun g b =>
      a.Extends b ∧ g.Shows b (entrySketch root entry.2 entry.1 path sketch) := by
  have hkey : (entry.1.asKey.any fun name => (Hooks.ofExtensions exts).isOfType .template (.string name)) = false :=
    not_isOfType_template_of_mem_entries hv hentry
  have hswitch : (Hooks.ofExtensions exts).isOfType .switch entry.2 = false := isOfType_of_unreserved hplain nofun
  have happlicability : (Hooks.ofExtensions exts).isOfType .applicability entry.2 = false :=
    isOfType_of_unreserved hplain nofun
  obtain ⟨key, x⟩ := entry
  dsimp only at *
  unfold Hooks.entry
  rw [hkey, hswitch, happlicability, hv.hasTemplateOutput]
  simp only [Bool.and_false, Bool.false_eq_true, if_false, Bool.not_false]
  cases x with
  | object fields =>
    rw [entrySketch]
    simp only [isObject, Bool.and_true, beq_iff_eq]
    split
    · apply produces_bind
      apply (hlower.object .asset depth a).mono
      rintro r b ⟨hext, hrel⟩
      exact produces_pure ⟨hext, (hg.extends hext).pushed _ (.node hrel)⟩
    · rw [hplain.hasKey (by decide), if_neg Bool.false_ne_true]
      exact hlower.gather type depth (path ++ [key]) g sketch a rfl hg
  | array items =>
    simp only [isObject, Bool.and_false, Bool.false_eq_true, if_false]
    rw [entrySketch, itemShapes_eq]
    exact members_produces (fun item hitem a' => (hitems items rfl item hitem).object .value depth a') hg _ true
  | _ =>
    simp only [isObject, Bool.and_false, Bool.false_eq_true, if_false]
    exact produces_pure ⟨.refl a, by simp [Gathered.place, Sketch.place, hg.value, entrySketch], hg.children⟩

theorem level_buildsPlain (hexts : exts.Perm [.applicability, .switch accepts, .template read ∅])
    (hread : ∀ world, I world → ∃ world', read "" world = some (root, world') ∧ I world') (height : Nat) (v : Value)
    (hv : IsPlain v) (hheight : v.nesting + 3 ≤ height) :
    ((Hooks.ofExtensions exts).level height).BuildsPlain I root v := by
  induction height generalizing v with
  | zero => exact absurd hheight (Nat.not_succ_le_zero _)
  | succ height ih =>
    -- the entries, and the items of entries that are arrays, nest less
    have hentry : ∀ type depth path (g : Gathered) sketch b, ∀ entry ∈ entries v, g.Shows b sketch →
        ((Hooks.ofExtensions exts).entry ((Hooks.ofExtensions exts).level height) v type depth path g entry.1
          entry.2).Produces I b fun g b' => b.Extends b' ∧ g.Shows b' (entrySketch root entry.2 entry.1 path sketch) := by
      intro type depth path g sketch b entry hmem hg
      have hplain := throughout_entry hv hmem
      have hnesting := nesting_lt_of_mem_entries hmem
      apply entry_produces hv.self hmem hplain.self (ih entry.2 hplain (by omega)) ?_ type depth path hg
      intro items hitems item hitem
      rw [hitems] at hplain hnesting
      have hitem' := nesting_le_itemsNesting hitem
      rw [nesting] at hnesting
      exact ih item (hplain.item hitem) (by omega)
    have hgather : ∀ type depth path (g : Gathered) sketch b, v.isContainer = true → g.Shows b sketch →
        ((Hooks.ofExtensions exts).gather ((Hooks.ofExtensions exts).level height) v type depth path g).Produces I b
          fun g b' => b.Extends b' ∧ g.Shows b' (plainSketch root v path sketch) := by
      intro type depth path g sketch b hcontainer hg
      rw [plainSketch_container hcontainer]
      unfold Hooks.gather
      rw [if_neg]
      · have hchanged : ((Hooks.ofExtensions exts).changed v type : Build w _) = pure (some v) := by
          rw [Hooks.changed, Hooks.ofExtensions_onObject]
          rfl
        rw [hchanged]
        apply produces_foldlM hg
        intro entry hmem g' sketch' b' hg'
        exact hentry type depth path g' sketch' b' entry hmem hg'
      · rw [isContainer, Bool.or_eq_true] at hcontainer
        cases hcontainer <;> simp [*]
    refine ⟨?_, fun type depth path g sketch b => hgather type depth path g sketch b⟩
    intro type depth b
    by_cases hword : v.asString = some "template"
    · obtain ⟨height, rfl⟩ := Nat.exists_eq_add_of_le' (Nat.le_of_succ_le_succ (Nat.le_trans (Nat.le_add_left 3 _) hheight))
      cases v with
      | string text =>
        cases hword
        exact word_produces hexts hread type depth
      | _ => cases hword
    · rw [plainShape, if_neg hword]
      apply object_produces_of_untyped (typeOf_of_unreserved hv.self hword)
      by_cases hcontainer : v.isContainer = true
      · exact hgather type depth [] .empty .empty b hcontainer ⟨rfl, .nil⟩
      · have hsketch : plainSketch root v [] .empty = ⟨some v, []⟩ := by
          cases v <;> first | rfl | exact absurd rfl hcontainer
        rw [hsketch]
        exact primitive_produces (Bool.eq_false_iff.2 hcontainer) type depth

/-- Plain content is built at every height from a little above its nesting on, and to the tree of its shape. -/
theorem buildObject_plain (hexts : exts.Perm [.applicability, .switch accepts, .template read ∅])
    (hread : ∀ world, I world → ∃ world', read "" world = some (root, world') ∧ I world') (hv : IsPlain v) {height : Nat}
    (hheight : v.nesting + 3 ≤ height) (type : ContentType) (depth : Nat) {world : w} (hworld : I world) :
    ∃ tree last, (Hooks.ofExtensions exts).buildObject height v type depth world = some (tree, last) ∧ I last ∧
      Option.Rel Tree.Has tree (plainShape root type v) :=
  Hooks.buildObject_of_produces ((level_buildsPlain hexts hread height v hv hheight).object type depth .empty) hworld

/-- An object that is built to a tree as a view is a view. -/
theorem buildView_of_buildObject {height depth : Nat} {world last : w} {tree : Tree} {s : Shape}
    (hv : v.isObject = true)
    (hbuilt : (Hooks.ofExtensions exts).buildObject height v .view depth world = some (some tree, last))
    (hhas : tree.Has s) (hview : s.nodeType = .view) :
    ((Hooks.ofExtensions exts).buildView height v depth).Ends world (.ok tree) last := by
  unfold Hooks.buildView
  rw [hv, if_neg (by decide)]
  refine Action.Ends.bind (Action.lift_ends.2 ⟨_, hbuilt, rfl⟩) ?_
  dsimp only
  rw [hhas.2, hview, Option.getD_some, if_neg (by decide), Hooks.ofExtensions_onView]
  exact Action.Ends.bind (Action.lift_ends.2 ⟨(), rfl, rfl⟩) (Action.pure_ends_self _ _)

end DataBound.View
