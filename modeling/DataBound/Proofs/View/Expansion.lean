-- SUMMARY: A static template that is all of its object is built to one child with the copies of its body.
import DataBound.Proofs.View.Copies
import DataBound.Proofs.View.Drawing
import DataBound.Proofs.View.Produces

/-!
# Expanding one template

A builder with templates, and without handlers of replacements, is given content that consists of one static template.
If the data of the template is an array, a node is built that has one child at the output of the template: a multi-node,
which does not override, of what is built of the copies, in the order of the items. If it is no array nothing is built.
What the copies come to is built one level lower and one template deeper.
-/

namespace DataBound.View

open Arena Build Template

variable {w : Type} {read : String → Run w (Option Value)} {I : w → Prop} {a : Arena}

/-- The hooks of a builder with templates only, without handlers of replacements. -/
def templates (read : String → Run w (Option Value)) : Hooks w := .ofExtensions [.template read ∅]

theorem templates_settle (read : String → Run w (Option Value)) (lower : Level w) (node : Option NodeId)
    (source : Value) : (templates read).settle lower node source = onCreate read ∅ lower node source :=
  bind_pure _

/-! ## Copies -/

/-- The copies that are built of the items of an array, at their places. -/
def cells (inner : Value) (depth : Nat) (shape? : Nat → Option Shape) (items : List Value) : List Shape :=
  (List.range items.length).filterMap fun i => (copy? ∅ inner ⟨i, .null, depth⟩).bind fun _ => shape? i

theorem filterMap_zipIdx {α β : Type} (items : List α) (f : Nat → Option β) :
    (items.zipIdx.filterMap fun item => f item.2) = (List.range items.length).filterMap f := by
  have hrange : items.zipIdx.map Prod.snd = List.range items.length := by
    rw [List.zipIdx_map_snd, List.range_eq_range']
  rw [← hrange, List.filterMap_map]
  rfl

/-- The items that are built are the copies that give a node, in order. -/
theorem copies_produce {lower : Level w} {inner : Value} {depth : Nat} {items : List Value}
    {shape? : Nat → Option Shape}
    (hcopies : ∀ i < items.length, ∀ c, copy? ∅ inner ⟨i, .null, depth⟩ = some c → ∀ a',
      (lower.object c .value (depth + 1)).Produces I a' fun r b => a'.Extends b ∧ Option.Rel b.Shows r (shape? i)) :
    (items.zipIdx.filterMapM fun (item, index) =>
      match copy? ∅ inner ⟨index, item, depth⟩ with
      | some copy => lower.object copy .value (depth + 1)
      | none => pure none).Produces I a fun members b =>
        a.Extends b ∧ List.Forall₂ b.Shows members (cells inner depth shape? items) := by
  rw [cells, ← filterMap_zipIdx]
  apply produces_filterMapM stays_shows
  rintro ⟨item, i⟩ hmem a'
  have hi : i < items.length := by
    have hbounds := List.mem_zipIdx hmem
    omega
  have hsame : copy? ∅ inner ⟨i, item, depth⟩ = copy? ∅ inner ⟨i, .null, depth⟩ := by
    rw [copy?_eq, copy?_eq]
  dsimp only
  rw [hsame]
  cases hcopy : copy? ∅ inner ⟨i, .null, depth⟩ with
  | none => exact produces_pure ⟨.refl a', .none⟩
  | some c => exact hcopies i hi c hcopy a'

/-- What a template needs: its data is read as `answer`, and the copies of its body are built to the shapes. -/
structure Supplied (read : String → Run w (Option Value)) (I : w → Prop) (lower : Level w) (data : String)
    (inner : Value) (depth : Nat) (answer : Option Value) (shape? : Nat → Option Shape) : Prop where
  read : ∀ world, I world → ∃ world', read data world = some (answer, world') ∧ I world'
  copies : ∀ items, answer = some (.array items) → ∀ i < items.length, ∀ c,
    copy? ∅ inner ⟨i, .null, depth⟩ = some c → ∀ a,
    (lower.object c .value (depth + 1)).Produces I a fun r b => a.Extends b ∧ Option.Rel b.Shows r (shape? i)

variable {lower : Level w} {data : String} {inner : Value} {depth : Nat} {answer : Option Value}
  {shape? : Nat → Option Shape} {fields : Fields} {r : Repetition}

theorem expand_produces (h : Supplied read I lower data inner depth answer shape?) :
    (expand read ∅ lower data inner depth).Produces I a fun r b => a.Extends b ∧
      Option.Rel b.Shows r ((answer.bind Value.asArray).map fun items =>
        .multi false ((cells inner depth shape? items).map Shape.toValue)) := by
  apply produces_bind
  apply produces_onWorld h.read
  cases answer with
  | none => exact produces_pure ⟨.refl a, .none⟩
  | some v =>
    cases v with
    | array items =>
      apply produces_bind
      apply (copies_produce (h.copies items rfl)).mono
      rintro members b ⟨hext, hshapes⟩
      apply produces_bind
      apply produces_alloc
      exact produces_pure ⟨hext.trans (extends_alloc _ _), .some (shows_alloc_multi false hshapes)⟩
    | _ => exact produces_pure ⟨.refl a, .none⟩

/-! ## Nodes -/

/-- The node that is made for a static template is replaced by its copies. -/
theorem create_produces (h : Supplied read I lower data inner depth answer shape?) (source : Value) :
    ((templates read).create lower (.template data inner depth false) source).Produces I a fun r b => a.Extends b ∧
      Option.Rel b.Shows r ((answer.bind Value.asArray).map fun items =>
        .multi false ((cells inner depth shape? items).map Shape.toValue)) := by
  apply produces_bind
  apply produces_alloc
  rw [templates_settle]
  apply produces_bind
  apply produces_kind?
  rw [kind?_alloc_self]
  apply (expand_produces h).mono
  rintro r b ⟨hext, hrel⟩
  exact ⟨(extends_alloc a _).trans hext, hrel⟩

theorem adoptMembers_produces (id : NodeId) :
    (Hooks.adoptMembers id : Build w Unit).Produces I a fun _ b => a.Extends b := by
  apply produces_bind
  apply produces_kind?
  split
  · exact produces_adopt (extends_adopt _ _ _)
  · exact produces_pure (.refl a)

/-- What is gathered from a template that is all of its object: one child, if the data is an array. -/
def spread (r : Repetition) (inner : Value) (depth : Nat) (answer : Option Value) (shape? : Nat → Option Shape) :
    Sketch :=
  ⟨none, ((answer.bind Value.asArray).map fun items => ⟨[.key r.output], false,
    (Shape.multi false ((cells inner depth shape? items).map Shape.toValue)).toValue⟩).toList⟩

theorem template_produces (hdescribes : Describes fields r inner)
    (h : Supplied read I lower r.data inner depth answer shape?) :
    ((templates read).template lower depth [] .empty (.object fields)).Produces I a fun g b =>
      a.Extends b ∧ g.Shows b (spread r inner depth answer shape?) := by
  have houtput : ((Value.object fields).field? "output").bind outputSegment? = some (.key r.output) := by
    obtain ⟨v, hv, hstring⟩ := Option.bind_eq_some_iff.1 hdescribes.output
    cases v with
    | string name =>
      cases hstring
      rw [Value.field?, hv]
      rfl
    | _ => cases hstring
  have hkind : templateKind (.object fields) depth = .template r.data inner depth false := by
    rw [← hdescribes.data, ← hdescribes.body, ← hdescribes.static]
    rfl
  unfold Hooks.template
  rw [houtput, hkind]
  apply produces_bind
  apply (create_produces h (.object fields)).mono
  rintro node b ⟨hext, hrel⟩
  unfold spread
  generalize answer.bind Value.asArray = items at hrel ⊢
  cases items with
  | none =>
    cases hrel
    exact produces_pure ⟨hext, rfl, .nil⟩
  | some items =>
    cases hrel with
    | some hnode =>
      apply produces_bind
      apply (adoptMembers_produces _).mono
      intro _ b' hext'
      exact produces_pure ⟨hext.trans hext', rfl, .cons ⟨rfl, rfl, (hnode.extends hext').renders⟩ .nil⟩

/-- The content node of what was gathered stays as it is, whatever the extensions. -/
theorem contentNode_produces {exts : List (Extension w)} {g : Gathered} {sketch : Sketch} (hg : g.Shows a sketch)
    (type : ContentType) (source : Value) :
    (do
      let base ← Hooks.contentNode type g
      (Hooks.ofExtensions exts).settle lower base source : Build w (Option NodeId)).Produces I a fun node b =>
        a.Extends b ∧ Option.Rel b.Shows node (sketch.shape? type) := by
  have hsettle : ∀ {r : Option NodeId} {b : Arena}, a.Extends b → Option.Rel b.Shows r (sketch.shape? type) →
      ((Hooks.ofExtensions exts).settle lower r source).Produces I b fun node b' =>
        a.Extends b' ∧ Option.Rel b'.Shows node (sketch.shape? type) := by
    intro r b hext hrel
    apply (produces_of_eq (Hooks.settle_eq_of_settled (settled_of_shows hrel) source)).mono
    rintro _ _ ⟨rfl, rfl⟩
    exact ⟨hext, hrel⟩
  unfold Hooks.contentNode
  unfold Sketch.shape? at hsettle ⊢
  rw [hg.value, hg.isEmpty_eq]
  split
  · rename_i hnothing
    rw [if_pos hnothing] at hsettle
    exact hsettle (.refl a) .none
  · rename_i hsomething
    rw [if_neg hsomething] at hsettle
    have hnode := shows_alloc_content type sketch.value hg.children
    simp only [bind_assoc, pure_bind]
    apply produces_bind
    apply produces_alloc
    apply produces_bind
    apply produces_adopt
    exact hsettle (extends_alloc_adopt _ _ _) (.some (hnode.extends (extends_adopt _ _ _)))

/-- Content that is a template and nothing else gives a node with the copies at the output, if the data is an array. -/
theorem object_produces (hdescribes : Describes fields r inner)
    (h : Supplied read I lower r.data inner depth answer shape?) (type : ContentType) :
    ((templates read).object lower (.object [("template", .array [.object fields])]) type depth).Produces I a
      fun node b => a.Extends b ∧ Option.Rel b.Shows node ((spread r inner depth answer shape?).shape? type) := by
  have hgather : (templates read).gather lower (.object [("template", .array [.object fields])]) type depth [] .empty =
      (templates read).template lower depth [] .empty (.object fields) := by
    change (((templates read).template lower depth [] .empty (.object fields) >>= pure) >>= pure : Build w Gathered) = _
    rw [bind_pure, bind_pure]
  have hobject : (templates read).object lower (.object [("template", .array [.object fields])]) type depth = (do
      let g ← (templates read).template lower depth [] .empty (.object fields)
      let base ← Hooks.contentNode type g
      (templates read).settle lower base (.object [("template", .array [.object fields])])) := by
    rw [← hgather]
    rfl
  rw [hobject]
  apply produces_bind
  apply (template_produces hdescribes h).mono
  rintro g b ⟨hext, hg⟩
  apply (contentNode_produces hg type _).mono
  rintro node b' ⟨hext', hrel⟩
  exact ⟨hext.trans hext', hrel⟩

/-! ## Heights -/

theorem exists_least {n : Nat} {P : Nat → Nat → Prop} (h : ∀ i < n, ∃ least, ∀ height, least ≤ height → P i height) :
    ∃ least, ∀ height, least ≤ height → ∀ i < n, P i height := by
  induction n with
  | zero => exact ⟨0, fun _ _ i hi => absurd hi (Nat.not_lt_zero i)⟩
  | succ n ih =>
    obtain ⟨least, hleast⟩ := ih fun i hi => h i (Nat.lt_succ_of_lt hi)
    obtain ⟨last, hlast⟩ := h n (Nat.lt_succ_self n)
    refine ⟨max least last, ?_⟩
    intro height hheight i hi
    rcases Nat.lt_succ_iff_lt_or_eq.1 hi with hi | rfl
    · exact hleast height (Nat.le_trans (Nat.le_max_left _ _) hheight) i hi
    · exact hlast height (Nat.le_trans (Nat.le_max_right _ _) hheight)

/-- Where every copy is built from some height on, so is the template. -/
theorem Template.Describes.makes (hdescribes : Describes fields r inner)
    (hread : ∀ world, I world → ∃ world', read r.data world = some (answer, world') ∧ I world')
    (hcopies : ∀ items, answer = some (.array items) → ∀ i < items.length, ∀ c,
      copy? ∅ inner ⟨i, .null, depth⟩ = some c → (templates read).Makes I c .value (depth + 1) (shape? i))
    (type : ContentType) :
    (templates read).Makes I (.object [("template", .array [.object fields])]) type depth
      ((spread r inner depth answer shape?).shape? type) := by
  have hleast : ∃ least, ∀ height, least ≤ height →
      Supplied read I ((templates read).level height) r.data inner depth answer shape? := by
    by_cases harray : ∃ items, answer = some (.array items)
    · obtain ⟨items, rfl⟩ := harray
      obtain ⟨least, hleast⟩ := exists_least (n := items.length) (P := fun i height => ∀ c,
          copy? ∅ inner ⟨i, .null, depth⟩ = some c → ∀ a,
          (((templates read).level height).object c .value (depth + 1)).Produces I a fun node b =>
            a.Extends b ∧ Option.Rel b.Shows node (shape? i)) (by
        intro i hi
        cases hc : copy? ∅ inner ⟨i, .null, depth⟩ with
        | none => exact ⟨0, fun _ _ _ h => nomatch h⟩
        | some c =>
          obtain ⟨least, hleast⟩ := hcopies items rfl i hi c hc
          refine ⟨least, ?_⟩
          rintro height hheight _ ⟨⟩
          exact hleast height hheight)
      refine ⟨least, fun height hheight => ⟨hread, ?_⟩⟩
      rintro _ ⟨⟩
      exact hleast height hheight
    · exact ⟨0, fun _ _ => ⟨hread, fun items hitems => absurd ⟨items, hitems⟩ harray⟩⟩
  obtain ⟨least, hleast⟩ := hleast
  refine ⟨least + 1, ?_⟩
  intro height hheight a
  obtain ⟨height, rfl⟩ := Nat.exists_eq_add_of_le' (Nat.le_trans (Nat.le_add_left 1 least) hheight)
  exact object_produces hdescribes (hleast height (Nat.le_of_succ_le_succ hheight)) type

/-- What a level is known to build is built as a tree. -/
theorem Hooks.buildObject_of_produces {hooks : Hooks w} {height : Nat} {v : Value} {type : ContentType} {depth : Nat}
    {t : Option Shape} (h : ((hooks.level height).object v type depth).Produces I .empty fun r b =>
      Arena.empty.Extends b ∧ Option.Rel b.Shows r t) {world : w} (hworld : I world) : ∃ tree last,
      hooks.buildObject height v type depth world = some (tree, last) ∧ I last ∧ Option.Rel Tree.Has tree t := by
  obtain ⟨root, stage, hobject, hlast, -, hrel⟩ := h world hworld
  refine ⟨root.map fun root => ⟨stage.arena, root⟩, stage.world, ?_, hlast, ?_⟩
  · exact Option.bind_eq_some_iff.2 ⟨_, hobject, rfl⟩
  · cases hrel with
    | none => exact .none
    | some hnode => exact .some hnode.has

/-- What is built from some height on is built as a tree. -/
theorem Hooks.Makes.buildObject {hooks : Hooks w} {v : Value} {type : ContentType} {t : Option Shape}
    (h : hooks.Makes I v type depth t) : ∃ least, ∀ height, least ≤ height → ∀ world, I world → ∃ tree last,
      hooks.buildObject height v type depth world = some (tree, last) ∧ I last ∧ Option.Rel Tree.Has tree t := by
  obtain ⟨least, hleast⟩ := h
  exact ⟨least, fun height hheight _ hworld => buildObject_of_produces (hleast height hheight .empty) hworld⟩

end DataBound.View
