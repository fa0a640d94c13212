-- SUMMARY: A builder with the standard extensions goes as the outline of its content does.
import DataBound.Proofs.View.Building
import DataBound.Proofs.View.Follows
import DataBound.Proofs.View.Outline

/-!
# Building what the outline says

The outline of content has no arena, and no world but the data that is read. A builder with the standard extensions
follows it, as long as the conditions and the data that its extensions ask for are the ones that the rules of the outline
name: at every height the builder ends if and only if the outline does, and the node that was built has the shape that the
outline says. So what is built, and whether building ends, depends on nothing but the content, the rules, the depth, and
the data at the start.
-/

namespace DataBound.View

open Arena Build

variable {w σ : Type}

/-! ## Rules that a builder obeys -/

/-- The node type that the extension gives and builds. -/
def Extension.type : Extension w → NodeType
  | .applicability => .applicability
  | .switch _ => .switch
  | .template .. => .template

/-- What the extension asks for is what the rules say, from every state that the world stands over. -/
def Extension.Obeys (stands : w → σ → Prop) (R : Rules (Run σ)) : Extension w → Prop
  | .applicability => True
  | .switch accepts => ∀ v, accepts v = pure (R.accepts v)
  | .template read taps => taps = R.taps ∧ ∀ raw, Serves stands (read raw) (R.read raw)

/-- The hooks are those of the extensions, but for what is done before classified content is built. -/
structure Hooks.Heeds (hooks : Hooks w) (exts : List (Extension w)) (heed : Value → Nat → Run w Unit) : Prop where
  typeOf : hooks.typeOf = (ofExtensions exts).typeOf
  onCreate : hooks.onCreate = (ofExtensions exts).onCreate
  onObject : hooks.onObject = ∅
  onView : hooks.onView = ∅
  build (lower : Level w) (v : Value) (type : ContentType) (depth : Nat) (nodeType : Option NodeType) :
    hooks.build lower v type depth nodeType = (do
      onWorld (heed v depth)
      (ofExtensions exts).build lower v type depth nodeType)

theorem Hooks.ofExtensions_heeds (exts : List (Extension w)) :
    (ofExtensions exts).Heeds exts fun _ _ => pure () where
  typeOf := rfl
  onCreate := rfl
  onObject := ofExtensions_onObject exts
  onView := ofExtensions_onView exts
  build _ _ _ _ _ := rfl

/-- The rules are those of a builder with these extensions, each of which is there once. -/
structure Rules.Govern (R : Rules (Run σ)) (stands : w → σ → Prop) (hooks : Hooks w) (exts : List (Extension w)) :
    Prop where
  distinct : (exts.map Extension.type).Nodup
  typeOf : R.typeOf = (Hooks.ofExtensions exts).typeOf
  obeys : ∀ e ∈ exts, e.Obeys stands R
  heeds : ∃ heed, hooks.Heeds exts heed ∧ ∀ v depth, Serves stands (heed v depth) (R.heed v depth)
  /-- The builder builds all cases and then chooses. -/
  complete : R.skips = false

namespace Extension

theorem type_of_classify {e : Extension w} {v : Value} {type : NodeType} (h : e.classify v = some type) :
    e.type = type := by
  cases e <;> simp only [classify, Applicability.classify, Switch.classify, Template.classify] at h <;>
    split at h <;> cases h <;> rfl

theorem buildNode_of_ne {e : Extension w} {nodeType : NodeType} (h : e.type ≠ nodeType) (lower : Level w) (v : Value)
    (type : ContentType) (depth : Nat) : e.buildNode lower v type depth (some nodeType) = pure none := by
  cases e <;> cases nodeType <;> first | exact absurd rfl h | (cases v <;> rfl)

end Extension

theorem firstAnswer_eq {α β : Type} {ask : α → Build w (Option β)} {before after : List (Tap α)} {key : Tap α}
    (hbefore : ∀ tap ∈ before, ask tap.handler = pure none) (hafter : ∀ tap ∈ after, ask tap.handler = pure none) :
    Hook.firstAnswer ask (before ++ key :: after) = ask key.handler := by
  have hnone : ∀ taps : List (Tap α), (∀ tap ∈ taps, ask tap.handler = pure none) →
      Hook.firstAnswer ask taps = pure none := by
    intro taps htaps
    induction taps with
    | nil => rfl
    | cons tap rest ih =>
      rw [Hook.firstAnswer, htaps tap List.mem_cons_self, pure_bind]
      exact ih fun tap' hmem => htaps tap' (List.mem_cons_of_mem _ hmem)
  induction before with
  | nil =>
    rw [List.nil_append, Hook.firstAnswer, hnone after hafter]
    conv => rhs; rw [← bind_pure (ask key.handler)]
    congr 1
    funext r
    cases r <;> rfl
  | cons tap rest ih =>
    rw [List.cons_append, Hook.firstAnswer, hbefore tap List.mem_cons_self, pure_bind]
    exact ih fun tap' hmem => hbefore tap' (List.mem_cons_of_mem _ hmem)

/-- Classified content is built by the extension that classified it. -/
theorem Hooks.exists_build_eq {exts : List (Extension w)} (hdistinct : (exts.map Extension.type).Nodup) {v : Value}
    {nodeType : NodeType} (h : (ofExtensions exts).typeOf v = some nodeType) :
    ∃ e ∈ exts, e.classify v = some nodeType ∧ ∀ (lower : Level w) (type : ContentType) (depth : Nat),
      (ofExtensions exts).build lower v type depth (some nodeType) =
        e.buildNode lower v type depth (some nodeType) := by
  obtain ⟨e, he, hclassify⟩ := exists_classify_of_typeOf h
  obtain rfl := Extension.type_of_classify hclassify
  refine ⟨e, he, hclassify, ?_⟩
  intro lower type depth
  obtain ⟨before, after, rfl⟩ := List.append_of_mem he
  rw [List.map_append, List.map_cons, List.nodup_append, List.nodup_cons] at hdistinct
  obtain ⟨-, ⟨hafter, -⟩, hbefore⟩ := hdistinct
  unfold build Hook.bail
  rw [ofExtensions_buildNode, List.map_append, List.map_cons]
  apply firstAnswer_eq
  · intro tap htap
    obtain ⟨e', he', rfl⟩ := List.mem_map.1 htap
    exact Extension.buildNode_of_ne
      (hbefore e'.type (List.mem_map_of_mem he') e.type List.mem_cons_self) lower v type depth
  · intro tap htap
    obtain ⟨e', he', rfl⟩ := List.mem_map.1 htap
    refine Extension.buildNode_of_ne ?_ lower v type depth
    intro heq
    exact hafter (heq ▸ List.mem_map_of_mem he')

/-! ## Cases -/

theorem Arena.find?_rel {a : Arena} {cases : List SwitchCase} {shown : List (Value × Shape)}
    (h : List.Forall₂ a.ShowsCase cases shown) (accepts : Value → Bool) :
    Option.Rel a.ShowsCase (cases.find? fun c => accepts c.condition) (shown.find? fun c => accepts c.1) := by
  induction h with
  | nil => exact .none
  | cons hcase _ ih =>
    rw [List.find?_cons, List.find?_cons, hcase.1]
    split
    · exact .some hcase
    · exact ih

/-! ## What follows an outline -/

/-- The node by which a static switch with these cases is replaced: that of the first accepted case, or an empty one. -/
inductive Chosen (R : Rules (Run σ)) (cases : List SwitchCase) (a : Arena) : Option NodeId → Prop
  | accepted {c : SwitchCase} : cases.find? (fun c => R.accepts c.condition) = some c → Chosen R cases a (some c.node)
  | unmatched {id : NodeId} : cases.find? (fun c => R.accepts c.condition) = none → a.kind? id = some .empty →
      Chosen R cases a (some id)

/-- What was gathered has the literal value and the children of the sketch. -/
structure Gathered.Shows (a : Arena) (g : Gathered) (sketch : Sketch) : Prop where
  value : g.value = sketch.value
  children : List.Forall₂ a.ShowsChild g.children sketch.children

/-- What was built has the shape, or is an empty node for an empty shape. -/
inductive Placed (a : Arena) : Option NodeId → Option Shape → Prop
  | node {r : Option NodeId} {t : Option Shape} : Option.Rel a.Shows r t → Placed a r t
  | empty {id : NodeId} : a.kind? id = some .empty → Placed a (some id) (some .empty)

/-- The operations of the level go as the outline says. -/
structure Level.Draws (stands : w → σ → Prop) (R : Rules (Run σ)) (exts : List (Extension w)) (level : Level w)
    (outline : Outline (Run σ)) : Prop where
  object (v : Value) (type : ContentType) (depth : Nat) (a : Arena) :
    (level.object v type depth).Follows stands (fun b => Option.Rel b.Shows) a (outline.object v type depth)
  create (kind : Kind) (source : Value) (a : Arena) : kind.IsFinished →
    (level.create kind source).Follows stands (fun b r _ => r = some a.size ∧ b = (a.alloc kind).2) a outline.alive
  choose {accepts : Value → Run w Bool} (cases : List SwitchCase) (source : Value) (a : Arena) :
    .switch accepts ∈ exts → (∀ c ∈ cases, ∃ k, a.kind? c.node = some k ∧ k.IsFinished) →
    (level.create (.switch false cases) source).Follows stands (fun b r _ => Chosen R cases b r) a outline.alive
  copies {read : String → Run w (Option Value)} {taps : Hook SubstitutionTap} (data : String) (body : Value)
    (depth : Nat) (source : Value) (a : Arena) : .template read taps ∈ exts →
    (level.create (.template data body depth false) source).Follows stands (fun b => Option.Rel b.Shows) a
      (outline.copies data body depth)
  gather (v : Value) (type : ContentType) (depth : Nat) (path : DataPath) (g : Gathered) (sketch : Sketch) (a : Arena) :
    g.Shows a sketch →
    (level.gather v type depth path g).Follows stands (fun b g => g.Shows b) a (outline.gather v depth path sketch)

theorem Level.draws_bottom (stands : w → σ → Prop) (R : Rules (Run σ)) (exts : List (Extension w)) :
    (Level.bottom : Level w).Draws stands R exts .bottom where
  object _ _ _ _ := follows_failure
  create _ _ _ _ := follows_failure
  choose _ _ _ _ _ := follows_failure
  copies _ _ _ _ _ _ := follows_failure
  gather _ _ _ _ _ _ _ _ := follows_failure

theorem stays_shows : Stays Arena.Shows := fun _ _ _ _ hext h => h.extends hext

theorem stays_showsCase : Stays Arena.ShowsCase := fun _ _ _ _ hext h => ⟨h.1, h.2.extends hext⟩

theorem Gathered.Shows.extends {a a' : Arena} {g : Gathered} {sketch : Sketch} (h : g.Shows a sketch)
    (hext : a.Extends a') : g.Shows a' sketch where
  value := h.value
  children := h.children.imp fun _ _ hchild => hchild.extends hext

section

variable {stands : w → σ → Prop} {R : Rules (Run σ)} {hooks : Hooks w} {exts : List (Extension w)} {lower : Level w}
  {outline : Outline (Run σ)} {a b : Arena} {kind : Kind} {id : NodeId}

theorem Rules.Govern.typeOf_eq (hgovern : R.Govern stands hooks exts) : hooks.typeOf = R.typeOf := by
  obtain ⟨heed, hheeds, -⟩ := hgovern.heeds
  rw [hheeds.typeOf, hgovern.typeOf]

theorem Rules.Govern.isOfType_eq (hgovern : R.Govern stands hooks exts) : hooks.isOfType = R.isOfType := by
  unfold Hooks.isOfType Rules.isOfType
  rw [hgovern.typeOf_eq]

/-! ## New nodes -/

theorem settled_of_shows {r : Option NodeId} {t : Option Shape} (h : Option.Rel a.Shows r t) : Settled exts r a := by
  cases h with
  | none => exact nofun
  | some hnode =>
    obtain ⟨kind, hkind, hfinished⟩ := hnode.finished
    exact settled_of_finished hkind hfinished

theorem Chosen.settled {cases : List SwitchCase} {r : Option NodeId} (h : Chosen R cases a r)
    (hcases : ∀ c ∈ cases, ∃ k, a.kind? c.node = some k ∧ k.IsFinished) : Settled exts r a := by
  cases h with
  | @accepted c hfind =>
    obtain ⟨k, hk, hfinished⟩ := hcases c (List.mem_of_find?_eq_some hfind)
    exact settled_of_finished hk hfinished
  | unmatched _ hempty =>
    intro id hid
    cases hid
    refine ⟨.empty, hempty, ?_⟩
    intro e _ hreplaces
    cases e <;> cases hreplaces

theorem Hooks.Heeds.settle_eq {heed : Value → Nat → Run w Unit} (h : hooks.Heeds exts heed) :
    hooks.settle = (ofExtensions exts).settle (w := w) := by
  funext lower node source
  rw [settle, settle, h.onCreate]

/-- Extensions that replace the same kind of node are of the same type. -/
theorem Extension.Replaces.type_eq {e e' : Extension w} (h : e.Replaces kind) (h' : e'.Replaces kind) :
    e.type = e'.type := by
  cases e <;> cases e' <;> cases kind <;> first | rfl | exact h.elim | exact h'.elim

/-- A new node that an extension replaces comes to what the handler of the extension makes of it. -/
theorem Hooks.create_replaced (hgovern : R.Govern stands hooks exts) {e : Extension w} (he : e ∈ exts)
    (hreplaces : e.Replaces kind) {handler : Level w → Option NodeId → Value → Build w (Option NodeId)}
    (hhandler : e.onCreate? = some handler) {τ : Type} {Rel : Arena → Option NodeId → τ → Prop} {o : Run σ τ}
    {source : Value} (hsettled : ∀ b r t, (a.alloc kind).2.Extends b → Rel b r t → Settled exts r b)
    (h : (handler lower (some a.size) source).Follows stands Rel (a.alloc kind).2 o) :
    (hooks.create lower kind source).Follows stands Rel a o := by
  obtain ⟨heed, hheeds, -⟩ := hgovern.heeds
  apply follows_alloc
  rw [hheeds.settle_eq]
  unfold settle Hook.thread
  rw [ofExtensions_onCreate]
  -- no other extension is of this type, so the handlers before and after leave the node alone
  have hothers : ∀ e' ∈ exts, e'.type ≠ e.type → ¬ e'.Replaces kind := fun e' _ hne hreplaces' =>
    hne (hreplaces'.type_eq hreplaces)
  have hdistinct := hgovern.distinct
  obtain ⟨before, after, rfl⟩ := List.append_of_mem he
  rw [List.map_append, List.map_cons, List.nodup_append, List.nodup_cons] at hdistinct
  obtain ⟨-, -, hbefore⟩ := hdistinct
  simp only [List.filterMap_append, List.filterMap_cons, hhandler, Option.map_some]
  apply follows_foldlM_key
  · intro tap htap world
    obtain ⟨e', he', hname⟩ := List.mem_filterMap.1 htap
    obtain ⟨handler', hhandler', rfl⟩ := Option.map_eq_some_iff.1 hname
    apply Extension.onCreate_eq_of_not_replaces hhandler' (kind?_alloc_self _ _)
    apply hothers e' (List.mem_append_left _ he')
    exact hbefore e'.type (List.mem_map_of_mem he') e.type List.mem_cons_self
  · exact h
  · intro b r t hext hrel tap htap world
    obtain ⟨e', he', hname⟩ := List.mem_filterMap.1 htap
    obtain ⟨handler', hhandler', rfl⟩ := Option.map_eq_some_iff.1 hname
    exact Extension.onCreate_eq_of_settled (List.mem_append_right _ (List.mem_cons_of_mem _ he')) hhandler'
      (hsettled b r t hext hrel) source world

/-- A new node of a kind that nothing replaces stays. -/
theorem Hooks.create_follows (hgovern : R.Govern stands hooks exts) (hfinished : kind.IsFinished) (source : Value) :
    (hooks.create lower kind source).Follows stands (fun b r _ => r = some a.size ∧ b = (a.alloc kind).2) a (pure ()) := by
  obtain ⟨heed, hheeds, -⟩ := hgovern.heeds
  apply follows_alloc
  rw [hheeds.settle_eq]
  apply follows_of_eq (y := pure (some a.size))
  · exact settle_eq_of_settled (settled_of_finished (kind?_alloc_self _ _) hfinished) source
  · exact follows_pure ⟨rfl, rfl⟩

theorem Switch.firstAccepted_eq {accepts : Value → Run w Bool} (hobeys : (Extension.switch accepts).Obeys stands R)
    (cases : List SwitchCase) : firstAccepted accepts cases = pure (cases.find? fun c => R.accepts c.condition) := by
  induction cases with
  | nil => rfl
  | cons c rest ih =>
    rw [firstAccepted, hobeys, pure_bind, ih, List.find?_cons]
    cases R.accepts c.condition <;> rfl

theorem Hooks.choose_follows (hgovern : R.Govern stands hooks exts) {accepts : Value → Run w Bool}
    (hmem : .switch accepts ∈ exts) {cases : List SwitchCase}
    (hcases : ∀ c ∈ cases, ∃ k, a.kind? c.node = some k ∧ k.IsFinished) (source : Value) :
    (hooks.create lower (.switch false cases) source).Follows stands (fun b r _ => Chosen R cases b r) a (pure ()) := by
  have hreplaces : (Extension.switch accepts).Replaces (.switch false cases) := rfl
  apply create_replaced hgovern hmem hreplaces rfl
  · intro b r _ hext hchosen
    apply hchosen.settled
    intro c hc
    obtain ⟨k, hk, hfinished⟩ := hcases c hc
    exact ⟨k, hext _ _ (extends_alloc a _ _ _ hk), hfinished⟩
  · apply follows_kind?
    rw [kind?_alloc_self]
    dsimp only
    rw [Switch.firstAccepted_eq (hgovern.obeys _ hmem), onWorld_pure_bind]
    cases hfind : cases.find? fun c => R.accepts c.condition with
    | some c => exact follows_pure (.accepted hfind)
    | none =>
      apply follows_alloc
      exact follows_pure (.unmatched hfind (kind?_alloc_self _ _))

theorem Template.expand_follows (hlower : lower.Draws stands R exts outline) {read : String → Run w (Option Value)}
    {taps : Hook SubstitutionTap} (hobeys : (Extension.template read taps).Obeys stands R) (data : String) (body : Value)
    (depth : Nat) :
    (expand read taps lower data body depth).Follows stands (fun b => Option.Rel b.Shows) a
      (R.copies outline data body depth) := by
  obtain ⟨rfl, hread⟩ := hobeys
  apply follows_bind (hread data).follows
  rintro answer _ b - rfl
  cases answer with
  | none => exact follows_pure .none
  | some v =>
    cases v with
    | array items =>
      apply follows_bind
      · apply follows_filterMapM stays_shows
        rintro ⟨item, index⟩ _ a'
        dsimp only
        cases copy? R.taps body ⟨index, item, depth⟩ with
        | some copy => exact hlower.object copy .value (depth + 1) a'
        | none => exact follows_pure .none
      · intro members shapes a' _ hrel
        apply follows_alloc
        exact follows_pure (.some (shows_alloc_multi false hrel))
    | _ => exact follows_pure .none

theorem Hooks.copies_follows (hlower : lower.Draws stands R exts outline) (hgovern : R.Govern stands hooks exts)
    {read : String → Run w (Option Value)} {taps : Hook SubstitutionTap} (hmem : .template read taps ∈ exts)
    (data : String) (body : Value) (depth : Nat) (source : Value) :
    (hooks.create lower (.template data body depth false) source).Follows stands (fun b => Option.Rel b.Shows) a
      (R.copies outline data body depth) := by
  have hreplaces : (Extension.template read taps).Replaces (.template data body depth false) := rfl
  apply create_replaced hgovern hmem hreplaces rfl
  · exact fun b r t _ hrel => settled_of_shows hrel
  · apply follows_kind?
    rw [kind?_alloc_self]
    exact Template.expand_follows hlower (hgovern.obeys _ hmem) data body depth

/-! ## Classified content -/

theorem Arena.Shows.unlessEmpty {s : Shape} (h : a.Shows id s) : s.unlessEmpty = some s := by
  obtain ⟨kind, hkind, -⟩ := h.finished
  obtain ⟨hfinished, render, rfl⟩ := h.kind_eq hkind
  cases kind with
  | empty => exact hfinished.elim
  | _ => rfl

theorem Applicability.buildNode_follows (hlower : lower.Draws stands R exts outline) (v : Value) (type : ContentType)
    (depth : Nat) :
    (buildNode lower v type depth (some .applicability)).Follows stands Placed a
      (R.make outline v type depth .applicability) := by
  cases v with
  | object fields =>
    apply follows_bind (hlower.object _ type depth a)
    intro body t b _ hbody
    cases hbody with
    | none => exact follows_pure (.node .none)
    | @some body s hbody =>
      apply follows_bind (hlower.create (.applicability _ _) _ b trivial)
      rintro _ _ b' hext ⟨rfl, rfl⟩
      apply follows_kind?
      rw [kind?_alloc_self]
      apply follows_adopt
      exact follows_pure (.node (.some ((shows_alloc_applicability _ hbody).extends (extends_adopt _ _ _))))
  | _ => exact follows_pure (.node .none)

theorem Switch.buildCase_follows (hlower : lower.Draws stands R exts outline) (depth : Nat) (v : Value) :
    (buildCase lower depth v).Follows stands (fun b => Option.Rel b.ShowsCase) a (outline.case depth v) := by
  cases v with
  | object fields =>
    apply follows_bind (hlower.object _ .value depth a)
    intro body t b _ hbody
    cases hbody with
    | none => exact follows_pure .none
    | some hbody => exact follows_pure (.some ⟨rfl, hbody⟩)
  | _ => exact follows_pure .none

theorem finished_of_shows {ids : List Nat} {shapes : List Shape} (h : List.Forall₂ a.Shows ids shapes) :
    ∀ c ∈ ids, ∃ k, a.kind? c = some k ∧ k.IsFinished := by
  induction h with
  | nil => exact nofun
  | cons hnode _ ih =>
    intro c hc
    rcases List.mem_cons.1 hc with rfl | hc
    · exact hnode.finished
    · exact ih c hc

theorem finished_of_showsCases {cases : List SwitchCase} {shown : List (Value × Shape)}
    (h : List.Forall₂ a.ShowsCase cases shown) : ∀ c ∈ cases, ∃ k, a.kind? c.node = some k ∧ k.IsFinished := by
  have hnodes : List.Forall₂ a.Shows (cases.map SwitchCase.node) (shown.map Prod.snd) := by
    rw [List.forall₂_map_left_iff, List.forall₂_map_right_iff]
    exact h.imp fun _ _ hcase => hcase.2
  exact fun c hc => finished_of_shows hnodes c.node (List.mem_map_of_mem hc)

theorem Switch.buildNode_follows (hlower : lower.Draws stands R exts outline) (hgovern : R.Govern stands hooks exts)
    {accepts : Value → Run w Bool} (hmem : .switch accepts ∈ exts) (v : Value) (type : ContentType) (depth : Nat) :
    (buildNode lower v type depth (some .switch)).Follows stands Placed a (R.make outline v type depth .switch) := by
  cases v with
  | object fields =>
    have hcases : ∀ items : List Value, (items.filterMapM (buildCase lower depth)).Follows stands
        (fun b => List.Forall₂ b.ShowsCase) a (items.filterMapM (outline.case depth)) := fun items =>
      follows_filterMapM stays_showsCase fun item _ a' => buildCase_follows hlower depth item
    unfold buildNode Rules.make Rules.switch Rules.shown Rules.firstFound
    rw [hgovern.complete]
    dsimp only
    cases hdynamic : Fields.hasKey fields dynamicField with
    | true =>
      simp only [if_true, bind_assoc, pure_bind]
      apply follows_bind (hcases _)
      intro cases shown b _ hshown
      apply follows_bind (hlower.create (.switch true cases) _ b rfl)
      rintro _ _ b' - ⟨rfl, rfl⟩
      apply follows_kind?
      rw [kind?_alloc_self]
      apply follows_adopt
      exact follows_pure (.node (.some ((shows_alloc_switch hshown).extends (extends_adopt _ _ _))))
    | false =>
      simp only [if_false, Bool.false_eq_true, bind_assoc, pure_bind]
      apply follows_bind (hcases _)
      intro cases shown b _ hshown
      have hfirst := find?_rel hshown R.accepts
      apply follows_bind (hlower.choose cases _ b hmem (finished_of_showsCases hshown))
      intro r _ b' hext hchosen
      generalize (shown.find? fun c => R.accepts c.1) = found at hfirst
      cases hchosen with
      | @accepted c hfind =>
        rw [hfind] at hfirst
        cases hfirst with
        | some hcase =>
          apply follows_kind?
          have hnode := hcase.2.extends hext
          split
          · apply follows_adopt
            exact follows_pure (.node (.some (hnode.extends (extends_adopt _ _ _))))
          · exact follows_pure (.node (.some hnode))
      | unmatched hfind hempty =>
        rw [hfind] at hfirst
        cases hfirst
        apply follows_kind?
        rw [hempty]
        exact follows_pure (.empty hempty)
  | _ => exact follows_pure (.node .none)

theorem Hooks.build_follows (hlower : lower.Draws stands R exts outline) (hgovern : R.Govern stands hooks exts) {v : Value}
    {nodeType : NodeType} (hv : R.typeOf v = some nodeType) (type : ContentType) (depth : Nat) :
    (hooks.build lower v type depth (some nodeType)).Follows stands Placed a (R.build outline v type depth nodeType) := by
  obtain ⟨heed, hheeds, hserves⟩ := hgovern.heeds
  rw [hheeds.build]
  apply follows_bind (hserves v depth).follows
  intro _ _ b _ _
  rw [hgovern.typeOf] at hv
  obtain ⟨e, he, hclassify, hbuild⟩ := exists_build_eq hgovern.distinct hv
  obtain rfl := Extension.type_of_classify hclassify
  rw [hbuild]
  cases e with
  | applicability => exact Applicability.buildNode_follows hlower v type depth
  | switch accepts => exact Switch.buildNode_follows hlower hgovern he v type depth
  | template read taps =>
    obtain rfl := (template_of_typeOf hv).1
    exact (hlower.copies "" .null depth _ b he).imp fun _ _ _ => .node

/-! ## Gathering -/

theorem Placed.renders {s : Shape} (h : Placed a (some id) (some s)) : a.Renders id s.toValue := by
  cases h with
  | node hrel =>
    cases hrel with
    | some hnode => exact hnode.renders
  | empty hempty => exact renders_of_shape hempty fun _ _ _ _ => rfl

theorem Gathered.Shows.pushed {g : Gathered} {sketch : Sketch} (h : g.Shows a sketch) (path : DataPath)
    {r : Option NodeId} {t : Option Shape} (hplaced : Placed a r t) :
    (Hooks.pushed g path r).Shows a (sketch.pushed path t) := by
  cases r with
  | none =>
    cases hplaced with
    | node hrel =>
      cases hrel
      exact h
  | some id =>
    cases t with
    | none =>
      cases hplaced with
      | node hrel => cases hrel
    | some s =>
      refine ⟨h.value, ?_⟩
      exact List.rel_append h.children (.cons ⟨rfl, rfl, hplaced.renders⟩ .nil)

theorem Hooks.adoptMembers_follows (id : NodeId) :
    (adoptMembers id : Build w Unit).Follows stands (fun _ _ _ => True) a (pure ()) := by
  apply follows_kind?
  split
  · intro _ _ hover
    exact .some ⟨hover, extends_adopt _ _ _, trivial⟩
  · exact follows_pure trivial

/-- A node that was made is placed after its members were adopted. -/
theorem Hooks.pushMade_follows {g : Gathered} {sketch : Sketch} (hg : g.Shows a sketch) (path : DataPath) {s : Shape}
    (hnode : a.Shows id s) :
    (do
      adoptMembers id
      pure (g.push path id) : Build w Gathered).Follows stands (fun b g => g.Shows b) a (pure (sketch.push path s)) := by
  apply follows_step (adoptMembers_follows id)
  intro _ b hext _
  exact follows_pure ((hg.extends hext).pushed path (.node (.some (hnode.extends hext))))

theorem Hooks.async_follows (hlower : lower.Draws stands R exts outline) (hgovern : R.Govern stands hooks exts)
    (fields : Fields) (depth : Nat) :
    (hooks.async lower fields depth).Follows stands (fun b => Option.Rel b.Shows) a (outline.async depth fields) := by
  apply follows_bind (hlower.object _ .value depth a)
  intro body t b _ hbody
  cases hbody with
  | none => exact follows_pure .none
  | @some body s hbody =>
    obtain ⟨kind, hkind, -⟩ := hbody.finished
    obtain ⟨-, render, rfl⟩ := hbody.kind_eq hkind
    apply follows_kind?
    rw [hkind, Option.bind_some, Option.bind_some, Kind.id?_shape]
    cases kind.id? with
    | none => exact follows_pure .none
    | some text =>
      apply follows_step (create_follows hgovern (show (Kind.async text body).IsFinished from trivial) _)
      rintro _ _ - ⟨rfl, rfl⟩
      apply follows_kind?
      rw [kind?_alloc_self]
      apply follows_adopt
      exact follows_pure (.some ((shows_alloc_async text hbody).extends (extends_adopt _ _ _)))

theorem Hooks.template_follows (hlower : lower.Draws stands R exts outline) (hgovern : R.Govern stands hooks exts)
    {read : String → Run w (Option Value)} {taps : Hook SubstitutionTap} (hmem : .template read taps ∈ exts)
    (depth : Nat) (path : DataPath) {g : Gathered} {sketch : Sketch} (hg : g.Shows a sketch) (descriptor : Value) :
    (hooks.template lower depth path g descriptor).Follows stands (fun b g => g.Shows b) a
      (R.template outline depth path sketch descriptor) := by
  unfold template Rules.template templateKind
  generalize (descriptor.field? "output").bind outputSegment? = output
  cases output with
  | none => exact follows_pure hg
  | some output =>
    dsimp only
    generalize ((descriptor.field? "data").bind Value.asString).getD "" = data
    generalize (descriptor.field? "value").getD .null = body
    unfold Rules.expanded
    cases ((descriptor.field? "dynamic").bind Value.asBool).getD false with
    | true =>
      have hfinished : (Kind.template data body depth true).IsFinished := rfl
      rw [if_pos rfl, pure_bind]
      apply follows_step (create_follows hgovern hfinished descriptor)
      rintro _ _ hext ⟨rfl, rfl⟩
      exact pushMade_follows (hg.extends hext) _ (shows_alloc hfinished fun _ _ _ _ => rfl)
    | false =>
      rw [if_neg Bool.false_ne_true]
      apply follows_bind (copies_follows hlower hgovern hmem data body depth descriptor)
      intro node t b hext hrel
      cases hrel with
      | none => exact follows_pure (hg.extends hext)
      | some hnode => exact pushMade_follows (hg.extends hext) _ hnode

theorem Hooks.members_follows (hlower : lower.Draws stands R exts outline) (hgovern : R.Govern stands hooks exts)
    (depth : Nat) (path : DataPath) {g : Gathered} {sketch : Sketch} (hg : g.Shows a sketch) (overrides : Bool)
    (items : List Value) :
    (hooks.members lower depth path g overrides items).Follows stands (fun b g => g.Shows b) a
      (outline.members depth path sketch overrides items) := by
  apply follows_bind (follows_filterMapM stays_shows fun item _ a' => hlower.object item .value depth a')
  intro nodes shapes b hext hshapes
  have hempty : shapes.isEmpty = nodes.isEmpty := by
    cases hshapes <;> rfl
  rw [hempty]
  split
  · exact follows_pure (hg.extends hext)
  · apply follows_step (create_follows hgovern (show (Kind.multi overrides nodes).IsFinished from trivial) _)
    rintro _ _ hext' ⟨rfl, rfl⟩
    exact pushMade_follows (hg.extends (hext.trans hext')) path (shows_alloc_multi overrides hshapes)

/-- A switch is placed as a child as its shape says. -/
theorem showsChild_switchChild {s : Shape} (h : a.Shows id s) (path : DataPath) :
    a.ShowsChild (switchChild (a.kind? id) id path) (s.child path) := by
  have hself : a.ShowsChild ⟨path, false, id⟩ ⟨path, false, s.toValue⟩ := ⟨rfl, rfl, h.renders⟩
  obtain ⟨kind, hkind, -, hshape⟩ := h
  have hlt := lt_size_of_kind? hkind
  obtain rfl := hshape a a.size (.refl a) (Nat.le_succ _)
  rw [hkind]
  unfold switchChild
  split
  · rename_i only heq
    cases heq
    refine ⟨rfl, rfl, ?_⟩
    intro a' depth hext hdepth
    have hsame := hshape a' depth hext (Nat.le_succ_of_le hdepth)
    simp only [Kind.shape, Shape.content.injEq, List.map_cons, List.map_nil, List.cons.injEq, ShownChild.mk.injEq,
      true_and, and_true] at hsame
    exact hsame
  · rename_i hnot
    cases kind with
    | content type value children =>
      rcases children with - | ⟨only, - | ⟨second, rest⟩⟩
      · cases type <;> cases value <;> exact hself
      · cases type <;> cases value <;> first | exact hself | exact absurd rfl (hnot only)
      · cases type <;> cases value <;> exact hself
    | _ => exact hself

/-- What is left out is what is empty. -/
theorem Hooks.unlessEmpty_follows {t : Option Shape} (h : Placed a (some id) t) :
    (unlessEmpty id).Follows stands (fun b => Option.Rel b.Shows) a (pure (t.bind Shape.unlessEmpty)) := by
  apply follows_kind?
  cases h with
  | empty hempty =>
    rw [hempty]
    exact follows_pure .none
  | node hrel =>
    cases hrel with
    | some hnode =>
      obtain ⟨kind, hkind, hfinished⟩ := hnode.finished
      rw [hkind, Option.bind_some, hnode.unlessEmpty]
      split
      · rename_i heq
        cases heq
        exact hfinished.elim
      · exact follows_pure (.some hnode)

theorem Hooks.switch_follows (hlower : lower.Draws stands R exts outline) (hgovern : R.Govern stands hooks exts) (depth : Nat)
    (path : DataPath) {g : Gathered} {sketch : Sketch} (hg : g.Shows a sketch) {v : Value}
    (hv : R.typeOf v = some .switch) :
    (hooks.switch lower depth path g v).Follows stands (fun b g => g.Shows b) a
      (R.placeSwitch outline depth path sketch v) := by
  have hsame : ({ sketch with children := sketch.children ++ [] } : Sketch) = sketch := by
    rw [List.append_nil]
  apply follows_bind (build_follows hlower hgovern hv .value depth)
  intro built t b hext hplaced
  have hgb := hg.extends hext
  cases built with
  | none =>
    cases hplaced with
    | node hrel =>
      cases hrel
      exact follows_pure (hsame.symm ▸ hgb)
  | some built =>
    refine follows_bind (F := fun shown =>
      pure { sketch with children := sketch.children ++ (shown.map (Shape.child path)).toList })
      (unlessEmpty_follows hplaced) ?_
    intro r shown b' hext' hrel
    have hgb' := hgb.extends hext'
    cases hrel with
    | none => exact follows_pure (hsame.symm ▸ hgb')
    | some hnode =>
      apply follows_kind?
      refine follows_pure ⟨hgb'.value, ?_⟩
      exact List.rel_append hgb'.children (.cons (showsChild_switchChild hnode path) .nil)

theorem Hooks.entry_follows (hlower : lower.Draws stands R exts outline) (hgovern : R.Govern stands hooks exts) (around : Value)
    (type : ContentType) (depth : Nat) (path : DataPath) {g : Gathered} {sketch : Sketch} (hg : g.Shows a sketch)
    (key : Segment) (v : Value) :
    (hooks.entry lower around type depth path g key v).Follows stands (fun b g => g.Shows b) a
      (R.entry outline around depth path sketch key v) := by
  have hpushed : ∀ (here : DataPath) (x : Build w (Option NodeId)) (s : Run σ (Option Shape)),
      x.Follows stands Placed a s →
      (do pure (pushed g here (← x)) : Build w Gathered).Follows stands (fun b g => g.Shows b) a
        (do pure (sketch.pushed here (← s))) := by
    intro here x s hx
    apply follows_bind hx
    intro r t b hext hrel
    exact follows_pure ((hg.extends hext).pushed here hrel)
  unfold entry Rules.entry
  rw [hgovern.isOfType_eq]
  dsimp only
  split
  · exact hpushed _ _ _ ((hlower.object v .asset depth a).imp fun _ _ _ => .node)
  split
  · rename_i htemplate
    obtain ⟨name, -, hname⟩ : ∃ name, key.asKey = some name ∧ R.isOfType .template (.string name) = true := by
      simpa [Option.any_eq_true] using (Bool.and_eq_true_iff.1 htemplate).2
    rw [Rules.isOfType, hgovern.typeOf, beq_iff_eq] at hname
    obtain ⟨-, read, taps, hmem⟩ := template_of_typeOf hname
    apply follows_foldlM hg
    intro descriptor _ g' sketch' b hg'
    exact template_follows hlower hgovern hmem depth path hg' descriptor
  split
  · rename_i hswitch
    exact switch_follows hlower hgovern depth _ hg (beq_iff_eq.1 (Bool.and_eq_true_iff.1 hswitch).2)
  cases v with
  | object fields =>
    dsimp only
    split
    · exact hpushed _ _ _ ((async_follows hlower hgovern fields depth).imp fun _ _ _ => .node)
    split
    · rename_i happlicability
      exact hpushed _ _ _ (build_follows hlower hgovern (beq_iff_eq.1 happlicability) .value depth)
    · exact hlower.gather _ type depth _ g sketch a hg
  | array items => exact members_follows hlower hgovern depth _ hg _ items
  | _ => exact follows_pure ⟨by simp [Gathered.place, Sketch.place, hg.value], hg.children⟩

theorem Hooks.gather_follows (hlower : lower.Draws stands R exts outline) (hgovern : R.Govern stands hooks exts) (v : Value)
    (type : ContentType) (depth : Nat) (path : DataPath) {g : Gathered} {sketch : Sketch} (hg : g.Shows a sketch) :
    (hooks.gather lower v type depth path g).Follows stands (fun b g => g.Shows b) a
      (R.gather outline v depth path sketch) := by
  unfold gather Rules.gather
  split
  · exact follows_pure ⟨rfl, .nil⟩
  · have hchanged : (hooks.changed v type : Build w _) = pure (some v) := by
      obtain ⟨heed, hheeds, -⟩ := hgovern.heeds
      rw [changed, hheeds.onObject]
      rfl
    rw [hchanged]
    apply follows_foldlM hg
    intro item _ g' sketch' b hg'
    exact entry_follows hlower hgovern v type depth path hg' item.1 item.2

/-! ## Levels -/

theorem Gathered.Shows.isEmpty_eq {g : Gathered} {sketch : Sketch} (h : g.Shows a sketch) :
    g.children.isEmpty = sketch.children.isEmpty := by
  rw [Bool.eq_iff_iff, List.isEmpty_iff_length_eq_zero, List.isEmpty_iff_length_eq_zero, h.children.length_eq]

theorem Hooks.contentNode_follows (type : ContentType) {g : Gathered} {sketch : Sketch} (hg : g.Shows a sketch) :
    (contentNode type g).Follows stands (fun b => Option.Rel b.Shows) a (pure (sketch.shape? type)) := by
  unfold contentNode Sketch.shape?
  rw [hg.value, hg.isEmpty_eq]
  split
  · exact follows_pure .none
  · apply follows_alloc
    apply follows_adopt
    have hnode := shows_alloc_content type sketch.value hg.children
    exact follows_pure (.some (hnode.extends (extends_adopt _ _ _)))

theorem Hooks.object_follows (hlower : lower.Draws stands R exts outline) (hgovern : R.Govern stands hooks exts) (v : Value)
    (type : ContentType) (depth : Nat) :
    (hooks.object lower v type depth).Follows stands (fun b => Option.Rel b.Shows) a
      (R.object outline v type depth) := by
  -- a value that no handler builds is gathered
  have hcontent : ∀ b, (do
      let g ← hooks.gather lower v type depth [] .empty
      let base ← contentNode type g
      hooks.settle lower base v).Follows stands (fun b => Option.Rel b.Shows) b
        (do
          let g ← R.gather outline v depth [] .empty
          pure (g.shape? type)) := by
    intro b
    apply follows_bind (gather_follows hlower hgovern v type depth [] ⟨rfl, .nil⟩)
    intro g sketch b' _ hg
    refine follows_bind (F := fun shape => pure shape) (contentNode_follows type hg) ?_
    intro base shape b'' _ hrel
    obtain ⟨heed, hheeds, -⟩ := hgovern.heeds
    rw [hheeds.settle_eq]
    apply follows_of_eq (y := pure base)
    · exact settle_eq_of_settled (settled_of_shows hrel) v
    · exact follows_pure hrel
  unfold object Rules.object Rules.built
  rw [hgovern.typeOf_eq]
  dsimp only
  cases htype : R.typeOf v with
  | none => exact hcontent a
  | some nodeType =>
    apply follows_bind (build_follows hlower hgovern htype type depth)
    intro built t b _ hplaced
    cases built with
    | some built =>
      cases t with
      | none =>
        cases hplaced with
        | node hrel => cases hrel
      | some s => exact unlessEmpty_follows hplaced
    | none =>
      cases hplaced with
      | node hrel =>
        cases hrel
        exact hcontent b

/-- At every height the builder goes as the outline does. -/
theorem Hooks.level_draws (hgovern : R.Govern stands hooks exts) (height : Nat) :
    (hooks.level height).Draws stands R exts (R.outline height) := by
  induction height with
  | zero => exact Level.draws_bottom stands R exts
  | succ height ih =>
    refine ⟨?_, ?_, ?_, ?_, ?_⟩
    · exact fun v type depth a => object_follows ih hgovern v type depth
    · exact fun kind source a hfinished => create_follows hgovern hfinished source
    · exact fun cases source a hmem hcases => choose_follows hgovern hmem hcases source
    · exact fun data body depth source a hmem => copies_follows ih hgovern hmem data body depth source
    · exact fun v type depth path g sketch a hg => gather_follows ih hgovern v type depth path hg

end

/-! ## Trees that are built -/

/-- The tree, if there is one, has the shape. -/
def Tree.Has (tree : Tree) (s : Shape) : Prop :=
  tree.toValue = s.toValue ∧ tree.arena.type? tree.root = some s.nodeType

theorem Arena.Shows.has {a : Arena} {id : NodeId} {s : Shape} (h : a.Shows id s) : Tree.Has ⟨a, id⟩ s :=
  ⟨h.renders a _ (.refl _) (Nat.le_succ _), h.nodeType_eq⟩

theorem toValue_eq_of_has {r : Option Tree} {t : Option Shape} (h : Option.Rel Tree.Has r t) :
    r.map Tree.toValue = t.map Shape.toValue := by
  cases h with
  | none => rfl
  | some hhas => exact congrArg some hhas.1

/-- The tree as that of a view. -/
def usable : Option Tree → Except Error Tree
  | none => .error (.unusableView .nothingBuilt)
  | some tree =>
    let type := (tree.arena.type? tree.root).getD .unknown
    if type = .view then .ok tree else .error (.unusableView (.rootIs type.name))

theorem usable_eq_outcome {r : Option Tree} {t : Option Shape} (h : Option.Rel Tree.Has r t) :
    (usable r).map Tree.toValue = outcome t := by
  cases h with
  | none => rfl
  | @some tree s hhas =>
    obtain ⟨hvalue, htype⟩ := hhas
    simp only [usable, outcome, htype, Option.getD_some]
    split
    · exact congrArg Except.ok hvalue
    · rfl

namespace Hooks

variable {stands : w → σ → Prop} {R : Rules (Run σ)} {hooks : Hooks w} {exts : List (Extension w)} {world : w} {h : σ}

/-- Building a tree goes as the outline does. -/
theorem buildObject_outline (hgovern : R.Govern stands hooks exts) (hover : stands world h) (limit : Nat) (v : Value)
    (type : ContentType) (depth : Nat) :
    Option.Rel (fun last t => stands last.2 t.2 ∧ Option.Rel Tree.Has last.1 t.1)
      (hooks.buildObject limit v type depth world) ((R.outline limit).object v type depth h) := by
  rw [← Option.bind_fun_some ((R.outline limit).object v type depth h)]
  apply rel_bind ((level_draws hgovern limit).object v type depth .empty world h hover)
  rintro ⟨root, stage⟩ ⟨t, h'⟩ ⟨hover', -, hrel⟩
  refine .some ⟨hover', ?_⟩
  cases hrel with
  | none => exact .none
  | some hnode => exact .some hnode.has

theorem buildView_run (honView : hooks.onView = ∅) (limit : Nat) {v : Value} (hv : v.isObject = true) (depth : Nat)
    (world : w) :
    (hooks.buildView limit v depth).run.run world =
      (hooks.buildObject limit v .view depth world).map fun last => (usable last.1, last.2) := by
  have hlift : (liftM (hooks.buildObject limit v .view depth) : Action w (Option Tree)).run.run world =
      (hooks.buildObject limit v .view depth world).map fun last => (.ok last.1, last.2) := by
    simp only [liftM, monadLift, MonadLift.monadLift, ExceptT.lift, ExceptT.run, ExceptT.mk, StateT.run, Functor.map,
      StateT.map]
    cases hooks.buildObject limit v .view depth world <;> rfl
  have hview : hooks.buildView limit v depth =
      (liftM (hooks.buildObject limit v .view depth) : Action w (Option Tree)) >>= fun r => ExceptT.mk (pure (usable r)) := by
    unfold buildView
    rw [honView, hv]
    refine bind_congr fun r => ?_
    cases r with
    | none => rfl
    | some tree =>
      dsimp only [usable]
      generalize (tree.arena.type? tree.root).getD .unknown = type
      cases type <;> rfl
  rw [hview]
  cases hrun : hooks.buildObject limit v .view depth world with
  | none =>
    rw [hrun] at hlift
    exact Action.bind_run_none hlift
  | some last =>
    rw [hrun] at hlift
    exact Action.bind_run_ok hlift

/-- Building a view goes as the outline says. -/
theorem buildView_outline (hgovern : R.Govern stands hooks exts) (hover : stands world h) (limit : Nat) (v : Value)
    (depth : Nat) :
    Option.Rel (fun last t => stands last.2 t.2 ∧ last.1.map Tree.toValue = t.1)
      ((hooks.buildView limit v depth).run.run world) (R.view limit v depth h) := by
  obtain ⟨heed, hheeds, -⟩ := hgovern.heeds
  unfold Rules.view
  cases hv : v.isObject with
  | false =>
    unfold buildView
    rw [hv]
    exact .some ⟨hover, rfl⟩
  | true =>
    rw [buildView_run hheeds.onView limit hv, Option.map_eq_bind, if_pos rfl]
    apply rel_bind (buildObject_outline hgovern hover limit v .view depth)
    rintro last ⟨t, h'⟩ ⟨hover', hrel⟩
    exact .some ⟨hover', usable_eq_outcome hrel⟩

end Hooks

end DataBound.View
