-- SUMMARY: Builders whose runs, as far as they end in a good world, are runs of other builders.
import DataBound.Proofs.View.Extension
import Mathlib.Data.List.Forall2

/-!
# Runs within a condition

`Within J x y` says that every run of `x` that ends with `J` started with `J` and is a run of `y`. So `x` may do other
things than `y`, but only where `J` is lost for good. Builders are made of the same steps up to what their extensions ask
of the world; if what is asked stays within what another list of extensions asks, so do the builders.
-/

namespace DataBound.View

variable {σ w α β γ δ : Type}

/-- Every run of `x` that ends with `J` started with it, and is a run of `y`. -/
def Within (J : σ → Prop) (x y : Run σ α) : Prop :=
  ∀ s r s', x s = some (r, s') → J s' → J s ∧ y s = some (r, s')

/-! ## Steps -/

section

variable {J : σ → Prop}

theorem within_none {y : Run σ α} : Within J (fun _ => none) y := nofun

theorem within_pure (r : α) : Within J (pure r : Run σ α) (pure r) := by
  rintro s _ _ ⟨⟩ hs
  exact ⟨hs, rfl⟩

theorem within_bind {x y : Run σ α} {f g : α → Run σ β} (hxy : Within J x y) (hfg : ∀ r, Within J (f r) (g r)) :
    Within J (x >>= f) (y >>= g) := by
  intro s r s' h hs'
  obtain ⟨⟨b, s₁⟩, hx, hf⟩ := Option.bind_eq_some_iff.1 h
  obtain ⟨hs₁, hg⟩ := hfg b s₁ r s' hf hs'
  obtain ⟨hs, hy⟩ := hxy s b s₁ hx hs₁
  exact ⟨hs, Option.bind_eq_some_iff.2 ⟨_, hy, hg⟩⟩

theorem within_foldlM {f : β → γ → Run σ β} {g : β → δ → Run σ β} {items : List γ} {items' : List δ} {start : β}
    (h : List.Forall₂ (fun item item' => ∀ b, Within J (f b item) (g b item')) items items') :
    Within J (items.foldlM f start) (items'.foldlM g start) := by
  induction h generalizing start with
  | nil => exact within_pure start
  | cons hitem _ ih =>
    rw [List.foldlM_cons, List.foldlM_cons]
    exact within_bind (hitem start) fun b => ih

theorem within_filterMapM {f g : γ → Run σ (Option β)} {items : List γ}
    (h : ∀ item ∈ items, Within J (f item) (g item)) : Within J (items.filterMapM f) (items.filterMapM g) := by
  induction items with
  | nil => exact within_pure []
  | cons item rest ih =>
    have hrest := ih fun item' hmem => h item' (List.mem_cons_of_mem _ hmem)
    rw [List.filterMapM_cons, List.filterMapM_cons]
    apply within_bind (h item List.mem_cons_self)
    intro r
    cases r with
    | none => exact hrest
    | some b => exact within_bind hrest fun _ => within_pure _

theorem within_lift {x y : Run σ α} (hxy : Within J x y) :
    Within J (liftM x : Action σ α).run (liftM y : Action σ α).run := by
  have hlift : ∀ z : Run σ α, (liftM z : Action σ α).run = z >>= fun a => pure (.ok a) := fun _ => rfl
  rw [hlift, hlift]
  exact within_bind hxy fun a => within_pure _

theorem within_bindAction {x y : Action σ α} {f g : α → Action σ β} (hxy : Within J x.run y.run)
    (hfg : ∀ r, Within J (f r).run (g r).run) : Within J (x >>= f).run (y >>= g).run := by
  rw [ExceptT.run_bind, ExceptT.run_bind]
  apply within_bind hxy
  intro r
  cases r with
  | error e => exact within_pure _
  | ok a => exact hfg a

end

/-- A condition on the world of a stage. -/
def Stage.Meets (J : w → Prop) (stage : Stage w) : Prop := J stage.world

variable {J : w → Prop}

namespace Build

theorem within_onArena (change : Arena → α × Arena) :
    Within (Stage.Meets J) (onArena change) (onArena change) := by
  rintro s _ _ ⟨⟩ hs
  exact ⟨hs, rfl⟩

theorem within_onWorld {run run' : Run w α} (h : Within J run run') :
    Within (Stage.Meets J) (onWorld run) (onWorld run') := by
  intro s r s' hrun hs'
  obtain ⟨⟨b, world⟩, hb, hlast⟩ := Option.bind_eq_some_iff.1 hrun
  cases hlast
  obtain ⟨hs, hb'⟩ := h _ _ _ hb hs'
  exact ⟨hs, Option.bind_eq_some_iff.2 ⟨_, hb', rfl⟩⟩

end Build

open Build

/-! ## Extensions -/

/-- What the first extension asks of the world stays within what the second one asks. -/
inductive Extension.Within (J : w → Prop) : Extension w → Extension w → Prop
  | applicability : Extension.Within J .applicability .applicability
  | switch {accepts accepts' : Value → Run w Bool} : (∀ v, View.Within J (accepts v) (accepts' v)) →
      Extension.Within J (.switch accepts) (.switch accepts')
  | template {read read' : String → Run w (Option Value)} (taps : Hook SubstitutionTap) :
      (∀ raw, View.Within J (read raw) (read' raw)) → Extension.Within J (.template read taps) (.template read' taps)

/-- The operations of the first level stay within those of the second one. -/
structure Level.Within (J : w → Prop) (level level' : Level w) : Prop where
  object (v : Value) (type : ContentType) (depth : Nat) :
    View.Within (Stage.Meets J) (level.object v type depth) (level'.object v type depth)
  create (kind : Kind) (source : Value) :
    View.Within (Stage.Meets J) (level.create kind source) (level'.create kind source)
  gather (v : Value) (type : ContentType) (depth : Nat) (path : DataPath) (g : Gathered) :
    View.Within (Stage.Meets J) (level.gather v type depth path g) (level'.gather v type depth path g)

section

variable {e e' : Extension w} {exts exts' : List (Extension w)} {lower lower' : Level w}

theorem Extension.Within.name_eq (h : e.Within J e') : e.name = e'.name := by
  cases h <;> rfl

theorem Extension.Within.classify_eq (h : e.Within J e') : e.classify = e'.classify := by
  cases h <;> rfl

theorem Extension.Within.buildNode_eq (h : e.Within J e') : e.buildNode = e'.buildNode := by
  cases h <;> rfl

theorem Hooks.classify_eq_of_within (h : List.Forall₂ (Extension.Within J) exts exts') :
    (ofExtensions exts).classify.taps = (ofExtensions exts').classify.taps := by
  rw [ofExtensions_classify, ofExtensions_classify]
  induction h with
  | nil => rfl
  | cons he _ ih => rw [List.map_cons, List.map_cons, he.name_eq, he.classify_eq, ih]

theorem Hooks.typeOf_eq_of_within (h : List.Forall₂ (Extension.Within J) exts exts') (v : Value) :
    (ofExtensions exts).typeOf v = (ofExtensions exts').typeOf v := by
  unfold typeOf Hook.bail
  rw [classify_eq_of_within h]

/-! ## Building -/

theorem Switch.firstAccepted_within {accepts accepts' : Value → Run w Bool}
    (h : ∀ v, Within J (accepts v) (accepts' v)) (cases : List SwitchCase) :
    Within J (firstAccepted accepts cases) (firstAccepted accepts' cases) := by
  induction cases with
  | nil => exact within_pure none
  | cons c rest ih =>
    apply within_bind (h c.condition)
    intro accepted
    cases accepted with
    | true => exact within_pure (some c)
    | false => exact ih

theorem Template.expand_within (hlower : lower.Within J lower') {read read' : String → Run w (Option Value)}
    (h : ∀ raw, Within J (read raw) (read' raw)) (taps : Hook SubstitutionTap) (data : String) (body : Value)
    (depth : Nat) :
    Within (Stage.Meets J) (expand read taps lower data body depth) (expand read' taps lower' data body depth) := by
  apply within_bind (within_onWorld (h data))
  intro found
  split
  · refine within_bind (within_filterMapM ?_) fun members => within_bind (within_onArena _) fun _ => within_pure _
    rintro ⟨item, index⟩ _
    dsimp only
    cases copy? taps body ⟨index, item, depth⟩ with
    | some copy => exact hlower.object copy .value (depth + 1)
    | none => exact within_pure none
  · exact within_pure none

/-- Handlers of new nodes. -/
theorem Extension.Within.onCreate (hlower : lower.Within J lower') (h : e.Within J e') :
    Option.Rel (fun handler handler' => ∀ node source,
      View.Within (Stage.Meets J) (handler lower node source) (handler' lower' node source)) e.onCreate? e'.onCreate? := by
  cases h with
  | applicability => exact .none
  | switch h =>
    refine .some fun node source => ?_
    cases node with
    | none => exact within_pure none
    | some id =>
      apply within_bind (within_onArena _)
      intro kind
      split
      · apply within_bind (within_onWorld (Switch.firstAccepted_within h _))
        intro chosen
        cases chosen with
        | some c => exact within_pure _
        | none => exact within_bind (within_onArena _) fun _ => within_pure _
      · exact within_pure _
  | template taps h =>
    refine .some fun node source => ?_
    cases node with
    | none => exact within_pure none
    | some id =>
      apply within_bind (within_onArena _)
      intro kind
      split
      · exact Template.expand_within hlower h taps _ _ _
      · exact within_pure _

theorem Hooks.settle_within (hlower : lower.Within J lower') (h : List.Forall₂ (Extension.Within J) exts exts')
    (node : Option NodeId) (source : Value) :
    Within (Stage.Meets J) ((ofExtensions exts).settle lower node source)
      ((ofExtensions exts').settle lower' node source) := by
  unfold settle Hook.thread
  rw [ofExtensions_onCreate, ofExtensions_onCreate]
  apply within_foldlM
  apply List.rel_filterMap _ h
  intro e e' he
  have hrel := he.onCreate hlower
  dsimp only
  generalize e.onCreate? = handler at hrel ⊢
  generalize e'.onCreate? = handler' at hrel ⊢
  cases hrel with
  | none => exact .none
  | some hhandler => exact .some fun current => hhandler current source

theorem Hooks.create_within (hlower : lower.Within J lower') (h : List.Forall₂ (Extension.Within J) exts exts')
    (kind : Kind) (source : Value) :
    Within (Stage.Meets J) ((ofExtensions exts).create lower kind source)
      ((ofExtensions exts').create lower' kind source) :=
  within_bind (within_onArena _) fun id => settle_within hlower h (some id) source

theorem Applicability.buildNode_within (hlower : lower.Within J lower') (v : Value) (type : ContentType) (depth : Nat)
    (nodeType : Option NodeType) :
    Within (Stage.Meets J) (buildNode lower v type depth nodeType) (buildNode lower' v type depth nodeType) := by
  unfold buildNode
  split
  · apply within_bind (hlower.object _ type depth)
    intro body
    cases body with
    | none => exact within_pure none
    | some body =>
      apply within_bind (hlower.create _ _)
      intro node
      cases node with
      | none => exact within_pure none
      | some node =>
        apply within_bind (within_onArena _)
        intro kind
        split
        · exact within_bind (within_onArena _) fun _ => within_pure _
        · exact within_pure _
  · exact within_pure none

theorem Switch.buildCase_within (hlower : lower.Within J lower') (depth : Nat) (v : Value) :
    Within (Stage.Meets J) (buildCase lower depth v) (buildCase lower' depth v) := by
  cases v with
  | object fields =>
    apply within_bind (hlower.object _ .value depth)
    intro node
    cases node with
    | none => exact within_pure none
    | some node => exact within_pure _
  | _ => exact within_pure none

theorem Switch.buildNode_within (hlower : lower.Within J lower') (v : Value) (type : ContentType) (depth : Nat)
    (nodeType : Option NodeType) :
    Within (Stage.Meets J) (buildNode lower v type depth nodeType) (buildNode lower' v type depth nodeType) := by
  unfold buildNode
  split
  · apply within_bind (within_filterMapM fun c _ => buildCase_within hlower depth c)
    intro cases
    apply within_bind (hlower.create _ _)
    intro node
    cases node with
    | none => exact within_pure none
    | some node =>
      apply within_bind (within_onArena _)
      intro kind
      split
      · exact within_bind (within_onArena _) fun _ => within_pure _
      · exact within_pure _
  · exact within_pure none

theorem Template.buildNode_within (hlower : lower.Within J lower') (v : Value) (type : ContentType) (depth : Nat)
    (nodeType : Option NodeType) :
    Within (Stage.Meets J) (buildNode lower v type depth nodeType) (buildNode lower' v type depth nodeType) := by
  unfold buildNode
  split
  · exact hlower.create _ v
  · exact within_pure none

theorem Hooks.build_within (hlower : lower.Within J lower') (h : List.Forall₂ (Extension.Within J) exts exts')
    (v : Value) (type : ContentType) (depth : Nat) (nodeType : Option NodeType) :
    Within (Stage.Meets J) ((ofExtensions exts).build lower v type depth nodeType)
      ((ofExtensions exts').build lower' v type depth nodeType) := by
  unfold build Hook.bail
  rw [ofExtensions_buildNode, ofExtensions_buildNode]
  induction h with
  | nil => exact within_pure none
  | @cons e e' _ _ he _ ih =>
    rw [List.map_cons, List.map_cons, Hook.firstAnswer, Hook.firstAnswer, ← he.buildNode_eq]
    have hasked : Within (Stage.Meets J) (e.buildNode lower v type depth nodeType)
        (e.buildNode lower' v type depth nodeType) := by
      cases e with
      | applicability => exact Applicability.buildNode_within hlower v type depth nodeType
      | switch accepts => exact Switch.buildNode_within hlower v type depth nodeType
      | template read taps => exact Template.buildNode_within hlower v type depth nodeType
    apply within_bind hasked
    intro answer
    cases answer with
    | none => exact ih
    | some node => exact within_pure _

/-! ## Gathering -/

theorem Hooks.unlessEmpty_within (id : NodeId) :
    Within (Stage.Meets J) (unlessEmpty id : Build w _) (unlessEmpty id) := by
  apply within_bind (within_onArena _)
  intro kind
  split <;> exact within_pure _

theorem Hooks.adoptMembers_within (id : NodeId) :
    Within (Stage.Meets J) (adoptMembers id : Build w _) (adoptMembers id) := by
  apply within_bind (within_onArena _)
  intro kind
  split
  · exact within_onArena _
  · exact within_pure ()

/-- A node that may have been made is pushed after its members were adopted. -/
theorem Hooks.pushMade_within (g : Gathered) (path : DataPath) {x y : Build w (Option NodeId)}
    (hxy : Within (Stage.Meets J) x y) :
    let push : Option NodeId → Build w Gathered := fun
      | none => pure g
      | some node => do
        adoptMembers node
        pure (g.push path node)
    Within (Stage.Meets J) (x >>= push) (y >>= push) := by
  apply within_bind hxy
  intro node
  cases node with
  | none => exact within_pure g
  | some node => exact within_bind (adoptMembers_within node) fun _ => within_pure _

theorem Hooks.async_within (hlower : lower.Within J lower') (h : List.Forall₂ (Extension.Within J) exts exts')
    (fields : Fields) (depth : Nat) :
    Within (Stage.Meets J) ((ofExtensions exts).async lower fields depth)
      ((ofExtensions exts').async lower' fields depth) := by
  apply within_bind (hlower.object _ .value depth)
  intro body
  cases body with
  | none => exact within_pure none
  | some body =>
    apply within_bind (within_onArena _)
    intro kind
    cases kind.bind Kind.id? with
    | none => exact within_pure none
    | some text =>
      apply within_bind (create_within hlower h _ _)
      intro node
      cases node with
      | none => exact within_pure none
      | some node =>
        apply within_bind (within_onArena _)
        intro kind
        split
        · exact within_bind (within_onArena _) fun _ => within_pure _
        · exact within_pure _

theorem Hooks.template_within (hlower : lower.Within J lower') (h : List.Forall₂ (Extension.Within J) exts exts')
    (depth : Nat) (path : DataPath) (g : Gathered) (descriptor : Value) :
    Within (Stage.Meets J) ((ofExtensions exts).template lower depth path g descriptor)
      ((ofExtensions exts').template lower' depth path g descriptor) := by
  unfold template
  split
  · exact within_pure g
  · exact pushMade_within g _ (create_within hlower h _ _)

theorem Hooks.members_within (hlower : lower.Within J lower') (h : List.Forall₂ (Extension.Within J) exts exts')
    (depth : Nat) (path : DataPath) (g : Gathered) (overrides : Bool) (items : List Value) :
    Within (Stage.Meets J) ((ofExtensions exts).members lower depth path g overrides items)
      ((ofExtensions exts').members lower' depth path g overrides items) := by
  apply within_bind (within_filterMapM fun item _ => hlower.object item .value depth)
  intro nodes
  split
  · exact within_pure g
  · exact pushMade_within g path (create_within hlower h _ _)

theorem Hooks.switch_within (hlower : lower.Within J lower') (h : List.Forall₂ (Extension.Within J) exts exts')
    (depth : Nat) (path : DataPath) (g : Gathered) (v : Value) :
    Within (Stage.Meets J) ((ofExtensions exts).switch lower depth path g v)
      ((ofExtensions exts').switch lower' depth path g v) := by
  apply within_bind (build_within hlower h v .value depth (some .switch))
  intro built
  cases built with
  | none => exact within_pure g
  | some built =>
    apply within_bind (unlessEmpty_within built)
    intro node
    cases node with
    | none => exact within_pure g
    | some node => exact within_bind (within_onArena _) fun _ => within_pure _

theorem Hooks.entry_within (hlower : lower.Within J lower') (h : List.Forall₂ (Extension.Within J) exts exts')
    (around : Value) (type : ContentType) (depth : Nat) (path : DataPath) (g : Gathered) (key : Segment) (v : Value) :
    Within (Stage.Meets J) ((ofExtensions exts).entry lower around type depth path g key v)
      ((ofExtensions exts').entry lower' around type depth path g key v) := by
  have hisOfType : (ofExtensions exts).isOfType = (ofExtensions exts').isOfType := by
    funext type v
    rw [isOfType, isOfType, typeOf_eq_of_within h]
  unfold entry
  rw [hisOfType]
  dsimp only
  split
  · exact within_bind (hlower.object v .asset depth) fun _ => within_pure _
  split
  · apply within_foldlM
    rw [List.forall₂_same]
    exact fun descriptor _ g => template_within hlower h depth path g descriptor
  split
  · exact switch_within hlower h depth _ g v
  split
  · split
    · exact within_bind (async_within hlower h _ depth) fun _ => within_pure _
    split
    · exact within_bind (build_within hlower h _ .value depth _) fun _ => within_pure _
    · exact hlower.gather _ type depth _ g
  · exact members_within hlower h depth _ g _ _
  · exact within_pure _

theorem Hooks.gather_within (hlower : lower.Within J lower') (h : List.Forall₂ (Extension.Within J) exts exts')
    (v : Value) (type : ContentType) (depth : Nat) (path : DataPath) (g : Gathered) :
    Within (Stage.Meets J) ((ofExtensions exts).gather lower v type depth path g)
      ((ofExtensions exts').gather lower' v type depth path g) := by
  have hchanged : ∀ es : List (Extension w), ((ofExtensions es).changed v type : Build w _) = pure (some v) := by
    intro es
    rw [changed, ofExtensions_onObject]
    rfl
  unfold gather
  rw [hchanged, hchanged]
  split
  · exact within_pure _
  · apply within_foldlM
    rw [List.forall₂_same]
    exact fun part _ g => entry_within hlower h v type depth path g part.1 part.2

/-! ## Levels -/

theorem Hooks.contentNode_within (type : ContentType) (g : Gathered) :
    Within (Stage.Meets J) (contentNode type g : Build w _) (contentNode type g) := by
  unfold contentNode
  split
  · exact within_pure none
  · exact within_bind (within_onArena _) fun id => within_bind (within_onArena _) fun _ => within_pure _

theorem Hooks.object_within (hlower : lower.Within J lower') (h : List.Forall₂ (Extension.Within J) exts exts')
    (v : Value) (type : ContentType) (depth : Nat) :
    Within (Stage.Meets J) ((ofExtensions exts).object lower v type depth)
      ((ofExtensions exts').object lower' v type depth) := by
  have hbuilt : ∀ built, Within (Stage.Meets J)
      (match built with
        | some id => unlessEmpty id
        | none => do
          let g ← (ofExtensions exts).gather lower v type depth [] .empty
          let base ← contentNode type g
          (ofExtensions exts).settle lower base v)
      (match built with
        | some id => unlessEmpty id
        | none => do
          let g ← (ofExtensions exts').gather lower' v type depth [] .empty
          let base ← contentNode type g
          (ofExtensions exts').settle lower' base v) := by
    intro built
    cases built with
    | some id => exact unlessEmpty_within id
    | none =>
      apply within_bind (gather_within hlower h v type depth [] .empty)
      intro g
      exact within_bind (contentNode_within type g) fun base => settle_within hlower h base v
  unfold object
  rw [typeOf_eq_of_within h]
  dsimp only
  split
  · exact within_bind (build_within hlower h v type depth _) hbuilt
  · exact hbuilt none

theorem Hooks.level_within (h : List.Forall₂ (Extension.Within J) exts exts') (height : Nat) :
    ((ofExtensions exts).level height).Within J ((ofExtensions exts').level height) := by
  induction height with
  | zero => exact ⟨fun _ _ _ => within_none, fun _ _ => within_none, fun _ _ _ _ _ => within_none⟩
  | succ height ih =>
    refine ⟨?_, ?_, ?_⟩
    · exact fun v type depth => object_within ih h v type depth
    · exact fun kind source => create_within ih h kind source
    · exact fun v type depth path g => gather_within ih h v type depth path g

/-! ## Trees -/

/-- A tree that is built within the condition is built in the same way by the other extensions. -/
theorem Hooks.buildObject_within (h : List.Forall₂ (Extension.Within J) exts exts') (limit : Nat) (v : Value)
    (type : ContentType) (depth : Nat) :
    Within J ((ofExtensions exts).buildObject limit v type depth)
      ((ofExtensions exts').buildObject limit v type depth) := by
  intro world r world' hbuild hworld'
  obtain ⟨⟨root, stage⟩, hobject, hlast⟩ := Option.bind_eq_some_iff.1 hbuild
  cases hlast
  obtain ⟨hworld, hobject'⟩ := (level_within h limit).object v type depth _ _ _ hobject hworld'
  exact ⟨hworld, Option.bind_eq_some_iff.2 ⟨_, hobject', rfl⟩⟩

theorem Hooks.buildView_within (h : List.Forall₂ (Extension.Within J) exts exts') (limit : Nat) (v : Value)
    (depth : Nat) :
    Within J ((ofExtensions exts).buildView limit v depth).run ((ofExtensions exts').buildView limit v depth).run := by
  have hview : ∀ (es : List (Extension w)) (tree : Tree),
      (ofExtensions es).onView.forEach (fun handler => handler tree) = (pure () : Run w Unit) := by
    intro es tree
    rw [ofExtensions_onView]
    rfl
  unfold buildView
  split
  · exact within_pure _
  · apply within_bindAction (within_lift (buildObject_within h limit v .view depth))
    intro built
    cases built with
    | none => exact within_pure _
    | some tree =>
      dsimp only
      rw [hview, hview]
      split <;> exact within_pure _

end

end DataBound.View
