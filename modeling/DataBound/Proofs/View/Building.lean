-- SUMMARY: A builder with the standard extensions leaves only whole trees of finished nodes in the arena.
import DataBound.Proofs.Action
import DataBound.Proofs.View.Extension
import DataBound.Proofs.View.Walk

/-!
# Building whole trees

Whatever the content, a builder with standard extensions adds trees of finished nodes to the arena, next to nodes that
were replaced or dropped. A level of the builder is sound if its operations do so; the level above a sound one is sound.
The same proof serves two purposes: with `linked` it shows in addition that parents are the nodes that list their
children, for which the data read for a template without a path may not be an array.
-/

namespace DataBound.View

open Arena Build

variable {w : Type}

/-- The children of what is gathered. -/
def Gathered.ids (g : Gathered) : List Nat := g.children.map Child.node

/-- The extension keeps a property of the world. If links are asked for, it finds no array where no path is named. -/
def Extension.Keeps (I : w → Prop) (linked : Prop) : Extension w → Prop
  | .applicability => True
  | .switch accepts => ∀ v world r world', I world → accepts v world = some (r, world') → I world'
  | .template read _ => ∀ raw world r world', I world → read raw world = some (r, world') →
      I world' ∧ (linked → raw = "" → ∀ items, r ≠ some (.array items))

/-- How a node that is made with a kind comes out after the handlers have had their say. -/
inductive Created (linked : Prop) (a : Arena) : Kind → Option NodeId → Arena → Prop
  | kept {kind : Kind} : kind.IsFinished → Created linked a kind (some a.size) (a.alloc kind).2
  | chosen {cases : List SwitchCase} {c : SwitchCase} : c ∈ cases →
      Created linked a (.switch false cases) (some c.node) (a.alloc (.switch false cases)).2
  | unmatched {cases : List SwitchCase} {id : NodeId} {a' : Arena} : Grows a a' → a'.kind? id = some .empty →
      Created linked a (.switch false cases) (some id) a'
  | unexpanded {data : String} {body : Value} {depth : Nat} {a' : Arena} : Grows a a' →
      Created linked a (.template data body depth false) none a'
  /-- The copies are not adopted yet. -/
  | expanded {data : String} {body : Value} {depth : Nat} {members : List Nat} {b : Arena} :
      a.Adds linked members b → (linked → data ≠ "") →
      Created linked a (.template data body depth false) (some b.size) (b.alloc (.multi false members)).2

/-- The arena grew, and the trees gathered stand behind one another from `lo` on. -/
def Gathers (linked : Prop) (lo : Nat) (a : Arena) (g : Gathered) (a' : Arena) : Prop :=
  Grows a a' ∧ Forest linked a' lo a'.size g.ids

/-- The operations of the level add trees of finished nodes; what is gathered are trees that stand behind one
another. -/
structure Level.Sound (linked : Prop) (I : w → Prop) (exts : List (Extension w)) (level : Level w) : Prop where
  object (v : Value) (type : ContentType) (depth : Nat) (a : Arena) :
    (level.object v type depth).Ensures I a fun r a' => a.Adds linked r.toList a'
  create (kind : Kind) (source : Value) (a : Arena) :
    kind.IsHandled exts → (∀ c ∈ kind.childIds, ∃ k, a.kind? c = some k ∧ k.IsFinished) →
    (level.create kind source).Ensures I a (Created linked a kind)
  gather (v : Value) (type : ContentType) (depth : Nat) (path : DataPath) (g : Gathered) (lo : Nat) (a : Arena) :
    Forest linked a lo a.size g.ids →
    (level.gather v type depth path g).Ensures I a (Gathers linked lo a)

theorem Level.sound_bottom (linked : Prop) (I : w → Prop) (exts : List (Extension w)) :
    (Level.bottom : Level w).Sound linked I exts where
  object _ _ _ _ := ensures_none
  create _ _ _ _ _ := ensures_none
  gather _ _ _ _ _ _ _ _ := ensures_none

section

variable {I : w → Prop} {linked : Prop} {exts : List (Extension w)} {lower : Level w} {a : Arena} {kind : Kind}
  {id : NodeId}

/-! ## New nodes -/

/-- The node is of a kind that no extension replaces, if there is a node. -/
def Settled (exts : List (Extension w)) (r : Option NodeId) (a : Arena) : Prop :=
  ∀ id, r = some id → ∃ kind, a.kind? id = some kind ∧ ∀ e ∈ exts, ¬ e.Replaces kind

theorem settled_of_finished {a : Arena} (hkind : a.kind? id = some kind) (hfinished : kind.IsFinished) :
    Settled exts (some id) a := by
  intro id' hid
  cases hid
  exact ⟨kind, hkind, fun e _ => hfinished.not_replaced e⟩

theorem Created.settled {r : Option NodeId} {a' : Arena} (h : Created linked a kind r a')
    (hchildren : ∀ c ∈ kind.childIds, ∃ k, a.kind? c = some k ∧ k.IsFinished) : Settled exts r a' := by
  cases h with
  | kept hfinished => exact settled_of_finished (kind?_alloc_self _ _) hfinished
  | @chosen cases c hc =>
    obtain ⟨k, hk, hfinished⟩ := hchildren c.node (List.mem_map_of_mem hc)
    refine settled_of_finished ?_ hfinished
    rw [Arena.kind?, get?_alloc_of_lt (lt_size_of_kind? hk)]
    exact hk
  | unmatched _ hempty =>
    intro id' hid
    cases hid
    refine ⟨.empty, hempty, ?_⟩
    intro e _ hreplaces
    cases e <;> cases hreplaces
  | unexpanded =>
    intro id' hid
    cases hid
  | expanded => exact settled_of_finished (kind?_alloc_self _ _) trivial

/-- What an extension does not replace it leaves alone. -/
theorem Extension.onCreate_eq_of_not_replaces {e : Extension w}
    {handler : Level w → Option NodeId → Value → Build w (Option NodeId)} (he : e.onCreate? = some handler)
    (hkind : a.kind? id = some kind) (hnot : ¬ e.Replaces kind) (source : Value) (world : w) :
    handler lower (some id) source ⟨a, world⟩ = some (some id, ⟨a, world⟩) := by
  cases e with
  | applicability => cases he
  | switch accepts =>
    cases he
    refine (kind?_bind_eq id _ a world).trans ?_
    rw [hkind]
    cases kind with
    | switch dynamic cases =>
      cases dynamic with
      | false => exact absurd rfl hnot
      | true => rfl
    | _ => rfl
  | template read taps =>
    cases he
    refine (kind?_bind_eq id _ a world).trans ?_
    rw [hkind]
    cases kind with
    | template data body depth dynamic =>
      cases dynamic with
      | false => exact absurd rfl hnot
      | true => rfl
    | _ => rfl

theorem Extension.onCreate_of_not_replaces {e : Extension w}
    {handler : Level w → Option NodeId → Value → Build w (Option NodeId)} (he : e.onCreate? = some handler)
    (hkind : a.kind? id = some kind) (hnot : ¬ e.Replaces kind) (source : Value) :
    (handler lower (some id) source).Ensures I a fun r a' => r = some id ∧ a' = a :=
  ensures_of_eq (onCreate_eq_of_not_replaces he hkind hnot source)

/-- The handlers leave a settled node alone, and the lack of one. -/
theorem Extension.onCreate_eq_of_settled {e : Extension w} (hmem : e ∈ exts)
    {handler : Level w → Option NodeId → Value → Build w (Option NodeId)} (he : e.onCreate? = some handler)
    {r : Option NodeId} (hsettled : Settled exts r a) (source : Value) (world : w) :
    handler lower r source ⟨a, world⟩ = some (r, ⟨a, world⟩) := by
  cases r with
  | none => cases e <;> cases he <;> rfl
  | some id =>
    obtain ⟨kind, hkind, hnot⟩ := hsettled id rfl
    exact onCreate_eq_of_not_replaces he hkind (hnot e hmem) source world

theorem Extension.onCreate_of_settled {e : Extension w} (hmem : e ∈ exts)
    {handler : Level w → Option NodeId → Value → Build w (Option NodeId)} (he : e.onCreate? = some handler)
    {r : Option NodeId} (hsettled : Settled exts r a) (source : Value) :
    (handler lower r source).Ensures I a fun r' a' => r' = r ∧ a' = a :=
  ensures_of_eq (onCreate_eq_of_settled hmem he hsettled source)

theorem Hooks.settle_eq_of_settled {r : Option NodeId} (hsettled : Settled exts r a) (source : Value) (world : w) :
    (ofExtensions exts).settle lower r source ⟨a, world⟩ = some (r, ⟨a, world⟩) := by
  unfold settle Hook.thread
  rw [ofExtensions_onCreate]
  apply foldlM_eq_of_eq
  intro tap htap
  obtain ⟨e, hmem, he⟩ := List.mem_filterMap.1 htap
  obtain ⟨handler, hhandler, rfl⟩ := Option.map_eq_some_iff.1 he
  exact Extension.onCreate_eq_of_settled hmem hhandler hsettled source world

theorem Hooks.settle_of_settled {r : Option NodeId} (hsettled : Settled exts r a) (source : Value) :
    ((ofExtensions exts).settle lower r source).Ensures I a fun r' a' => r' = r ∧ a' = a :=
  ensures_of_eq (settle_eq_of_settled hsettled source)

theorem Switch.firstAccepted_mem {accepts : Value → Run w Bool} {cases : List SwitchCase} {world world' : w}
    {r : Option SwitchCase}
    (hkeeps : ∀ v world r world', I world → accepts v world = some (r, world') → I world') (hworld : I world)
    (h : firstAccepted accepts cases world = some (r, world')) : I world' ∧ ∀ c, r = some c → c ∈ cases := by
  induction cases generalizing world with
  | nil =>
    cases h
    exact ⟨hworld, nofun⟩
  | cons c rest ih =>
    obtain ⟨⟨accepted, world₁⟩, haccepts, hrest⟩ := Option.bind_eq_some_iff.1 h
    have hworld₁ := hkeeps _ _ _ _ hworld haccepts
    cases accepted with
    | true =>
      cases hrest
      refine ⟨hworld₁, ?_⟩
      rintro c' ⟨⟩
      exact List.mem_cons_self
    | false =>
      obtain ⟨hworld', hmem⟩ := ih hworld₁ hrest
      exact ⟨hworld', fun c' hc' => List.mem_cons_of_mem _ (hmem c' hc')⟩

theorem Switch.onCreate_static {accepts : Value → Run w Bool} {cases : List SwitchCase}
    (hkeeps : (Extension.switch accepts).Keeps I linked)
    (hcases : ∀ c ∈ (Kind.switch false cases).childIds, c < a.size) (source : Value) :
    (onCreate accepts lower (some a.size) source).Ensures I (a.alloc (.switch false cases)).2
      (Created linked a (.switch false cases)) := by
  apply ensures_bind
  apply ensures_kind?
  rw [kind?_alloc_self]
  apply ensures_bind
  apply ensures_onWorld
  intro world r world' hworld hrun
  obtain ⟨hworld', hmem⟩ := firstAccepted_mem hkeeps hworld hrun
  refine ⟨hworld', ?_⟩
  cases r with
  | some c => exact ensures_pure (.chosen (hmem c rfl))
  | none =>
    apply ensures_bind
    apply ensures_alloc
    apply ensures_pure
    exact .unmatched ((Grows.alloc hcases).trans (.alloc nofun)) (kind?_alloc_self _ _)

/-- The copies of a template body stand behind one another. -/
theorem Template.expand_ensures (hlower : lower.Sound linked I exts) {read : String → Run w (Option Value)}
    {taps : Hook SubstitutionTap} (hkeeps : (Extension.template read taps).Keeps I linked) {a₀ : Arena}
    (hgrows : Grows a₀ a) (data : String) (body : Value) (depth : Nat) :
    (expand read taps lower data body depth).Ensures I a (Created linked a₀ (.template data body depth false)) := by
  apply ensures_bind
  apply ensures_onWorld
  intro world r world' hworld hrun
  obtain ⟨hworld', harray⟩ := hkeeps data world r world' hworld hrun
  refine ⟨hworld', ?_⟩
  split
  · rename_i items
    apply ensures_bind
    refine (ensures_filterMapM (fun members b => a₀.Adds linked members b) hgrows.adds ?_).mono ?_
    · intro item _ found b hfound
      dsimp only
      split
      · rename_i copy _
        apply (hlower.object copy .value (depth + 1) b).mono
        intro r b' hadds
        exact hfound.append hadds
      · apply ensures_pure
        rwa [Option.toList_none, List.append_nil]
    · intro members b hadds
      apply ensures_bind
      apply ensures_alloc
      apply ensures_pure
      refine .expanded hadds ?_
      intro hlinked hdata
      exact harray hlinked hdata items rfl
  · exact ensures_pure (.unexpanded hgrows)

theorem Extension.onCreate_of_replaces (hlower : lower.Sound linked I exts) {e : Extension w}
    (hkeeps : e.Keeps I linked) {handler : Level w → Option NodeId → Value → Build w (Option NodeId)}
    (he : e.onCreate? = some handler) (hreplaces : e.Replaces kind) (hchildren : ∀ c ∈ kind.childIds, c < a.size)
    (source : Value) :
    (handler lower (some a.size) source).Ensures I (a.alloc kind).2 (Created linked a kind) := by
  cases e with
  | applicability => cases he
  | switch accepts =>
    cases he
    cases kind with
    | switch dynamic cases =>
      obtain rfl : dynamic = false := hreplaces
      exact Switch.onCreate_static hkeeps hchildren source
    | _ => cases hreplaces
  | template read taps =>
    cases he
    cases kind with
    | template data body depth dynamic =>
      obtain rfl : dynamic = false := hreplaces
      apply ensures_bind
      apply ensures_kind?
      rw [kind?_alloc_self]
      exact Template.expand_ensures hlower hkeeps (.alloc hchildren) data body depth
    | _ => cases hreplaces

theorem Extension.Replaces.onCreate? {e : Extension w} (h : e.Replaces kind) :
    ∃ handler, e.onCreate? = some handler := by
  cases e with
  | applicability => cases h
  | switch accepts => exact ⟨_, rfl⟩
  | template read taps => exact ⟨_, rfl⟩

theorem Hooks.create_ensures (hlower : lower.Sound linked I exts) (hexts : ∀ e ∈ exts, e.Keeps I linked)
    (kind : Kind) (hhandled : kind.IsHandled exts)
    (hchildren : ∀ c ∈ kind.childIds, ∃ k, a.kind? c = some k ∧ k.IsFinished)
    (source : Value) : ((ofExtensions exts).create lower kind source).Ensures I a (Created linked a kind) := by
  apply ensures_bind
  apply ensures_alloc
  rcases hhandled with hfinished | ⟨key, hkey, hreplaces⟩
  · apply (settle_of_settled (settled_of_finished (kind?_alloc_self _ _) hfinished) source).mono
    rintro _ _ ⟨rfl, rfl⟩
    exact .kept hfinished
  · have hbounds : ∀ c ∈ kind.childIds, c < a.size := by
      intro c hc
      obtain ⟨k, hk, -⟩ := hchildren c hc
      exact lt_size_of_kind? hk
    obtain ⟨handler, hhandler⟩ := hreplaces.onCreate?
    unfold settle Hook.thread
    rw [ofExtensions_onCreate]
    -- the handlers before the first one that replaces the node leave it alone, as do all after it
    refine ensures_foldlM_of_mem (fun r a' => r = some a.size ∧ a' = (a.alloc kind).2) ⟨key.name, handler⟩
      ?_ ⟨rfl, rfl⟩ ?_ ?_ ?_
    · exact List.mem_filterMap.2 ⟨key, hkey, by rw [hhandler, Option.map_some]⟩
    · rintro tap htap _ _ ⟨rfl, rfl⟩
      obtain ⟨e, hmem, he⟩ := List.mem_filterMap.1 htap
      obtain ⟨handler', hhandler', rfl⟩ := Option.map_eq_some_iff.1 he
      by_cases hreplaces' : e.Replaces kind
      · apply (Extension.onCreate_of_replaces hlower (hexts e hmem) hhandler' hreplaces' hbounds source).mono
        intro r a' h
        exact .inr h
      · apply (Extension.onCreate_of_not_replaces hhandler' (kind?_alloc_self _ _) hreplaces' source).mono
        intro r a' h
        exact .inl h
    · rintro _ _ ⟨rfl, rfl⟩
      exact Extension.onCreate_of_replaces hlower (hexts key hkey) hhandler hreplaces hbounds source
    · intro tap htap r a' hdone
      obtain ⟨e, hmem, he⟩ := List.mem_filterMap.1 htap
      obtain ⟨handler', hhandler', rfl⟩ := Option.map_eq_some_iff.1 he
      apply (Extension.onCreate_of_settled hmem hhandler' (hdone.settled hchildren) source).mono
      rintro _ _ ⟨rfl, rfl⟩
      exact hdone

/-! ## Classified content -/

/-- What comes of building classified content: a tree, or, of a switch, an empty node. -/
def Built (linked : Prop) (type : NodeType) (a : Arena) (r : Option NodeId) (a' : Arena) : Prop :=
  a.Adds linked r.toList a' ∨ type = .switch ∧ ∃ id, r = some id ∧ Grows a a' ∧ a'.kind? id = some .empty

theorem Built.of_grows {type : NodeType} {r : Option NodeId} {b a' : Arena} (hgrows : Grows a b)
    (h : Built linked type b r a') : Built linked type a r a' := by
  rcases h with hadds | ⟨rfl, id, rfl, hgrows', hempty⟩
  · exact .inl (.of_grows hgrows hadds)
  · exact .inr ⟨rfl, id, rfl, hgrows.trans hgrows', hempty⟩

theorem Applicability.buildNode_ensures (hlower : lower.Sound linked I exts) (v : Value) (type : ContentType)
    (depth : Nat) (nodeType : NodeType) :
    (buildNode lower v type depth (some nodeType)).Ensures I a (Built linked nodeType a) := by
  unfold buildNode
  split
  · rename_i fields htype
    apply ensures_bind
    apply (hlower.object _ type depth a).mono
    intro body b hbody
    cases body with
    | none => exact ensures_pure (.inl hbody)
    | some body =>
      have hkind := hbody.kind?
      apply ensures_bind
      apply (hlower.create (.applicability _ body) _ b (.inl trivial) ?_).mono
      · intro r a' hcreated
        cases hcreated
        apply ensures_bind
        apply ensures_kind?
        rw [kind?_alloc_self]
        apply ensures_bind
        apply ensures_adopt
        apply ensures_pure
        exact .inl (adds_alloc_adopt hbody.grows trivial hbody.forest (Nat.le_refl _))
      · intro c hc
        obtain rfl := List.mem_singleton.1 hc
        exact hkind
  · exact ensures_pure (.inl (Grows.refl a).adds)

theorem Switch.buildCase_ensures (hlower : lower.Sound linked I exts) (depth : Nat) (v : Value) :
    (buildCase lower depth v).Ensures I a fun r a' => a.Adds linked (r.toList.map SwitchCase.node) a' := by
  unfold buildCase
  split
  · apply ensures_bind
    apply (hlower.object _ .value depth a).mono
    intro node b hnode
    cases node with
    | none => exact ensures_pure hnode
    | some node => exact ensures_pure hnode
  · exact ensures_pure (Grows.refl a).adds

theorem Switch.buildNode_ensures (hlower : lower.Sound linked I exts) {accepts : Value → Run w Bool}
    (hmem : .switch accepts ∈ exts) (v : Value) (type : ContentType) (depth : Nat) (nodeType : NodeType) :
    (buildNode lower v type depth (some nodeType)).Ensures I a (Built linked nodeType a) := by
  unfold buildNode
  split
  · rename_i fields htype
    cases htype
    apply ensures_bind
    refine (ensures_filterMapM (fun cases b => a.Adds linked (cases.map SwitchCase.node) b)
      (Grows.refl a).adds ?_).mono ?_
    · intro item _ found b hfound
      apply (buildCase_ensures hlower depth item).mono
      intro r b' hadds
      rw [List.map_append]
      exact hfound.append hadds
    · intro cases b hcases
      have hhandled : ∀ dynamic, (Kind.switch dynamic cases).IsHandled exts := by
        intro dynamic
        cases dynamic with
        | true => exact .inl rfl
        | false => exact .inr ⟨_, hmem, rfl⟩
      apply ensures_bind
      apply (hlower.create _ _ b (hhandled _) fun c hc => hcases.forest.kind?_of_mem hc).mono
      intro r b' hcreated
      generalize hdynamic : Fields.hasKey fields dynamicField = dynamic at hcreated
      cases hcreated with
      | kept hfinished =>
        apply ensures_bind
        apply ensures_kind?
        rw [kind?_alloc_self]
        apply ensures_bind
        apply ensures_adopt
        apply ensures_pure
        exact .inl (adds_alloc_adopt hcases.grows hfinished hcases.forest (Nat.le_refl _))
      | @chosen _ c hc =>
        have hadds : a.Adds linked [c.node] (b.alloc (.switch false cases)).2 :=
          hcases.of_mem_alloc (List.mem_map_of_mem hc) fun c' hc' => (hcases.forest.bounds c' hc').2
        apply ensures_bind
        apply ensures_kind?
        -- a chosen dynamic switch adopts its cases a second time
        split
        · rename_i hkind
          apply ensures_bind
          apply ensures_adopt
          apply ensures_pure
          exact .inl (hadds.adopt hkind)
        · exact ensures_pure (.inl hadds)
      | unmatched hgrows hempty =>
        apply ensures_bind
        apply ensures_kind?
        rw [hempty]
        apply ensures_pure
        exact .inr ⟨rfl, _, rfl, hcases.grows.trans hgrows, hempty⟩
  · exact ensures_pure (.inl (Grows.refl a).adds)

/-- A template that stands for content names no data. -/
theorem Template.buildNode_ensures (hlower : lower.Sound linked I exts) {read : String → Run w (Option Value)}
    {taps : Hook SubstitutionTap} (hmem : .template read taps ∈ exts) (v : Value) (type : ContentType) (depth : Nat)
    (nodeType : NodeType) (hv : nodeType = .template → v = .string "template") :
    (buildNode lower v type depth (some nodeType)).Ensures I a (Built linked nodeType a) := by
  unfold buildNode
  split
  · rename_i htype
    cases htype
    obtain rfl := hv rfl
    have hkind : templateKind (.string "template") depth = .template "" .null depth false := rfl
    rw [hkind]
    apply (hlower.create (.template "" .null depth false) _ a (.inr ⟨_, hmem, rfl⟩) nofun).mono
    intro r b hcreated
    cases hcreated with
    | kept hfinished => cases hfinished
    | unexpanded hgrows => exact .inl hgrows.adds
    | expanded hadds hdata =>
      refine .inl (adds_alloc hadds.grows trivial hadds.forest (Nat.le_refl _) ?_)
      intro hlinked
      exact absurd rfl (hdata hlinked)
  · exact ensures_pure (.inl (Grows.refl a).adds)

theorem Hooks.build_ensures (hlower : lower.Sound linked I exts) (v : Value) (type : ContentType) (depth : Nat)
    (nodeType : NodeType) (hv : nodeType = .template → v = .string "template") :
    ((ofExtensions exts).build lower v type depth (some nodeType)).Ensures I a (Built linked nodeType a) := by
  unfold build Hook.bail
  rw [ofExtensions_buildNode]
  refine ensures_firstAnswer (Grows a) (Grows.refl a) ?_ fun b hgrows => .inl hgrows.adds
  intro tap htap b hgrows
  obtain ⟨e, hmem, rfl⟩ := List.mem_map.1 htap
  have hbuilt : (e.buildNode lower v type depth (some nodeType)).Ensures I b (Built linked nodeType b) := by
    cases e with
    | applicability => exact Applicability.buildNode_ensures hlower v type depth nodeType
    | switch accepts => exact Switch.buildNode_ensures hlower hmem v type depth nodeType
    | template read taps => exact Template.buildNode_ensures hlower hmem v type depth nodeType hv
  apply hbuilt.mono
  intro r b' h
  have h' := h.of_grows hgrows
  cases r with
  | some id => exact h'
  | none =>
    rcases h' with hadds | ⟨-, id, hid, -⟩
    · exact hadds.grows
    · cases hid

/-- What is not empty is a tree. -/
theorem Hooks.unlessEmpty_ensures {type : NodeType} {b : Arena} (h : Built linked type a (some id) b) :
    (unlessEmpty id).Ensures I b fun r a' => a.Adds linked r.toList a' := by
  apply ensures_bind
  apply ensures_kind?
  rcases h with hadds | ⟨-, id', hid, hgrows, hempty⟩
  · obtain ⟨kind, hkind, hfinished⟩ := hadds.kind?
    rw [hkind]
    split
    · rename_i heq
      cases heq
      exact hfinished.elim
    · exact ensures_pure hadds
  · cases hid
    rw [hempty]
    exact ensures_pure hgrows.adds

/-! ## Gathering -/

/-- Other nodes may come behind what was gathered. -/
theorem gathers_of_grows {lo : Nat} {g : Gathered} {b : Arena} (hg : Forest linked a lo a.size g.ids)
    (hgrows : Grows a b) : Gathers linked lo a g b :=
  ⟨hgrows, (hg.grows hgrows (Nat.le_refl _)).widen (Nat.le_refl _) hgrows.size_le⟩

/-- One more tree, or none, behind what was gathered. -/
theorem Hooks.pushed_gathers {lo : Nat} {g : Gathered} {b : Arena} (r : Option NodeId) (path : DataPath)
    (hg : Forest linked a lo a.size g.ids) (hadds : a.Adds linked r.toList b) :
    Gathers linked lo a (pushed g path r) b := by
  have hids : (pushed g path r).ids = g.ids ++ r.toList := by
    cases r <;> simp [pushed, Gathered.push, Gathered.ids]
  unfold Gathers
  rw [hids]
  exact ⟨hadds.grows, (hg.grows hadds.grows (Nat.le_refl _)).append hadds.forest⟩

theorem Hooks.async_ensures (hlower : lower.Sound linked I exts) (hexts : ∀ e ∈ exts, e.Keeps I linked)
    (fields : Fields) (depth : Nat) :
    ((ofExtensions exts).async lower fields depth).Ensures I a fun r a' => a.Adds linked r.toList a' := by
  apply ensures_bind
  apply (hlower.object _ .value depth a).mono
  intro body b hbody
  cases body with
  | none => exact ensures_pure hbody
  | some body =>
    apply ensures_bind
    apply ensures_kind?
    split
    · rename_i id hid
      apply ensures_bind
      apply (create_ensures hlower hexts (.async id body) (.inl trivial) ?_ _).mono
      · intro r b' hcreated
        cases hcreated
        apply ensures_bind
        apply ensures_kind?
        rw [kind?_alloc_self]
        apply ensures_bind
        apply ensures_adopt
        apply ensures_pure
        exact adds_alloc_adopt hbody.grows trivial hbody.forest (Nat.le_refl _)
      · intro c hc
        obtain rfl := List.mem_singleton.1 hc
        exact hbody.kind?
    · exact ensures_pure hbody.grows.adds

theorem Hooks.template_ensures (hlower : lower.Sound linked I exts) (hexts : ∀ e ∈ exts, e.Keeps I linked)
    {read : String → Run w (Option Value)} {taps : Hook SubstitutionTap} (hmem : .template read taps ∈ exts)
    (depth : Nat) (path : DataPath) {g : Gathered} {lo : Nat} (hg : Forest linked a lo a.size g.ids)
    (descriptor : Value) :
    ((ofExtensions exts).template lower depth path g descriptor).Ensures I a
      (Gathers linked lo a) := by
  unfold template
  split
  · exact ensures_pure ⟨.refl a, hg⟩
  · rename_i output _
    have hhandled : (templateKind descriptor depth).IsHandled exts := by
      unfold templateKind
      generalize ((descriptor.field? "dynamic").bind Value.asBool).getD false = dynamic
      cases dynamic with
      | true => exact .inl rfl
      | false => exact .inr ⟨_, hmem, rfl⟩
    apply ensures_bind
    apply (create_ensures hlower hexts _ hhandled nofun descriptor).mono
    intro r b hcreated
    generalize hkind : templateKind descriptor depth = kind at hcreated
    cases hcreated with
    | kept hfinished =>
      subst hkind
      have hlists : (templateKind descriptor depth).childIds = [] := rfl
      have hadds : a.Adds linked [a.size] (a.alloc (templateKind descriptor depth)).2 := by
        apply adds_alloc (Grows.refl a) hfinished _ (Nat.le_refl _) fun _ => hlists
        rw [hlists]
        exact .nil (Nat.le_refl _)
      apply ensures_bind
      apply ensures_bind
      apply ensures_kind?
      rw [kind?_alloc_self]
      apply ensures_pure
      apply ensures_pure
      exact pushed_gathers (some a.size) (path ++ [output]) hg hadds
    | chosen => cases hkind
    | unmatched => cases hkind
    | unexpanded hgrows => exact ensures_pure (gathers_of_grows hg hgrows)
    | @expanded _ _ _ members b hadds _ =>
      have hfinished : (Kind.multi false members).IsFinished := trivial
      apply ensures_bind
      apply ensures_bind
      apply ensures_kind?
      rw [kind?_alloc_self]
      apply ensures_adopt
      apply ensures_pure
      exact pushed_gathers (some b.size) (path ++ [output]) hg
        (adds_alloc_adopt hadds.grows hfinished hadds.forest (Nat.le_refl _))

theorem Hooks.members_ensures (hlower : lower.Sound linked I exts) (hexts : ∀ e ∈ exts, e.Keeps I linked)
    (depth : Nat) (path : DataPath) {g : Gathered} {lo : Nat} (hg : Forest linked a lo a.size g.ids)
    (overrides : Bool) (items : List Value) :
    ((ofExtensions exts).members lower depth path g overrides items).Ensures I a
      (Gathers linked lo a) := by
  apply ensures_bind
  refine (ensures_filterMapM (fun nodes b => a.Adds linked nodes b) (Grows.refl a).adds ?_).mono ?_
  · intro item _ found b hfound
    apply (hlower.object item .value depth b).mono
    intro r b' hadds
    exact hfound.append hadds
  · intro nodes b hnodes
    split
    · exact ensures_pure (gathers_of_grows hg hnodes.grows)
    · apply ensures_bind
      have hfinished : (Kind.multi overrides nodes).IsFinished := trivial
      have hchildren : ∀ c ∈ nodes, ∃ k, b.kind? c = some k ∧ k.IsFinished :=
        fun c hc => hnodes.forest.kind?_of_mem hc
      apply (create_ensures hlower hexts _ (.inl hfinished) hchildren _).mono
      intro r b' hcreated
      cases hcreated
      apply ensures_bind
      apply ensures_bind
      apply ensures_kind?
      rw [kind?_alloc_self]
      apply ensures_adopt
      apply ensures_pure
      exact pushed_gathers (some b.size) path hg
        (adds_alloc_adopt hnodes.grows hfinished hnodes.forest (Nat.le_refl _))

/-- A switch is placed with its own tree or with the tree of its only child. -/
theorem switchChild_forest {lo hi : Nat} (h : Forest linked a lo hi [id]) (path : DataPath) :
    Forest linked a lo hi [(switchChild (a.kind? id) id path).node] := by
  unfold switchChild
  split
  · rename_i only hkind
    cases h with
    | cons hkind' _ hbelow _ hrest =>
      obtain rfl := Option.some.inj (hkind'.symm.trans hkind)
      have := hrest.le
      exact hbelow.widen (Nat.le_refl _) (by omega)
  · exact h

theorem Hooks.switch_ensures (hlower : lower.Sound linked I exts) (depth : Nat) (path : DataPath) {g : Gathered}
    {lo : Nat} (hg : Forest linked a lo a.size g.ids) (v : Value) :
    ((ofExtensions exts).switch lower depth path g v).Ensures I a
      (Gathers linked lo a) := by
  apply ensures_bind
  apply (build_ensures hlower v .value depth .switch nofun).mono
  intro built b hbuilt
  cases built with
  | none =>
    rcases hbuilt with hadds | ⟨-, id, hid, -⟩
    · exact ensures_pure (gathers_of_grows hg hadds.grows)
    · cases hid
  | some built =>
    apply ensures_bind
    apply (unlessEmpty_ensures hbuilt).mono
    intro node b' hadds
    cases node with
    | none => exact ensures_pure (gathers_of_grows hg hadds.grows)
    | some node =>
      apply ensures_bind
      apply ensures_kind?
      apply ensures_pure
      refine ⟨hadds.grows, ?_⟩
      have hforest := (hg.grows hadds.grows (Nat.le_refl _)).append (switchChild_forest hadds.forest path)
      simpa only [Gathered.ids, List.map_append, List.map_cons, List.map_nil] using hforest

theorem Hooks.entry_ensures (hlower : lower.Sound linked I exts) (hexts : ∀ e ∈ exts, e.Keeps I linked)
    (around : Value) (type : ContentType) (depth : Nat) (path : DataPath) {g : Gathered} {lo : Nat}
    (hg : Forest linked a lo a.size g.ids) (key : Segment) (v : Value) :
    ((ofExtensions exts).entry lower around type depth path g key v).Ensures I a
      (Gathers linked lo a) := by
  unfold entry
  dsimp only
  split
  · apply ensures_bind
    apply (hlower.object v .asset depth a).mono
    intro r b hadds
    exact ensures_pure (pushed_gathers _ _ hg hadds)
  split
  · rename_i htemplate
    obtain ⟨name, -, hname⟩ : ∃ name, key.asKey = some name ∧
        (ofExtensions exts).isOfType .template (.string name) = true := by
      simpa [Option.any_eq_true] using (Bool.and_eq_true_iff.1 htemplate).2
    obtain ⟨-, read, taps, hmem⟩ := template_of_typeOf (beq_iff_eq.1 hname)
    refine ensures_foldlM (Gathers linked lo a) ⟨.refl a, hg⟩ ?_
    intro descriptor _ g' b hg'
    apply (template_ensures hlower hexts hmem depth path hg'.2 descriptor).mono
    rintro g'' b' ⟨hgrows, hforest⟩
    exact ⟨hg'.1.trans hgrows, hforest⟩
  split
  · exact switch_ensures hlower depth _ hg v
  split
  · split
    · apply ensures_bind
      apply (async_ensures hlower hexts _ depth).mono
      intro r b hadds
      exact ensures_pure (pushed_gathers _ _ hg hadds)
    split
    · apply ensures_bind
      apply (build_ensures hlower _ .value depth .applicability nofun).mono
      intro r b hbuilt
      rcases hbuilt with hadds | ⟨hswitch, -⟩
      · exact ensures_pure (pushed_gathers _ _ hg hadds)
      · cases hswitch
    · exact hlower.gather _ type depth _ g lo a hg
  · exact members_ensures hlower hexts depth _ hg _ _
  · exact ensures_pure ⟨.refl a, hg⟩

theorem Hooks.gather_ensures (hlower : lower.Sound linked I exts) (hexts : ∀ e ∈ exts, e.Keeps I linked) (v : Value)
    (type : ContentType) (depth : Nat) (path : DataPath) {g : Gathered} {lo : Nat}
    (hg : Forest linked a lo a.size g.ids) :
    ((ofExtensions exts).gather lower v type depth path g).Ensures I a
      (Gathers linked lo a) := by
  unfold gather
  split
  · exact ensures_pure ⟨.refl a, .nil hg.le⟩
  · apply ensures_bind
    have hchanged : ((ofExtensions exts).changed v type : Build w _) = pure (some v) := by
      rw [changed, ofExtensions_onObject]
      rfl
    rw [hchanged]
    apply ensures_pure
    refine ensures_foldlM (Gathers linked lo a) ⟨.refl a, hg⟩ ?_
    intro item _ g' b hg'
    apply (entry_ensures hlower hexts v type depth path hg'.2 item.1 item.2).mono
    rintro g'' b' ⟨hgrows, hforest⟩
    exact ⟨hg'.1.trans hgrows, hforest⟩

/-! ## Levels -/

theorem Hooks.contentNode_ensures (type : ContentType) {g : Gathered} {b : Arena} (hgrows : Grows a b)
    (hg : Forest linked b a.size b.size g.ids) :
    (contentNode type g).Ensures I b fun r a' => a.Adds linked r.toList a' := by
  unfold contentNode
  split
  · exact ensures_pure hgrows.adds
  · apply ensures_bind
    apply ensures_alloc
    apply ensures_bind
    apply ensures_adopt
    apply ensures_pure
    have hfinished : (Kind.content type g.value g.children).IsFinished := trivial
    exact adds_alloc_adopt hgrows hfinished hg (Nat.le_refl _)

theorem Hooks.object_ensures (hlower : lower.Sound linked I exts) (hexts : ∀ e ∈ exts, e.Keeps I linked) (v : Value)
    (type : ContentType) (depth : Nat) (a : Arena) :
    ((ofExtensions exts).object lower v type depth).Ensures I a fun r a' => a.Adds linked r.toList a' := by
  -- without a built node, what was allocated for it is left behind
  have hcontent : ∀ b, Grows a b →
      (do
        let g ← (ofExtensions exts).gather lower v type depth [] .empty
        let base ← contentNode type g
        (ofExtensions exts).settle lower base v).Ensures I b fun r a' => a.Adds linked r.toList a' := by
    intro b hgrows
    apply ensures_bind
    apply (gather_ensures hlower hexts v type depth [] (.nil (Nat.le_refl b.size))).mono
    rintro g b' ⟨hgrows', hforest⟩
    apply ensures_bind
    apply (contentNode_ensures type hgrows' hforest).mono
    intro base b'' hadds
    have hsettled : Settled exts base b'' := by
      cases base with
      | none => exact nofun
      | some id =>
        obtain ⟨kind, hkind, hfinished⟩ := hadds.kind?
        exact settled_of_finished hkind hfinished
    apply (settle_of_settled hsettled v).mono
    rintro _ _ ⟨rfl, rfl⟩
    exact .of_grows hgrows hadds
  unfold object
  dsimp only
  cases htype : (ofExtensions exts).typeOf v with
  | none => exact hcontent a (.refl a)
  | some nodeType =>
    apply ensures_bind
    refine (build_ensures hlower v type depth nodeType ?_).mono ?_
    · rintro rfl
      exact (template_of_typeOf htype).1
    · intro built b hbuilt
      cases built with
      | some id => exact unlessEmpty_ensures hbuilt
      | none =>
        rcases hbuilt with hadds | ⟨-, id, hid, -⟩
        · exact hcontent b hadds.grows
        · cases hid

theorem Hooks.level_sound (hexts : ∀ e ∈ exts, e.Keeps I linked) (height : Nat) :
    ((ofExtensions exts).level height).Sound linked I exts := by
  induction height with
  | zero => exact Level.sound_bottom linked I exts
  | succ height ih =>
    refine ⟨?_, ?_, ?_⟩
    · exact fun v type depth a => object_ensures ih hexts v type depth a
    · exact fun kind source a hhandled hchildren => create_ensures ih hexts kind hhandled hchildren source
    · exact fun v type depth path g lo a hg => gather_ensures ih hexts v type depth path hg

end

/-! ## Trees that are built -/

/-- The tree comes out when content is built in a world, as an object of some content type or as a view. -/
inductive Hooks.Builds (hooks : Hooks w) (world : w) (content : Value) : Tree → Prop
  | object {limit : Nat} {type : ContentType} {depth : Nat} {tree : Tree} {world' : w} :
      hooks.buildObject limit content type depth world = some (some tree, world') → Builds hooks world content tree
  | view {limit : Nat} {depth : Nat} {tree : Tree} {world' : w} :
      (hooks.buildView limit content depth).Ends world (.ok tree) world' → Builds hooks world content tree

theorem Hooks.Builds.exists_object {hooks : Hooks w} {world : w} {content : Value} {tree : Tree}
    (h : hooks.Builds world content tree) :
    ∃ limit type depth world', hooks.buildObject limit content type depth world = some (some tree, world') := by
  cases h with
  | object h => exact ⟨_, _, _, _, h⟩
  | @view limit depth _ world' h =>
    unfold buildView at h
    split at h
    · cases (Action.throw_bind_ends.1 h).1
    rcases Action.bind_ends.1 h with ⟨e, -, hr⟩ | ⟨built, world₁, hobject, hrest⟩
    · cases hr
    obtain ⟨_, hrun, ⟨⟩⟩ := Action.lift_ends.1 hobject
    cases built with
    | none => cases (Action.throw_ends.1 hrest).1
    | some built =>
      obtain rfl : built = tree := by
        dsimp only at hrest
        split at hrest
        · cases (Action.throw_bind_ends.1 hrest).1
        rcases Action.bind_ends.1 hrest with ⟨e, -, hr⟩ | ⟨_, _, -, hlast⟩
        · cases hr
        · exact (Except.ok.inj (Action.pure_ends.1 hlast).1).symm
      exact ⟨limit, .view, depth, world₁, hrun⟩

/-- What a builder with standard extensions builds is a tree of finished nodes in its arena. -/
theorem Hooks.Builds.grown {I : w → Prop} {linked : Prop} {exts : List (Extension w)} {world : w} {content : Value}
    {tree : Tree} (hexts : ∀ e ∈ exts, e.Keeps I linked) (hworld : I world)
    (h : (ofExtensions exts).Builds world content tree) : tree.Grown linked := by
  obtain ⟨limit, type, depth, world', h⟩ := h.exists_object
  obtain ⟨⟨root, stage⟩, hobject, hresult⟩ := Option.bind_eq_some_iff.1 h
  have hadds := ((level_sound hexts limit).object content type depth .empty world root stage hworld hobject).2
  cases root with
  | none => cases hresult
  | some root =>
    cases hresult
    exact ⟨hadds.grows, hadds.forest, hadds.parents root List.mem_cons_self⟩

theorem Extension.keeps_anything (e : Extension w) : e.Keeps (fun _ => True) False := by
  cases e with
  | applicability => trivial
  | switch accepts => exact fun _ _ _ _ _ _ => trivial
  | template read taps => exact fun _ _ _ _ _ _ => ⟨trivial, False.elim⟩

/-- Whatever the content, the data, the conditions and the extensions in use, what is built is a tree of finished nodes:
no node is shared or left over from a replacement, and the walk from the root meets each once and ends. -/
theorem Hooks.wellListed_of_builds (exts : List (Extension w)) {world : w} {content : Value} {tree : Tree}
    (h : (ofExtensions exts).Builds world content tree) : tree.WellListed :=
  (h.grown (fun e _ => e.keeps_anything) trivial).wellListed

/-- A title that is chosen, a list with copies for two items, and a note with a condition. -/
theorem Hooks.wellListed_of_builds_sample :
    let document : Value := .object [("items", .array [.null, .null])]
    let read : String → Run Unit (Option Value) := fun raw => pure (document.get? (DataPath.ofText raw))
    let exts : List (Extension Unit) := [.template read ∅, .switch fun v => pure v.isTruthy, .applicability]
    let case (condition : Bool) (id : String) : Value :=
      .object [("case", .bool condition), ("asset", .object [("id", .string id)])]
    let content : Value := .object [
      ("title", .object [("staticSwitch", .array [case false "a", case true "b"])]),
      ("template", .array [.object [("data", .string "items"), ("output", .string "values"),
        ("value", .object [("id", .string "item-_index_")])]]),
      ("note", .object [("applicability", .string "shown"), ("text", .string "n")])]
    ∃ tree : Tree, (ofExtensions exts).Builds () content tree ∧ tree.WellListed := by
  intro document read exts case content
  have hbuilt : (((ofExtensions exts).buildObject 8 content .value 0 ()).bind Prod.fst).isSome = true := by
    decide +kernel
  obtain ⟨tree, htree⟩ := Option.isSome_iff_exists.1 hbuilt
  obtain ⟨⟨result, world⟩, hrun, rfl⟩ := Option.bind_eq_some_iff.1 htree
  exact ⟨tree, .object hrun, wellListed_of_builds exts (.object hrun)⟩

end DataBound.View
