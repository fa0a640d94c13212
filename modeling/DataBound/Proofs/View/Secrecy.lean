-- SUMMARY: Cases that no switch chooses have no part in what is built, unless something is written to the document.
import DataBound.Proofs.Binder.Sealing
import DataBound.Proofs.View.Standard
import DataBound.Proofs.View.Within

/-!
# Secrecy of cases

Bodies of all cases are built before one is chosen, so a body that is not shown can still read data, fill caches, leave
nodes in the arena, and write defaults that queries in its templates ask for. Unless something is written, this has no
effect on the result: contents that differ in what is not chosen give the same value or the same error.
-/

namespace DataBound.View

variable {w σ : Type}

namespace Extension

/-- The extension with the data of templates read in another way. -/
def reading (read : String → Run w (Option Value)) : Extension w → Extension w
  | .template _ taps => .template read taps
  | e => e

/-- What the standard extensions do untouched, they do with writing off. -/
theorem exists_sealed {host : Host σ} {untouched : σ → Prop} (hhost : host.Notices untouched) {limit : Nat}
    {document : σ → Value} {accepts : Value → Bool} {exts : List (Extension (Binder.State σ))}
    (hexts : exts.Perm (standard host limit document accepts)) :
    ∃ exts' : List (Extension (Binder.State σ)), exts'.Perm (standard host.sealed limit document accepts) ∧
      List.Forall₂ (Extension.Within fun s => untouched s.host) exts exts' := by
  refine ⟨_, hexts.map (reading ((Binder.ofHost host.sealed).valueAt? limit document)), ?_⟩
  rw [List.forall₂_map_right_iff, List.forall₂_same]
  intro e he
  have hmem := hexts.mem_iff.1 he
  simp only [standard, List.mem_cons, List.not_mem_nil, or_false] at hmem
  rcases hmem with rfl | rfl | rfl
  · exact .applicability
  · exact .switch fun v => within_pure _
  · exact .template ∅ fun raw s r s' h hs' => Binder.valueAt?_sealed hhost h hs'

end Extension

/-! ## Data that stays as it is -/

/-- The rules over one state of the data. The bodies of cases are left out that a static switch does not come to. -/
def Rules.lazy (R : Rules (Run σ)) (world : σ) : Rules Option where
  typeOf := R.typeOf
  accepts := R.accepts
  read raw := (R.read raw world).map Prod.fst
  taps := R.taps
  heed _ _ := some ()
  skips := true

theorem Rules.lazy_isLazy (R : Rules (Run σ)) (world : σ) : (R.lazy world).Lazy := ⟨rfl, fun _ _ => rfl⟩

/-- Computations that leave the state as it is, and their results. -/
def Simulation.still (world : σ) : Simulation (Run σ) Option where
  Rel x y := ∀ r last, x world = some (r, last) → last = world ∧ y = some r
  pure r := by
    rintro _ _ ⟨⟩
    exact ⟨rfl, rfl⟩
  bind hx hf := by
    intro r last hrun
    obtain ⟨⟨t, between⟩, ht, hrest⟩ := Option.bind_eq_some_iff.1 hrun
    obtain ⟨rfl, hy⟩ := hx t between ht
    obtain ⟨rfl, hr⟩ := hf t r last hrest
    exact ⟨rfl, Option.bind_eq_some_iff.2 ⟨t, hy, hr⟩⟩

section

variable {R : Rules (Run σ)} {world : σ}

/-- The first accepted case of those that were built is the one at which a lazy search stops. -/
theorem Simulation.still_shown {lower : Outline (Run σ)} {upper : Outline Option}
    (h : (still world).Outlines lower upper) (depth : Nat) (cases : List Value) {found : List (Value × Shape)} {last : σ}
    (hfound : cases.filterMapM (lower.case depth) world = some (found, last)) :
    last = world ∧ (R.lazy world).firstShown upper depth cases =
      some ((found.find? fun c => R.accepts c.1).map Prod.snd) := by
  induction cases generalizing found last with
  | nil =>
    cases hfound
    exact ⟨rfl, rfl⟩
  | cons c rest ih =>
    rcases Outline.cases_cons hfound with ⟨hc, hrest⟩ | ⟨fields, t, between, others, rfl, hbody, hrest, rfl⟩
    · have hskipped : (R.lazy world).firstShown upper depth (c :: rest) = (R.lazy world).firstShown upper depth rest := by
        cases c <;> first | rfl | cases hc
      rw [hskipped]
      exact ih hrest
    · obtain ⟨rfl, hbody'⟩ := h.object _ _ _ _ _ hbody
      obtain ⟨hlast, hshown⟩ := ih hrest
      refine ⟨hlast, ?_⟩
      unfold Rules.firstShown
      cases t with
      | none =>
        split
        · exact Option.bind_eq_some_iff.2 ⟨none, hbody', hshown⟩
        · exact hshown
      | some s =>
        rw [Option.map_some, Option.toList_some, List.singleton_append, List.find?_cons]
        cases haccepted : R.accepts (caseCondition fields) with
        | true => exact (if_pos haccepted).trans (Option.bind_eq_some_iff.2 ⟨some s, hbody', rfl⟩)
        | false => exact (if_neg (Bool.eq_false_iff.1 haccepted)).trans hshown

/-- Where reads leave the data alone, a builder that builds all cases comes to what a lazy one comes to. -/
theorem Simulation.outline_still
    (hreads : ∀ raw r last, R.read raw world = some (r, last) → last = world)
    (hheed : ∀ v depth last, R.heed v depth world = some ((), last) → last = world) (hskips : R.skips = false)
    (height : Nat) : (still world).Outlines (R.outline height) ((R.lazy world).outline height) := by
  have hagree : (still world).Agree R (R.lazy world) := by
    refine ⟨rfl, rfl, ?_, ?_, ?_⟩
    · intro raw r last hrun
      exact ⟨hreads raw r last hrun, Option.map_eq_some_iff.2 ⟨_, hrun, rfl⟩⟩
    · intro v depth _ last hrun
      exact ⟨hheed v depth last hrun, rfl⟩
    · intro lower upper h depth cases r last hrun
      unfold Rules.shown at hrun
      rw [hskips, if_neg Bool.false_ne_true] at hrun
      obtain ⟨⟨found, between⟩, hfound, hr⟩ := Option.bind_eq_some_iff.1 hrun
      cases hr
      exact still_shown h depth cases hfound
  apply Simulation.outline hagree
  rintro τ r last ⟨⟩

end

namespace Hooks

/-! ## Two runs -/

section

variable {host : Host σ} {untouched : σ → Prop} {limit : Nat} {document : σ → Value} {accepts : Value → Bool}
  {exts : List (Extension (Binder.State σ))} {world : σ} {content content' : Value} {depth : Nat}
  {s s' : Binder.State σ}

/-- Over a host that only reads, what is built is what the lazy rules say. -/
theorem outline_still_of_onlyReads (hhost : host.OnlyReads) (height : Nat) :
    let R := Rules.standard exts host limit document accepts
    (Simulation.still world).Outlines (R.outline height) ((R.lazy world).outline height) := by
  apply Simulation.outline_still
  · intro raw r last hrun
    obtain ⟨⟨_, t⟩, hread, hr⟩ := Option.map_eq_some_iff.1 hrun
    cases hr
    exact (Binder.valueAt?_over hhost ⟨Binder.State.sound_start _ _, rfl⟩ hread).1.host_eq
  · rintro v depth last ⟨⟩
    rfl
  · rfl

/-- In some run that leaves the world untouched the value is built to a node. -/
def Gives (hooks : Hooks (Binder.State σ)) (untouched : σ → Prop) (world : σ) (depth : Nat) (v : Value) : Prop :=
  ∃ limit s s' tree, s.Over world ∧ hooks.buildObject limit v .value depth s = some (some tree, s') ∧ untouched s'.host

/-- A run decides that a value is built to a node. -/
theorem gives_of_any {hooks : Hooks (Binder.State σ)} {written : σ → Bool} (hs : s.Over world) {n : Nat} {v : Value}
    (h : (hooks.buildObject n v .value depth s).any (fun last => last.1.isSome && !written last.2.host) = true) :
    hooks.Gives (fun host => written host = false) world depth v := by
  obtain ⟨⟨result, last⟩, hrun, hlast⟩ := (Option.any_eq_true _ _).1 h
  obtain ⟨hsome, hwritten⟩ := Bool.and_eq_true_iff.1 hlast
  obtain ⟨tree, rfl⟩ := Option.isSome_iff_exists.1 hsome
  exact ⟨n, s, last, tree, hs, hrun, by simpa using hwritten⟩

/-- A run decides that content gives a view. -/
theorem exists_view_of_any {hooks : Hooks (Binder.State σ)} {written : σ → Bool} {n : Nat}
    (h : ((hooks.buildView n content depth).run.run s).any
      (fun last => last.1.toOption.any fun _ => !written last.2.host) = true) :
    ∃ tree last, (hooks.buildView n content depth).Ends s (.ok tree) last ∧ written last.host = false := by
  obtain ⟨tree, last, htree, hlast⟩ :=
    Action.exists_ends_ok (p := fun _ (last : Binder.State σ) => !written last.host) h
  exact ⟨tree, last, htree, by simpa using hlast⟩

theorem exists_outline_of_buildObject (hhost : host.OnlyReads) (hpaths : host.GoesByPaths)
    (hexts : exts.Perm (Extension.standard host limit document accepts)) (hs : s.Over world) {n : Nat} {v : Value}
    {type : ContentType} {r : Option Tree} {last : Binder.State σ}
    (h : (ofExtensions exts).buildObject n v type depth s = some (r, last)) :
    ∃ t, (((Rules.standard exts host limit document accepts).lazy world).outline n).object v type depth = some t ∧
      Option.Rel Tree.Has r t := by
  have hrel := buildObject_outline (Rules.standard_govern hexts hpaths) hs n v type depth
  rw [h] at hrel
  obtain ⟨⟨t, last'⟩, houtline, -, hhas⟩ := exists_of_rel_left hrel
  exact ⟨t, ((outline_still_of_onlyReads hhost n).object v type depth _ _ houtline).2, hhas⟩

theorem exists_outline_of_buildView (hhost : host.OnlyReads) (hpaths : host.GoesByPaths)
    (hexts : exts.Perm (Extension.standard host limit document accepts)) (hs : s.Over world) {n : Nat} {v : Value}
    {r : Except Error Tree} {last : Binder.State σ} (h : ((ofExtensions exts).buildView n v depth).Ends s r last) :
    ((Rules.standard exts host limit document accepts).lazy world).view n v depth = some (r.map Tree.toValue) := by
  have hrel := buildView_outline (Rules.standard_govern hexts hpaths) hs n v depth
  have hrun : ((ofExtensions exts).buildView n v depth).run.run s = some (r, last) := h
  rw [hrun] at hrel
  obtain ⟨⟨t, last'⟩, houtline, -, hvalue⟩ := exists_of_rel_left hrel
  rw [hvalue]
  exact ((outline_still_of_onlyReads hhost n).view v depth _ _ houtline).2

theorem Gives.exists_outline (hhost : host.OnlyReads) (hpaths : host.GoesByPaths)
    (hexts : exts.Perm (Extension.standard host limit document accepts)) {body : Value}
    (h : (ofExtensions exts).Gives untouched world depth body) :
    ∃ height shape, (((Rules.standard exts host limit document accepts).lazy world).outline height).object body .value
      depth = some (some shape) := by
  obtain ⟨height, t, t', tree, ht, hbuilt, -⟩ := h
  obtain ⟨shape, houtline, hrel⟩ := exists_outline_of_buildObject hhost hpaths hexts ht hbuilt
  cases hrel with
  | some _ => exact ⟨height, _, houtline⟩

theorem Gives.within {exts' : List (Extension (Binder.State σ))}
    (hwithin : List.Forall₂ (Extension.Within fun s => untouched s.host) exts exts') {body : Value}
    (h : (ofExtensions exts).Gives untouched world depth body) :
    (ofExtensions exts').Gives (fun _ => True) world depth body := by
  obtain ⟨height, t, t', tree, ht, hbuilt, ht'⟩ := h
  exact ⟨height, t, t', tree, ht, (buildObject_within hwithin height body .value depth _ _ _ hbuilt ht').2, trivial⟩

/-- What is built to equal values with writing off is built to equal values as long as nothing is written. -/
theorem build_eq_of_within {exts' : List (Extension (Binder.State σ))}
    (hwithin : List.Forall₂ (Extension.Within fun s => untouched s.host) exts exts') {n n' : Nat}
    (h : (∀ type r r' last last', (ofExtensions exts').buildObject n content type depth s = some (r, last) →
        (ofExtensions exts').buildObject n' content' type depth s' = some (r', last') →
        r.map Tree.toValue = r'.map Tree.toValue) ∧
      ∀ r r' last last', ((ofExtensions exts').buildView n content depth).Ends s r last →
        ((ofExtensions exts').buildView n' content' depth).Ends s' r' last' →
        r.map Tree.toValue = r'.map Tree.toValue) :
    (∀ type r r' last last', (ofExtensions exts).buildObject n content type depth s = some (r, last) →
      (ofExtensions exts).buildObject n' content' type depth s' = some (r', last') →
      untouched last.host → untouched last'.host → r.map Tree.toValue = r'.map Tree.toValue) ∧
    ∀ r r' last last', ((ofExtensions exts).buildView n content depth).Ends s r last →
      ((ofExtensions exts).buildView n' content' depth).Ends s' r' last' →
      untouched last.host → untouched last'.host → r.map Tree.toValue = r'.map Tree.toValue := by
  obtain ⟨hobjects, hviews⟩ := h
  constructor
  · intro type r r' last last' hr hr' hlast hlast'
    have hsealed := (buildObject_within hwithin n content type depth _ _ _ hr hlast).2
    have hsealed' := (buildObject_within hwithin n' content' type depth _ _ _ hr' hlast').2
    exact hobjects type r r' last last' hsealed hsealed'
  · intro r r' last last' hr hr' hlast hlast'
    have hsealed := (buildView_within hwithin n content depth _ _ _ hr hlast).2
    have hsealed' := (buildView_within hwithin n' content' depth _ _ _ hr' hlast').2
    exact hviews r r' last last' hsealed hsealed'

theorem build_unseen_of_onlyReads (hhost : host.OnlyReads) (hpaths : Binder.ReadsPaths host)
    (hexts : exts.Perm (Extension.standard host limit document accepts)) {gives : Value → Prop}
    (hgives : ∀ body, gives body → (ofExtensions exts).Gives (fun _ => True) world depth body)
    (h : Unseen (ofExtensions exts).typeOf accepts gives content content') (hs : s.Over world) (hs' : s'.Over world)
    (n n' : Nat) :
    (∀ type r r' last last', (ofExtensions exts).buildObject n content type depth s = some (r, last) →
      (ofExtensions exts).buildObject n' content' type depth s' = some (r', last') →
      r.map Tree.toValue = r'.map Tree.toValue) ∧
    ∀ r r' last last', ((ofExtensions exts).buildView n content depth).Ends s r last →
      ((ofExtensions exts).buildView n' content' depth).Ends s' r' last' → r.map Tree.toValue = r'.map Tree.toValue := by
  have hpaths := hhost.goesByPaths hpaths
  let R := (Rules.standard exts host limit document accepts).lazy world
  have hrules : R.Lazy := Rules.lazy_isLazy _ world
  have htypes : TypesByFields R.typeOf := Rules.standard_typesByFields hexts
  have hblind : ∀ height, (R.outline height).Blind R gives depth := by
    apply Rules.outline_blind hrules htypes
    exact fun body hbody => (hgives body hbody).exists_outline hhost hpaths hexts
  -- one shape, or none, at whatever heights the two contents are built
  have hsame : ∀ type t t', (R.outline n).object content type depth = some t →
      (R.outline n').object content' type depth = some t' → t = t' := by
    intro type t t' ht ht'
    rw [(hblind n').object content content' type h] at ht'
    exact Rules.object_unique ht ht'
  constructor
  · intro type r r' last last' hr hr'
    obtain ⟨t, ht, hrel⟩ := exists_outline_of_buildObject hhost hpaths hexts hs hr
    obtain ⟨t', ht', hrel'⟩ := exists_outline_of_buildObject hhost hpaths hexts hs' hr'
    obtain rfl := hsame type t t' ht ht'
    exact (toValue_eq_of_has hrel).trans (toValue_eq_of_has hrel').symm
  · intro r r' last last' hr hr'
    have ht := exists_outline_of_buildView hhost hpaths hexts hs hr
    have ht' := exists_outline_of_buildView hhost hpaths hexts hs' hr'
    unfold Rules.view at ht ht'
    rw [← h.isObject_eq] at ht'
    split at ht
    · rename_i hobject
      rw [if_pos hobject] at ht'
      obtain ⟨t, ht, hvalue⟩ := Option.bind_eq_some_iff.1 ht
      obtain ⟨t', ht', hvalue'⟩ := Option.bind_eq_some_iff.1 ht'
      obtain rfl := hsame .view t t' ht ht'
      exact Option.some.inj (hvalue.symm.trans hvalue')
    · rename_i hobject
      rw [if_neg hobject] at ht'
      exact Option.some.inj (ht.symm.trans ht')

/-- Whatever the content, the document, the conditions and the order of the extensions: contents that differ in what is
not chosen in a static switch are built to equal values, or both to nothing, and as views they give equal values or the
same error, also if other things were built and read before, as long as nothing is written. -/
theorem build_unseen (hhost : host.Notices untouched) (hpaths : Binder.ReadsPaths host)
    (hexts : exts.Perm (Extension.standard host limit document accepts))
    (h : Unseen (ofExtensions exts).typeOf accepts ((ofExtensions exts).Gives untouched world depth) content content')
    (hs : s.Over world) (hs' : s'.Over world) (n n' : Nat) :
    (∀ type r r' last last', (ofExtensions exts).buildObject n content type depth s = some (r, last) →
      (ofExtensions exts).buildObject n' content' type depth s' = some (r', last') →
      untouched last.host → untouched last'.host → r.map Tree.toValue = r'.map Tree.toValue) ∧
    ∀ r r' last last', ((ofExtensions exts).buildView n content depth).Ends s r last →
      ((ofExtensions exts).buildView n' content' depth).Ends s' r' last' →
      untouched last.host → untouched last'.host → r.map Tree.toValue = r'.map Tree.toValue := by
  obtain ⟨exts', hexts', hwithin⟩ := Extension.exists_sealed hhost hexts
  have htypes : (ofExtensions exts).typeOf = (ofExtensions exts').typeOf := funext (typeOf_eq_of_within hwithin)
  rw [htypes] at h
  apply build_eq_of_within hwithin
  exact build_unseen_of_onlyReads hhost.onlyReads hpaths hexts' (fun body hbody => hbody.within hwithin) h hs hs' n n'

end

/-- Two runs decide that two contents give views with different values. -/
theorem exists_views_ne {w : Type} {hooks : Hooks w} {n n' : Nat} {content content' : Value} {depth : Nat} {s s' : w}
    (p : Value → Bool) (h : ((hooks.buildView n content depth).run.run s).any
      (fun last => last.1.toOption.any fun tree => p tree.toValue) = true)
    (h' : ((hooks.buildView n' content' depth).run.run s').any
      (fun last => last.1.toOption.any fun tree => !p tree.toValue) = true) :
    ∃ tree tree' last last', (hooks.buildView n content depth).Ends s (.ok tree) last ∧
      (hooks.buildView n' content' depth).Ends s' (.ok tree') last' ∧ tree.toValue ≠ tree'.toValue := by
  obtain ⟨tree, last, htree, hp⟩ := Action.exists_ends_ok (p := fun (tree : Tree) _ => p tree.toValue) h
  obtain ⟨tree', last', htree', hp'⟩ := Action.exists_ends_ok (p := fun (tree : Tree) _ => !p tree.toValue) h'
  refine ⟨tree, tree', last, last', htree, htree', ?_⟩
  intro hsame
  rw [← hsame, hp] at hp'
  cases hp'

/-- A list with a switch that has an expression: the second case is chosen, and the others are exchanged. -/
theorem build_unseen_item :
    let host := Host.ofDocument Tracked.document Tracked.write
    let untouched (tracked : Tracked) : Prop := tracked.written = false
    let exts := Extension.standard host 4 Tracked.document Value.isTruthy
    let world : Tracked := ⟨.object [("items", .array [.null])], false⟩
    let s : Binder.State Tracked := .start .unbounded world
    let list (first last : Fields) : Value := .array [.object (("case", .bool false) :: first),
      .object [("case", .bool true), ("id", .string "shown")], .object (("case", .bool true) :: last)]
    let content (cases : Value) : Value := .object [("id", .string "v"),
      ("notes", .array [.object [("applicability", .string "c"), ("staticSwitch", cases)]])]
    let hidden := list [("id", .string "a")] [("id", .string "b")]
    let other := list [("text", .string "c"), ("id", .string "d")] []
    host.Notices untouched ∧ Binder.ReadsPaths host ∧ s.Over world ∧
      Unseen (ofExtensions exts).typeOf Value.isTruthy ((ofExtensions exts).Gives untouched world 0) (content hidden)
        (content other) ∧
      ∃ tree tree' last last', ((ofExtensions exts).buildView 16 (content hidden) 0).Ends s (.ok tree) last ∧
        ((ofExtensions exts).buildView 16 (content other) 0).Ends s (.ok tree') last' ∧
        untouched last.host ∧ untouched last'.host ∧ tree.toValue = tree'.toValue := by
  intro host untouched exts world s list content hidden other
  have hhost : host.Notices untouched := Tracked.notices
  have hpaths : Binder.ReadsPaths host := Binder.ofDocument_readsPaths _ _
  have hs : s.Over world := ⟨Binder.State.sound_start _ _, rfl⟩
  have hgives : (ofExtensions exts).Gives untouched world 0 (.object [("id", .string "shown")]) :=
    gives_of_any (n := 4) hs (by decide +kernel)
  have hunseen : Unseen (ofExtensions exts).typeOf Value.isTruthy ((ofExtensions exts).Gives untouched world 0)
      (content hidden) (content other) := by
    let switch (cases : Value) : Fields := [("applicability", .string "c"), ("staticSwitch", cases)]
    have hshown : ∀ c, some (Value.object [("case", .bool true), ("id", .string "shown")]) = some c →
        (ofExtensions exts).Gives untouched world 0 (Switch.body c) := by
      rintro _ ⟨⟩
      exact hgives
    have hswitch : Unseen (ofExtensions exts).typeOf Value.isTruthy ((ofExtensions exts).Gives untouched world 0)
        (.object (switch hidden)) (.object (switch other)) := .switch ⟨rfl, rfl, ⟨_, rfl, rfl⟩, hshown⟩ (.inr rfl)
    have hnotes : Unseen (ofExtensions exts).typeOf Value.isTruthy ((ofExtensions exts).Gives untouched world 0)
        (.array [.object (switch hidden)]) (.array [.object (switch other)]) :=
      @Unseen.item _ _ _ [] [] _ _ hswitch
    have hfind : Fields.find? "notes" [("id", .string "v"), ("notes", .array [.object (switch hidden)])] =
        some (.array [.object (switch hidden)]) := rfl
    exact .field hfind (by decide) nofun nofun hnotes
  obtain ⟨tree, last, htree, hlast⟩ : ∃ tree last,
      ((ofExtensions exts).buildView 16 (content hidden) 0).Ends s (.ok tree) last ∧ untouched last.host :=
    exists_view_of_any (by decide +kernel)
  obtain ⟨tree', last', htree', hlast'⟩ : ∃ tree last,
      ((ofExtensions exts).buildView 16 (content other) 0).Ends s (.ok tree) last ∧ untouched last.host :=
    exists_view_of_any (by decide +kernel)
  refine ⟨hhost, hpaths, hs, hunseen, tree, tree', last, last', htree, htree', hlast, hlast', ?_⟩
  have hsame := (build_unseen hhost hpaths (.refl exts) hunseen hs hs 16 16).2 _ _ _ _ htree htree' hlast hlast'
  exact Except.ok.inj hsame

/-- Where a case that is chosen gives no node, the next accepted case is shown. Where a switch with an expression chooses
no case, the expression is asked first, and the switch is an item, the list of its cases is shown. -/
theorem build_shows_unchosen :
    let host : Host Value := (Host.ofDocument id fun document _ => document).sealed
    let exts := Extension.standard host 4 id Value.isTruthy
    let s : Binder.State Value := .start .unbounded .null
    let accepted (body : Fields) : List Value := [.object [("case", .bool true)], .object (("case", .bool true) :: body)]
    let rejected (body : Fields) : List Value := [.object (("case", .bool false) :: body)]
    let title (cases : List Value) : Value := .object [("id", .string "v"),
      ("title", .object [("staticSwitch", .array cases)])]
    let items (cases : List Value) : Value := .object [("id", .string "v"),
      ("items", .array [.object [("applicability", .string "c"), ("staticSwitch", .array cases)]])]
    let shows (content content' : Value) : Prop := ∃ tree tree' last last',
      ((ofExtensions exts).buildView 16 content 0).Ends s (.ok tree) last ∧
      ((ofExtensions exts).buildView 16 content' 0).Ends s (.ok tree') last' ∧ tree.toValue ≠ tree'.toValue
    host.Notices (fun _ => True) ∧ Binder.ReadsPaths host ∧
    Switch.chosen? Value.isTruthy (accepted [("id", .string "late")]) = Switch.chosen? Value.isTruthy (accepted []) ∧
    shows (title (accepted [("id", .string "late")])) (title (accepted [])) ∧
    Switch.chosen? Value.isTruthy (rejected [("id", .string "secret")]) = none ∧
    Switch.chosen? Value.isTruthy (rejected []) = none ∧
    shows (items (rejected [("id", .string "secret")])) (items (rejected [])) := by
  intro host exts s accepted rejected title items shows
  let type (name : String) : String × Value := ("type", .string name)
  let multi (values : List Value) : Value :=
    .object [type "multi-node", ("override", .bool true), ("values", .array values)]
  let child (key : String) (v : Value) : String × Value :=
    ("children", .array [.object [("path", .array [.string key]), ("value", v)]])
  let late : Value := .object [type "view", ("value", .object [("id", .string "v")]),
    child "title" (.object [type "value", ("value", .object [("id", .string "late")])])]
  let secret : Value := .object [type "value", ("value", .object [("case", .bool false), ("id", .string "secret")])]
  let leaked : Value := .object [type "view", ("value", .object [("id", .string "v")]),
    child "items" (multi [.object [type "value", ("value", .object [("applicability", .string "c")]),
      child "staticSwitch" (multi [secret])]])]
  have hnotices : host.Notices fun _ => True := (Host.ofDocument_onlyReads _ _).notices
  have hpaths : Binder.ReadsPaths host := Binder.ofDocument_readsPaths id fun document _ => document
  refine ⟨hnotices, hpaths, rfl, exists_views_ne late.same ?_ ?_, rfl, rfl, exists_views_ne leaked.same ?_ ?_⟩
  all_goals decide +kernel

end Hooks

end DataBound.View
