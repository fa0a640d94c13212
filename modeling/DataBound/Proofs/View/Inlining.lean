-- SUMMARY: A static switch that is an item of a property can be replaced by the body of the case that it shows.
import DataBound.Proofs.View.Admission
import DataBound.Proofs.View.Inlined

/-!
# Static switches in arrays

What a static switch in an array shows is the body of the first accepted case that gives a node. With the body put in the
place of the switch, or with nothing if no case is shown, the content comes to the same.

The bodies that are not shown are built all the same, and templates in them can write to the data. So it is asked of them
that they leave the data alone where the switch is built. What is written elsewhere, before the switch, after it or by the
body that is shown, is no matter: it is written with the body in the place of the switch as well. Over data that is only
read, and where reads end, this can always be said of a switch (`exists_shows`).

The switch takes a level of the builder that its body does not take by itself. So what is shown is one direction, at
every height: what the content with the switch comes to, the content without it comes to as well.
-/

namespace DataBound.View

open Fields

/-! ## What is shown -/

section

variable {σ : Type}

/-- At a state of the data a list of cases shows the first accepted one of those that give a node, and the bodies of the
others leave the data alone. What bodies come to is said by `comes`: from which state, whether to a node, and at which
state. -/
inductive Shows (accepts : Value → Bool) (comes : σ → Value → Bool → σ → Prop) (h : σ) :
    List Value → Option Fields → Prop
  | nothing : Shows accepts comes h [] none
  | case {h' : σ} {fields : Fields} {rest : List Value} : accepts (caseCondition fields) = true →
      comes h (withoutField Switch.conditionField fields) true h' →
      (∀ fields', .object fields' ∈ rest → ∃ given, comes h' (withoutField Switch.conditionField fields') given h') →
      Shows accepts comes h (.object fields :: rest) (some fields)
  /-- A case is passed over if it is not accepted or gives no node, and so is what is no case. -/
  | later {c : Value} {rest : List Value} {shown : Option Fields} :
      (∀ fields, c = .object fields → ∃ given, comes h (withoutField Switch.conditionField fields) given h ∧
        (given = true → accepts (caseCondition fields) = false)) →
      Shows accepts comes h rest shown → Shows accepts comes h (c :: rest) shown

/-- The object that is nothing but a static switch. -/
def staticSwitch (list : Value) : Value := .object [(Switch.staticField, list)]

/-- What stands in the place of a switch that shows the case: its body. -/
def bodyOf (shown : Option Fields) : Option Value := shown.map (withoutField Switch.conditionField)

theorem Shows.imp {accepts : Value → Bool} {comes comes' : σ → Value → Bool → σ → Prop} {h : σ} {cases : List Value}
    {shown : Option Fields} (hcomes : ∀ h body given h', comes h body given h' → comes' h body given h')
    (hshows : Shows accepts comes h cases shown) : Shows accepts comes' h cases shown := by
  induction hshows with
  | nothing => exact .nothing
  | case haccepted hbody hrest =>
    exact .case haccepted (hcomes _ _ _ _ hbody) fun fields hmem => (hrest fields hmem).imp fun _ => hcomes _ _ _ _
  | later hpassed _ ih =>
    exact .later (fun fields hc => (hpassed fields hc).imp fun _ => And.imp_left (hcomes _ _ _ _)) ih

/-- At some height the rules make of the body what is said. -/
def Rules.Comes (R : Rules (Run σ)) (depth : Nat) (h : σ) (body : Value) (given : Bool) (h' : σ) : Prop :=
  ∃ height t, (R.outline height).object body .value depth h = some (t, h') ∧ t.isSome = given

variable {R R' : Rules (Run σ)} {depth : Nat} {lower upper : Outline (Run σ)} {shown : Option Fields} {list : Value}
  {h : σ} {cases : List Value}

theorem Rules.Comes.unique {body : Value} {given : Bool} {h' : σ} (hcomes : R.Comes depth h body given h') {height : Nat}
    (hlower : (Refinement.runs σ).Outlines lower (R.outline height)) {t : Option Shape} {last : σ}
    (hrun : lower.object body .value depth h = some (t, last)) : t.isSome = given ∧ last = h' := by
  obtain ⟨height', t', houtline, hgiven⟩ := hcomes
  cases object_run_unique houtline (hlower.object body .value depth h _ hrun)
  exact ⟨hgiven, rfl⟩

/-- Cases whose bodies leave the data alone leave it alone. -/
theorem filterMapM_case_stays {height : Nat} (hlower : (Refinement.runs σ).Outlines lower (R.outline height))
    (hcases : ∀ fields, .object fields ∈ cases →
      ∃ given, R.Comes depth h (withoutField Switch.conditionField fields) given h)
    {found : List (Value × Shape)} {last : σ} (hrun : cases.filterMapM (lower.case depth) h = some (found, last)) :
    last = h := by
  induction cases generalizing found last with
  | nil =>
    cases hrun
    rfl
  | cons c rest ih =>
    have hrest : ∀ fields, .object fields ∈ rest →
        ∃ given, R.Comes depth h (withoutField Switch.conditionField fields) given h :=
      fun fields hmem => hcases fields (List.mem_cons_of_mem _ hmem)
    rcases Outline.cases_cons hrun with ⟨-, hothers⟩ | ⟨fields, t, between, others, rfl, hbody, hothers, rfl⟩
    · exact ih hrest hothers
    · obtain ⟨given, hcomes⟩ := hcases fields List.mem_cons_self
      obtain ⟨-, rfl⟩ := hcomes.unique hlower hbody
      exact ih hrest hothers

/-- A list of cases comes to the body of the case that it shows. -/
theorem Shows.firstFound_refines {height : Nat} (hlower : (Refinement.runs σ).Outlines lower (R.outline height))
    (hshows : Shows R'.accepts (R.Comes depth) h cases shown) :
    Refines (R'.firstFound lower depth cases h) (lower.inPlace (bodyOf shown) depth h) := by
  induction hshows with
  | nothing => exact .refl _
  | @case h' fields rest haccepted hcomes hrest =>
    intro r hr
    obtain ⟨⟨found, last⟩, hfound, hr⟩ := Option.bind_eq_some_iff.1 hr
    cases hr
    rcases Outline.cases_cons hfound with ⟨hno, -⟩ | ⟨_, t, between, others, hfields, hbody, hothers, rfl⟩
    · cases hno
    · cases hfields
      obtain ⟨hgiven, rfl⟩ := hcomes.unique hlower hbody
      obtain ⟨s, rfl⟩ := Option.isSome_iff_exists.1 hgiven
      obtain rfl := filterMapM_case_stays hlower hrest hothers
      have hfirst := List.find?_cons_of_pos (p := fun c : Value × Shape => R'.accepts c.1)
        (a := (caseCondition fields, s)) (l := others) haccepted
      rw [Option.map_some, Option.toList_some, List.singleton_append, hfirst]
      exact hbody
  | @later c rest shown hpassed _ ih =>
    intro r hr
    obtain ⟨⟨found, last⟩, hfound, hr⟩ := Option.bind_eq_some_iff.1 hr
    cases hr
    rcases Outline.cases_cons hfound with ⟨-, hothers⟩ | ⟨fields, t, between, others, rfl, hbody, hothers, rfl⟩
    · exact ih _ (Option.bind_eq_some_iff.2 ⟨_, hothers, rfl⟩)
    · obtain ⟨given, hcomes, hrejected⟩ := hpassed fields rfl
      obtain ⟨rfl, rfl⟩ := hcomes.unique hlower hbody
      have hlater := ih _ (Option.bind_eq_some_iff.2 ⟨_, hothers, rfl⟩)
      cases t with
      | none => exact hlater
      | some s =>
        have hfirst := List.find?_cons_of_neg (p := fun c : Value × Shape => R'.accepts c.1)
          (a := (caseCondition fields, s)) (l := others) (Bool.eq_false_iff.1 (hrejected rfl))
        rw [Option.map_some, Option.toList_some, List.singleton_append, hfirst]
        exact hlater

theorem Outline.inPlace_refines (h : (Refinement.runs σ).Outlines lower upper) (item? : Option Value) (depth : Nat) :
    (Refinement.runs σ).Rel (lower.inPlace item? depth) (upper.inPlace item? depth) := by
  cases item? with
  | none => exact (Refinement.runs σ).refl _
  | some item => exact h.object item .value depth

/-- What comes in the place of the switch is not empty. -/
theorem Rules.inPlace_unlessEmpty (R : Rules (Run σ)) (lower : Outline (Run σ)) (item? : Option Value) (depth : Nat) : (do
    let t ← (R.step lower).inPlace item? depth
    pure (t.bind Shape.unlessEmpty)) = (R.step lower).inPlace item? depth := by
  cases item? with
  | none => exact pure_bind _ _
  | some item => exact R.object_unlessEmpty lower item .value depth

theorem Outline.filterMapM_case_filter (lower : Outline (Run σ)) (depth : Nat) (cases : List Value) :
    (cases.filter Value.isObject).filterMapM (lower.case depth) = cases.filterMapM (lower.case depth) := by
  induction cases with
  | nil => rfl
  | cons c rest ih =>
    cases c with
    | object fields => rw [List.filter_cons_of_pos rfl, List.filterMapM_cons, List.filterMapM_cons, ih]
    | _ =>
      rw [List.filter_cons_of_neg Bool.false_ne_true, List.filterMapM_cons, ih]
      exact (pure_bind _ _).symm

/-- The same cases with other items between them, which are no cases, come to the same. -/
theorem Rules.firstFound_congr {cases cases' : List Value}
    (h : cases.filter Value.isObject = cases'.filter Value.isObject) :
    R.firstFound lower depth cases = R.firstFound lower depth cases' := by
  unfold firstFound
  rw [← lower.filterMapM_case_filter depth cases, h, lower.filterMapM_case_filter]

/-- A static switch comes to what its list of cases comes to. -/
theorem Rules.object_staticSwitch (htypes : TypesByFields R.typeOf) (hcomplete : R.skips = false)
    (lower : Outline (Run σ)) (list : Value) (type : ContentType) (depth : Nat) :
    R.object lower (staticSwitch list) type depth = (do
      R.heed (staticSwitch list) depth
      let t ← R.firstFound lower depth (caseItems (some list))
      lower.alive
      pure (t.bind Shape.unlessEmpty)) := by
  have htype : R.typeOf (staticSwitch list) = some .switch := htypes.switch _ rfl rfl
  have hswitch : R.switch lower depth [(Switch.staticField, list)] = (do
      let t ← R.firstFound lower depth (caseItems (some list))
      lower.alive
      pure (t.getD .empty)) := by
    unfold Rules.switch Rules.shown
    rw [hcomplete, if_neg Bool.false_ne_true]
    rfl
  have hmake : R.make lower (staticSwitch list) type depth .switch = (do
      let s ← R.switch lower depth [(Switch.staticField, list)]
      pure (some s)) := rfl
  have hempty : ∀ t : Option Shape, (t.getD .empty).unlessEmpty = t.bind Shape.unlessEmpty := by
    intro t
    cases t <;> rfl
  unfold Rules.object Rules.built Rules.build
  rw [htype]
  dsimp only
  rw [hmake, hswitch]
  simp only [bind_assoc, pure_bind, hempty]

theorem unconditional_staticSwitch (list : Value) : Unconditional (staticSwitch list) := ⟨[(Switch.staticField, list)], rfl⟩

theorem unconditional_bodyOf {shown : Option Fields} (body : Value) (h : bodyOf shown = some body) :
    Unconditional body := by
  obtain ⟨fields, -, rfl⟩ := Option.map_eq_some_iff.1 h
  exact ⟨fields, rfl⟩

section

variable {admits : Value → Nat → σ → Bool} {marked : Value} (htypes : TypesByFields R.typeOf)
  (hcomplete : R.skips = false) (hheed : ∀ v depth, R.heed v depth = pure ())

include htypes hcomplete hheed

theorem Rules.admitting_alike (hword : R.typeOf (.string "template") = some .template) :
    (Refinement.runs σ).Alike (R.admitting admits) R := by
  have hagree : (Refinement.runs σ).Agree (R.admitting admits) R := admitting_agree hheed
  refine ⟨hagree, ?_, rfl, ⟨hcomplete, hcomplete⟩, htypes, hword⟩
  intro v v' depth
  rw [hheed, ← hheed v depth]
  exact hagree.heed v depth

variable (hmarked : (caseItems (some marked)).filter Value.isObject = (caseItems (some list)).filter Value.isObject)

include hmarked

/-- The marked switch comes to what the switch comes to. -/
theorem Rules.admitting_marked (height : Nat) :
    (Refinement.runs σ).Rel
      ((R.admitting admits).object ((R.admitting admits).outline height) (staticSwitch marked) .value depth)
      ((R.outline (height + 1)).inPlace (some (staticSwitch list)) depth) := by
  have hsame : R.object (R.outline height) (staticSwitch marked) .value depth =
      R.object (R.outline height) (staticSwitch list) .value depth := by
    rw [object_staticSwitch htypes hcomplete, object_staticSwitch htypes hcomplete, firstFound_congr hmarked, hheed, hheed]
  intro h
  refine ((admitting_outline hheed (height + 1)).object (staticSwitch marked) .value depth h).trans ?_
  change Refines (R.object (R.outline height) (staticSwitch marked) .value depth h)
    (R.object (R.outline height) (staticSwitch list) .value depth h)
  rw [hsame]
  exact .refl _

/-- Where the marked switch is built only at states at which it is known what it shows, it comes to what comes in its
place. -/
theorem Rules.admitting_switch
    (hadmits : ∀ h, admits (staticSwitch marked) depth h = true →
      Shows R.accepts (R.Comes depth) h (caseItems (some list)) shown) (height : Nat) :
    (Refinement.runs σ).Rel
      ((R.admitting admits).object ((R.admitting admits).outline height) (staticSwitch marked) .value depth)
      ((R.outline (height + 1)).inPlace (bodyOf shown) depth) := by
  have hlower : (Refinement.runs σ).Outlines ((R.admitting admits).outline height) (R.outline height) :=
    admitting_outline hheed height
  have halive : (Refinement.runs σ).Rel ((R.admitting admits).outline height).alive (pure ()) := by
    cases height with
    | zero => exact (Refinement.runs σ).fails _
    | succ height => exact (Refinement.runs σ).refl _
  rw [object_staticSwitch (R := R.admitting admits) htypes hcomplete, firstFound_congr hmarked]
  intro h r hr
  obtain ⟨⟨⟨⟩, start⟩, hadmitted, hswitch⟩ := Option.bind_eq_some_iff.1 hr
  obtain ⟨hadmitted, rfl⟩ := admission_eq_some_iff.1 hadmitted
  obtain ⟨⟨t, between⟩, hfirst, hshown⟩ := Option.bind_eq_some_iff.1 hswitch
  obtain ⟨⟨⟨⟩, last⟩, hlast, hresult⟩ := Option.bind_eq_some_iff.1 hshown
  cases halive _ _ hlast
  cases hresult
  have hshows : Shows (R.admitting admits).accepts (R.Comes depth) start (caseItems (some list)) shown :=
    hadmits start hadmitted
  have hplaced := hshows.firstFound_refines hlower _ hfirst
  -- the body stands a level below the switch, and has the same result a level above
  have hraised := (Refinement.runs σ).outline_of_le R (Nat.le_succ height)
  have hbody := Outline.inPlace_refines hraised _ depth _ _ (Outline.inPlace_refines hlower _ depth _ _ hplaced)
  change ((R.step (R.outline height)).inPlace (bodyOf shown) depth) start = _
  rw [← R.inPlace_unlessEmpty]
  exact Option.bind_eq_some_iff.2 ⟨_, hbody, rfl⟩

variable (hword : R.typeOf (.string "template") = some .template)

include hword

/-- At every height, what content with the marked switch comes to where it is built with admission, the content with the
switch comes to as well. -/
theorem Rules.inlines_staticSwitch (height : Nat) :
    (Refinement.runs σ).Inlines (staticSwitch marked) (some (staticSwitch list)) depth
      ((R.admitting admits).outline height) (R.outline height) := by
  apply (admitting_alike htypes hcomplete hheed hword).inlines (Refinement.runs σ).fails
  · exact unconditional_staticSwitch marked
  · rintro _ ⟨⟩
    exact unconditional_staticSwitch list
  · exact admitting_marked htypes hcomplete hheed hmarked

/-- And so does the content without the switch, if the admission says what is shown. -/
theorem Rules.inlines_bodyOf
    (hadmits : ∀ h, admits (staticSwitch marked) depth h = true →
      Shows R.accepts (R.Comes depth) h (caseItems (some list)) shown) (height : Nat) :
    (Refinement.runs σ).Inlines (staticSwitch marked) (bodyOf shown) depth
      ((R.admitting admits).outline height) (R.outline height) := by
  apply (admitting_alike htypes hcomplete hheed hword).inlines (Refinement.runs σ).fails
  · exact unconditional_staticSwitch marked
  · exact unconditional_bodyOf
  · exact admitting_switch htypes hcomplete hheed hmarked hadmits

end

end

namespace Hooks

section

variable {σ : Type} {host : Host σ} {limit : Nat} {document : σ → Value} {accepts : Value → Bool}
  {exts : List (Extension (Binder.State σ))} {world : σ} {depth : Nat}
  {s s' : Binder.State σ}

/-- In some run from the first state of the host the body is built, to a node or not, and the run ends at the second. -/
def Comes (hooks : Hooks (Binder.State σ)) (depth : Nat) (h : σ) (body : Value) (given : Bool) (h' : σ) : Prop :=
  ∃ limit s r last, s.Over h ∧ hooks.buildObject limit body .value depth s = some (r, last) ∧ r.isSome = given ∧
    last.host = h'

theorem Comes.outline {R : Rules (Run σ)} {hooks : Hooks (Binder.State σ)}
    (hgovern : R.Govern (fun s world => s.Over world) hooks exts) {h h' : σ} {body : Value} {given : Bool}
    (hcomes : hooks.Comes depth h body given h') : R.Comes depth h body given h' := by
  obtain ⟨n, t, r, last, ht, hbuilt, hgiven, hlast⟩ := hcomes
  have hrel := buildObject_outline hgovern ht n body .value depth
  rw [hbuilt] at hrel
  obtain ⟨⟨shape, h''⟩, houtline, hover, hhas⟩ := exists_of_rel_left hrel
  obtain rfl := hover.host_eq.symm.trans hlast
  refine ⟨n, shape, houtline, ?_⟩
  rw [← hgiven]
  cases hhas <;> rfl

/-- Where reads end and leave the data alone, every list of cases shows one of them or none. -/
theorem exists_shows (hpaths : host.GoesByPaths) (hexts : exts.Perm (Extension.standard host limit document accepts))
    (hreads : ∀ raw, Run.Total (· = world) (Binder.read host limit document raw)) (depth : Nat) (cases : List Value) :
    ∃ shown, Shows accepts ((ofExtensions exts).Comes depth) world cases shown := by
  have hs : (Binder.State.start .unbounded world : Binder.State σ).Over world := ⟨Binder.State.sound_start _ _, rfl⟩
  have hcomes : ∀ body, ∃ given, (ofExtensions exts).Comes depth world body given world := by
    intro body
    obtain ⟨r, last, h', hbuilt, hover, rfl⟩ := buildObject_terminates (Rules.standard_govern hexts hpaths)
      (Rules.standard_total hreads) hs rfl (Nat.lt_succ_self (3 * body.nesting + 2)) .value depth
    exact ⟨r.isSome, _, _, r, last, hs, hbuilt, rfl, hover.host_eq⟩
  induction cases with
  | nil => exact ⟨none, .nothing⟩
  | cons c rest ih =>
    obtain ⟨shown, hrest⟩ := ih
    by_cases hshown : ∃ fields, c = .object fields ∧ accepts (caseCondition fields) = true ∧
        (ofExtensions exts).Comes depth world (withoutField Switch.conditionField fields) true world
    · obtain ⟨fields, rfl, haccepted, hbody⟩ := hshown
      exact ⟨some fields, .case haccepted hbody fun fields' _ => hcomes _⟩
    · refine ⟨shown, .later ?_ hrest⟩
      rintro fields rfl
      obtain ⟨given, hbody⟩ := hcomes (withoutField Switch.conditionField fields)
      refine ⟨given, hbody, ?_⟩
      rintro rfl
      exact Bool.eq_false_iff.2 fun haccepted => hshown ⟨fields, rfl, haccepted, hbody⟩

section

variable {R : Rules (Run σ)} {hooks : Hooks (Binder.State σ)} (hgovern : R.Govern (fun s world => s.Over world) hooks exts)
  {n : Nat} {v v' : Value} {type : ContentType}

include hgovern

theorem exists_outline_of_ne_none (hs : s.Over world) (hends : hooks.buildObject n v type depth s ≠ none) :
    ∃ last, (R.outline n).object v type depth world = some last := by
  obtain ⟨last, hbuilt⟩ := Option.ne_none_iff_exists'.1 hends
  have hrel := buildObject_outline hgovern hs n v type depth
  rw [hbuilt] at hrel
  obtain ⟨last', houtline, -⟩ := exists_of_rel_left hrel
  exact ⟨last', houtline⟩

theorem exists_view_of_ne_none (hs : s.Over world) (hends : (hooks.buildView n v depth).run.run s ≠ none) :
    ∃ last, R.view n v depth world = some last := by
  obtain ⟨last, hbuilt⟩ := Option.ne_none_iff_exists'.1 hends
  have hrel := buildView_outline hgovern hs n v depth
  rw [hbuilt] at hrel
  obtain ⟨last', hview, -⟩ := exists_of_rel_left hrel
  exact ⟨last', hview⟩

variable (hs : s.Over world) (hs' : s'.Over world)

include hs hs'

/-- What comes to the same outline is built to equal values. -/
theorem objects_alike {last : Option Shape × σ} (h : (R.outline n).object v type depth world = some last)
    (h' : (R.outline n).object v' type depth world = some last) :
    ∃ r r' t t', hooks.buildObject n v type depth s = some (r, t) ∧ hooks.buildObject n v' type depth s' = some (r', t') ∧
      r.map Tree.toValue = r'.map Tree.toValue ∧ t.host = t'.host := by
  have hrel := buildObject_outline hgovern hs n v type depth
  have hrel' := buildObject_outline hgovern hs' n v' type depth
  rw [h] at hrel
  rw [h'] at hrel'
  obtain ⟨⟨r, t⟩, hbuilt, hover, hhas⟩ := exists_of_rel_right hrel
  obtain ⟨⟨r', t'⟩, hbuilt', hover', hhas'⟩ := exists_of_rel_right hrel'
  exact ⟨r, r', t, t', hbuilt, hbuilt', (toValue_eq_of_has hhas).trans (toValue_eq_of_has hhas').symm,
    hover.host_eq.trans hover'.host_eq.symm⟩

theorem views_alike {last : Except Error Value × σ} (h : R.view n v depth world = some last)
    (h' : R.view n v' depth world = some last) :
    ∃ r r' t t', (hooks.buildView n v depth).Ends s r t ∧ (hooks.buildView n v' depth).Ends s' r' t' ∧
      r.map Tree.toValue = r'.map Tree.toValue ∧ t.host = t'.host := by
  have hrel := buildView_outline hgovern hs n v depth
  have hrel' := buildView_outline hgovern hs' n v' depth
  rw [h] at hrel
  rw [h'] at hrel'
  obtain ⟨⟨r, t⟩, hbuilt, hover, hvalue⟩ := exists_of_rel_right hrel
  obtain ⟨⟨r', t'⟩, hbuilt', hover', hvalue'⟩ := exists_of_rel_right hrel'
  exact ⟨r, r', t, t', hbuilt, hbuilt', hvalue.trans hvalue'.symm, hover.host_eq.trans hover'.host_eq.symm⟩

end

/-- Whatever the content, the document, the conditions and the order of the extensions, and whatever was built and read
before: where a static switch in an array is built only at states of the data at which it is known what it shows, and at
which the bodies that are not shown write nothing, building the content ends as building it with the body in the place of
the switch does, or without the switch if it shows none, with equal values or errors and the same data. And building ends
where reads end.

The states at which the switch is built are watched with a marked list in its place, which has the same cases and between
them items that are no cases. So nothing is asked of other objects that are equal to the switch. -/
theorem build_inlined (hpaths : host.GoesByPaths) (hexts : exts.Perm (Extension.standard host limit document accepts))
    {around : Option Value → Value} (haround : Context around) {list marked : Value}
    (hmarked : (caseItems (some marked)).filter Value.isObject = (caseItems (some list)).filter Value.isObject)
    {admits : Value → Nat → σ → Bool} {shown : Option Fields}
    (hadmits : ∀ h, admits (staticSwitch marked) depth h = true →
      Shows accepts ((ofExtensions exts).Comes depth) h (caseItems (some list)) shown)
    (hs : s.Over world) (hs' : s'.Over world) (n : Nat) :
    let watched := around (some (staticSwitch marked))
    let content := around (some (staticSwitch list))
    let content' := around (bodyOf shown)
    (∀ type, ((ofExtensions exts).admitting admits).buildObject n watched type depth s ≠ none →
      ∃ r r' last last', (ofExtensions exts).buildObject n content type depth s = some (r, last) ∧
        (ofExtensions exts).buildObject n content' type depth s' = some (r', last') ∧
        r.map Tree.toValue = r'.map Tree.toValue ∧ last.host = last'.host) ∧
    ((((ofExtensions exts).admitting admits).buildView n watched depth).run.run s ≠ none →
      ∃ r r' last last', ((ofExtensions exts).buildView n content depth).Ends s r last ∧
        ((ofExtensions exts).buildView n content' depth).Ends s' r' last' ∧
        r.map Tree.toValue = r'.map Tree.toValue ∧ last.host = last'.host) ∧
    ∀ I : σ → Prop, I world → (∀ raw, Run.Total I (Binder.read host limit document raw)) →
      (∀ v depth h, I h → admits v depth h = true) → 3 * watched.nesting + 2 < n →
      (∀ type, ((ofExtensions exts).admitting admits).buildObject n watched type depth s ≠ none) ∧
        (((ofExtensions exts).admitting admits).buildView n watched depth).run.run s ≠ none := by
  intro watched content content'
  let R := Rules.standard exts host limit document accepts
  have hgovern : R.Govern (fun s world => s.Over world) (ofExtensions exts) exts := Rules.standard_govern hexts hpaths
  have hadmitting : (R.admitting admits).Govern (fun s world => s.Over world) ((ofExtensions exts).admitting admits) exts :=
    hgovern.admitting
  have htypes : TypesByFields R.typeOf := Rules.standard_typesByFields hexts
  have hword : R.typeOf (.string "template") = some .template := Rules.standard_typeOf_word hexts
  have hshows : ∀ h, admits (staticSwitch marked) depth h = true →
      Shows R.accepts (R.Comes depth) h (caseItems (some list)) shown :=
    fun h hadmitted => (hadmits h hadmitted).imp fun _ _ _ _ hcomes => hcomes.outline hgovern
  have hswitch : (Refinement.runs σ).Inlines (staticSwitch marked) (some (staticSwitch list)) depth
      ((R.admitting admits).outline n) (R.outline n) :=
    Rules.inlines_staticSwitch htypes rfl (fun _ _ => rfl) hmarked hword n
  have hbody : (Refinement.runs σ).Inlines (staticSwitch marked) (bodyOf shown) depth
      ((R.admitting admits).outline n) (R.outline n) :=
    Rules.inlines_bodyOf htypes rfl (fun _ _ => rfl) hmarked hword hshows n
  have hcontent : Inlined (staticSwitch marked) (some (staticSwitch list)) watched content := haround.inlined _ _
  have hcontent' : Inlined (staticSwitch marked) (bodyOf shown) watched content' := haround.inlined _ _
  refine ⟨?_, ?_, ?_⟩
  · intro type hends
    obtain ⟨last, houtline⟩ := exists_outline_of_ne_none hadmitting hs hends
    exact objects_alike hgovern hs hs' (hswitch.object _ _ type hcontent world last houtline)
      (hbody.object _ _ type hcontent' world last houtline)
  · intro hends
    obtain ⟨last, hview⟩ := exists_view_of_ne_none hadmitting hs hends
    exact views_alike hgovern hs hs' (hcontent.view_rel hswitch world last hview)
      (hcontent'.view_rel hbody world last hview)
  · intro I hworld hreads hall hn
    have htotal : (R.admitting admits).Total I := (Rules.standard_total hreads).admitting hall
    constructor
    · intro type
      obtain ⟨r, last, h', hbuilt, -⟩ := buildObject_terminates hadmitting htotal hs hworld hn type depth
      exact Option.ne_none_iff_exists'.2 ⟨_, hbuilt⟩
    · obtain ⟨r, last, h', hbuilt, -⟩ := buildView_terminates hadmitting htotal hs hworld hn depth
      exact Option.ne_none_iff_exists'.2 ⟨_, hbuilt⟩

/-! ## Reads that are known -/

/-- What is read of a document at one query and at plain texts, computed without a binder. -/
def knownReads (q : QueryText) (document : σ → Value) (write : Value → σ → σ) (raw : String) : Run σ (Option Value) :=
  fun world =>
    if raw = q.raw then
      let found := q.found ((document world).get? q.base)
      let written := Binder.withDefaults document write found.updates world
      some ((document written).get? found.path, written)
    else if Binder.isPlain raw then some ((document world).get? (.ofText raw), world)
    else none

theorem knownReads_rel (q : QueryText) (document : σ → Value) (write : Value → σ → σ) (limit : Nat) (raw : String) :
    (Refinement.runs σ).Rel (knownReads q document write raw)
      (Binder.read (.ofDocument document write) (limit + 1) document raw) := by
  intro world r hr
  unfold knownReads at hr
  split at hr
  · rename_i hraw
    rw [hraw, Binder.read_of_asksOnce q.asksOnce limit document write]
    exact hr
  split at hr
  · rename_i hplain
    rw [Binder.read_plain _ limit document ((Binder.isPlain_iff_plainText raw).1 hplain)]
    exact hr
  · cases hr

section

variable {R : Rules (Run σ)} {hooks : Hooks (Binder.State σ)} {known : String → Run σ (Option Value)} {n : Nat}

/-- Reads that are known decide what a body comes to. -/
theorem comes_of_known [DecidableEq σ] (hgovern : R.Govern (fun s world => s.Over world) hooks exts)
    (hknown : ∀ raw, (Refinement.runs σ).Rel (known raw) (R.read raw)) {body : Value} {given : Bool} {h' : σ}
    (h : (((R.reading known).outline n).object body .value depth world).any
      (fun last => last.1.isSome == given && last.2 == h') = true) : hooks.Comes depth world body given h' := by
  obtain ⟨⟨t, last⟩, hrun, hlast⟩ := (Option.any_eq_true _ _).1 h
  obtain ⟨hgiven, hhost⟩ := Bool.and_eq_true_iff.1 hlast
  have hs : (Binder.State.start .unbounded world : Binder.State σ).Over world := ⟨Binder.State.sound_start _ _, rfl⟩
  have hrel := buildObject_outline hgovern hs n body .value depth
  rw [((Refinement.runs σ).outline_reading R hknown n).object body .value depth world _ hrun] at hrel
  obtain ⟨⟨r, s'⟩, hbuilt, hover, hhas⟩ := exists_of_rel_right hrel
  refine ⟨n, _, r, s', hs, hbuilt, ?_, hover.host_eq.trans (eq_of_beq hhost)⟩
  rw [← eq_of_beq hgiven]
  cases hhas <;> rfl

/-- What a view comes to by reads that are known, it comes to in a run. -/
theorem exists_view_of_known (hgovern : R.Govern (fun s world => s.Over world) hooks exts)
    (hknown : ∀ raw, (Refinement.runs σ).Rel (known raw) (R.read raw)) (hs : s.Over world) (p : Value → Bool)
    (h : ((R.reading known).view n content depth world).any (fun last => last.1.toOption.any p) = true) :
    ∃ tree last, (hooks.buildView n content depth).Ends s (.ok tree) last ∧ p tree.toValue = true := by
  obtain ⟨⟨r, h'⟩, hrun, hp⟩ := (Option.any_eq_true _ _).1 h
  have hrel := buildView_outline hgovern hs n content depth
  rw [((Refinement.runs σ).outline_reading R hknown n).view content depth world _ hrun] at hrel
  obtain ⟨⟨built, last⟩, hbuilt, -, hvalue⟩ := exists_of_rel_right hrel
  cases built with
  | error e =>
    rw [← show Except.error e = r from hvalue] at hp
    cases hp
  | ok tree =>
    rw [← show Except.ok tree.toValue = r from hvalue] at hp
    exact ⟨tree, last, hbuilt, hp⟩

end

end

/-! ## A list whose first element is asked for -/

namespace Asking

/-- The data: a list that has its element, or not yet. -/
def document (written : Bool) : Value :=
  .object [("list", .array (if written then [.object [("k", .string "v")]] else []))]

/-- Whatever is written, it is that element: nothing else is asked for. -/
def host : Host Bool := .ofDocument document fun _ _ => true

/-- The query that asks for it, `list[k=v]`. -/
def query : QueryText := .ofNames "list" "k" "v" (by decide +kernel) (by decide +kernel) (by decide +kernel)

/-- What is written for the query where it misses is the element that it asks for. -/
example : Value.setAll ((query.found ((document false).get? query.base)).updates.map fun update =>
    (update.path, update.value)) (document false) = document true := rfl

def exts : List (Extension (Binder.State Bool)) := Extension.standard host 4 document Value.isTruthy

/-- What is read at the query and at plain texts. -/
def known : String → Run Bool (Option Value) := knownReads query document fun _ _ => true

/-- A list of templates with one template. -/
def templates (data output : String) : String × Value :=
  ("template", .array [.object [("data", .string data), ("output", .string output),
    ("value", .object [("id", .string "_index_")])]])

theorem govern : (Rules.standard exts host 4 document Value.isTruthy).Govern (fun s world => s.Over world)
    (ofExtensions exts) exts :=
  Rules.standard_govern (.refl exts) (Host.ofDocument_goesByPaths _ _)

theorem knows (raw : String) : (Refinement.runs Bool).Rel (known raw) (Binder.read host 4 document raw) :=
  knownReads_rel query document (fun _ _ => true) 3 raw

end Asking

/-- An equal switch stands before the switch, and a body of it writes the default that it asks for. So the same body of
the switch has nothing to write any more. The third case is shown: the first one is rejected, and the second one gives no
node. -/
theorem build_inlined_item :
    let s : Binder.State Bool := .start .unbounded false
    let cases : List Value := [
      .object [("case", .bool false), Asking.templates "list[k=v]" "hidden", ("id", .string "a")],
      .object [("case", .bool true)], .object [("case", .bool true), ("id", .string "shown")],
      .object [("case", .bool true), ("id", .string "late")]]
    let list : Value := .array cases
    let marked : Value := .array (cases ++ [.null])
    let shown : Fields := [("case", .bool true), ("id", .string "shown")]
    let around (item? : Option Value) : Value := .object [("id", .string "v"), ("items", .array
      ([staticSwitch list] ++ item?.toList ++ [.object [Asking.templates "list" "rows"]]))]
    let admits : Value → Nat → Bool → Bool := fun v _ written => written || !v.same (staticSwitch marked)
    Asking.host.GoesByPaths ∧ s.Over false ∧ Context around ∧
      (caseItems (some marked)).filter Value.isObject = (caseItems (some list)).filter Value.isObject ∧
      (∀ h, admits (staticSwitch marked) 0 h = true →
        Shows Value.isTruthy ((ofExtensions Asking.exts).Comes 0) h (caseItems (some list)) (some shown)) ∧
      (((ofExtensions Asking.exts).admitting admits).buildView 16 (around (some (staticSwitch marked))) 0).run.run s ≠
        none ∧
      ∃ r r' last last',
        ((ofExtensions Asking.exts).buildView 16 (around (some (staticSwitch list))) 0).Ends s r last ∧
        ((ofExtensions Asking.exts).buildView 16 (around (some (.object [("id", .string "shown")]))) 0).Ends s r' last' ∧
        r.map Tree.toValue = r'.map Tree.toValue ∧ last.host = last'.host := by
  intro s cases list marked shown around admits
  have hpaths : Asking.host.GoesByPaths := Host.ofDocument_goesByPaths _ _
  have hs : s.Over false := ⟨Binder.State.sound_start _ _, rfl⟩
  have haround : Context around :=
    @Context.element [("id", .string "v")] "items" [staticSwitch list] [.object [Asking.templates "list" "rows"]]
      (by decide) (by decide)
  have hadmits : ∀ h, admits (staticSwitch marked) 0 h = true →
      Shows Value.isTruthy ((ofExtensions Asking.exts).Comes 0) h (caseItems (some list)) (some shown) := by
    intro h hadmitted
    have hwritten : h = true := by
      have hsame : (staticSwitch marked).same (staticSwitch marked) = true := by decide +kernel
      simpa [admits, hsame] using hadmitted
    subst hwritten
    have hbody : (ofExtensions Asking.exts).Comes 0 true (.object [("id", .string "shown")]) true true :=
      comes_of_known (n := 8) Asking.govern Asking.knows (by decide +kernel)
    refine .later ?_ (.later ?_ (.case rfl hbody ?_))
    · rintro _ ⟨⟩
      exact ⟨true, comes_of_known (n := 8) Asking.govern Asking.knows (by decide +kernel), fun _ => rfl⟩
    · rintro _ ⟨⟩
      exact ⟨false, comes_of_known (n := 8) Asking.govern Asking.knows (by decide +kernel), nofun⟩
    · intro fields hmem
      cases List.mem_singleton.1 hmem
      exact ⟨true, comes_of_known (n := 8) Asking.govern Asking.knows (by decide +kernel)⟩
  obtain ⟨tree, last, hview, -⟩ : ∃ tree last,
      (((ofExtensions Asking.exts).admitting admits).buildView 16 (around (some (staticSwitch marked))) 0).Ends s (.ok tree)
        last ∧ (fun _ => true) tree.toValue = true :=
    exists_view_of_known (Rules.Govern.admitting Asking.govern) Asking.knows hs (fun _ => true) (by decide +kernel)
  have hends : (((ofExtensions Asking.exts).admitting admits).buildView 16 (around (some (staticSwitch marked))) 0).run.run
      s ≠ none := Option.ne_none_iff_exists'.2 ⟨_, hview⟩
  refine ⟨hpaths, hs, haround, rfl, hadmits, hends, ?_⟩
  have hinlined := @build_inlined Bool Asking.host 4 Asking.document Value.isTruthy Asking.exts false 0 s s hpaths
    (.refl Asking.exts) around haround list marked rfl admits (some shown) hadmits hs hs 16
  exact hinlined.2.1 hends

/-- In an expression, and in the condition of a case that is kept with it, a switch is not replaced. And where a template
in a body that is not shown writes to the data, a template after the switch reads what is written. -/
theorem build_keeps_switch :
    let s : Binder.State Bool := .start .unbounded false
    let view (key : String) (v : Value) : Value := .object [("id", .string "v"), (key, v)]
    let shown : Fields := [("case", .bool true), ("id", .string "x")]
    let body : Value := .object [("id", .string "x")]
    let switch : Value := .object [("staticSwitch", .array [.object shown])]
    let expression (item : Value) : Value :=
      view "note" (.object [("applicability", .array [item]), ("id", .string "n")])
    let condition (item : Value) : Value :=
      view "note" (.object [("dynamicSwitch", .array [.object [("case", .array [item]), ("id", .string "n")]])])
    let hidden : Fields := [("case", .bool false), Asking.templates "list[k=v]" "hidden"]
    let items (items : List Value) : Value := view "items" (.array (items ++ [.object [Asking.templates "list" "rows"]]))
    let apart (content content' : Value) : Prop := ∃ tree tree' last last',
      ((ofExtensions Asking.exts).buildView 16 content 0).Ends s (.ok tree) last ∧
      ((ofExtensions Asking.exts).buildView 16 content' 0).Ends s (.ok tree') last' ∧ tree.toValue ≠ tree'.toValue
    Asking.host.GoesByPaths ∧
    Shows Value.isTruthy ((ofExtensions Asking.exts).Comes 0) false [.object shown] (some shown) ∧
    apart (expression switch) (expression body) ∧ apart (condition switch) (condition body) ∧
    Value.isTruthy (caseCondition hidden) = false ∧
    apart (items [.object [("staticSwitch", .array [.object hidden])]]) (items []) := by
  intro s view shown body switch expression condition hidden items apart
  have hs : s.Over false := ⟨Binder.State.sound_start _ _, rfl⟩
  have hbody : (ofExtensions Asking.exts).Comes 0 false body true false :=
    comes_of_known (n := 4) Asking.govern Asking.knows (by decide +kernel)
  have hshows : Shows Value.isTruthy ((ofExtensions Asking.exts).Comes 0) false [.object shown] (some shown) :=
    .case rfl hbody fun fields hmem => nomatch hmem
  have hapart : ∀ {content content' : Value} (p : Value → Bool),
      (((Rules.standard Asking.exts Asking.host 4 Asking.document Value.isTruthy).reading Asking.known).view 16 content 0
        false).any (fun last => last.1.toOption.any p) = true →
      (((Rules.standard Asking.exts Asking.host 4 Asking.document Value.isTruthy).reading Asking.known).view 16 content' 0
        false).any (fun last => last.1.toOption.any fun v => !p v) = true → apart content content' := by
    intro content content' p h h'
    obtain ⟨tree, last, htree, hp⟩ := exists_view_of_known Asking.govern Asking.knows hs p h
    obtain ⟨tree', last', htree', hp'⟩ := exists_view_of_known Asking.govern Asking.knows hs (fun v => !p v) h'
    refine ⟨tree, tree', last, last', htree, htree', ?_⟩
    intro hsame
    rw [← hsame, hp] at hp'
    cases hp'
  let type (name : String) : String × Value := ("type", .string name)
  let tree (children : List Value) : Value :=
    .object [type "view", ("value", .object [("id", .string "v")]), ("children", .array children)]
  let child (key : String) (v : Value) : Value := .object [("path", .array [.string key]), ("value", v)]
  let node (id : String) : Value := .object [type "value", ("value", .object [("id", .string id)])]
  let multi (overrides : Bool) (values : List Value) : Value :=
    .object [type "multi-node", ("override", .bool overrides), ("values", .array values)]
  let kept : Value := .object [type "applicability", ("expression", .array [switch]), ("value", node "n")]
  let keptCase : Value := .object [type "switch", ("dynamic", .bool true),
    ("cases", .array [.object [("case", .array [switch]), ("value", node "n")]])]
  let written : Value := .object [type "value", ("children", .array [child "rows" (multi false [node "0"])])]
  refine ⟨Host.ofDocument_goesByPaths _ _, hshows, hapart (tree [child "note" kept]).same ?_ ?_,
    hapart (tree [child "note" keptCase]).same ?_ ?_, rfl, hapart (tree [child "items" (multi true [written])]).same ?_ ?_⟩
  all_goals decide +kernel

end Hooks

end DataBound.View
