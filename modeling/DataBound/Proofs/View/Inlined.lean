-- SUMMARY: Content with an item of an array replaced, and how building goes along with it.
import DataBound.Proofs.Document.Laws
import DataBound.Proofs.View.Standard

/-!
# Content with an item replaced

In an array that is the value of a property an item is replaced by another one, or left out. Both are objects without a
condition, as static switches and the bodies of cases are. What is said here holds for whatever way in which computations
go along with each other: if the item goes along with what comes in its place, so does the content around it, unless the
place is part of an expression or of a condition, which are kept as they are written.
-/

namespace DataBound.View

open Fields

/-! ## Lists with an item replaced -/

section

variable {m n : Type → Type} [AlternativeMonad m] [AlternativeMonad n] [LawfulMonad m] [LawfulMonad n]
  {S : Simulation m n} {α β : Type} {x y : α}

/-- One item goes along with another one, or with none. -/
theorem rel_filterMapM_splice {f : α → m (Option β)} {g : α → n (Option β)} (hsame : ∀ a, S.Rel (f a) (g a))
    {y? : Option α} (h : S.Rel (f x) (y?.elim (pure none) g)) (before after : List α) :
    S.Rel ((before ++ x :: after).filterMapM f) ((before ++ y?.toList ++ after).filterMapM g) := by
  have hafter : S.Rel (after.filterMapM f) (after.filterMapM g) := Simulation.filterMapM fun a _ => hsame a
  have hcons : ∀ t, S.Rel (do
      let rest ← after.filterMapM f
      pure (t :: rest)) (do
      let rest ← after.filterMapM g
      pure (t :: rest)) := fun t => S.bind hafter fun _ => S.pure _
  induction before with
  | nil =>
    rw [List.nil_append, List.nil_append, List.filterMapM_cons]
    cases y? with
    | none =>
      let rest (r : Option β) : n (List β) := r.elim (after.filterMapM g) fun t => do
        let rest ← after.filterMapM g
        pure (t :: rest)
      have hnone : pure none >>= rest = after.filterMapM g := pure_bind none rest
      rw [Option.toList_none, List.nil_append, ← hnone]
      apply S.bind h
      intro r
      cases r with
      | none => exact hafter
      | some t => exact hcons t
    | some y =>
      rw [Option.toList_some, List.singleton_append, List.filterMapM_cons]
      apply S.bind h
      intro r
      cases r with
      | none => exact hafter
      | some t => exact hcons t
  | cons item rest ih =>
    rw [List.cons_append, List.cons_append, List.cons_append, List.filterMapM_cons, List.filterMapM_cons]
    apply S.bind (hsame item)
    intro r
    cases r with
    | none => exact ih
    | some t => exact S.bind ih fun _ => S.pure _

theorem rel_filterMapM_replace {f : α → m (Option β)} {g : α → n (Option β)} (hsame : ∀ a, S.Rel (f a) (g a))
    (h : S.Rel (f x) (g y)) (before after : List α) :
    S.Rel ((before ++ x :: after).filterMapM f) ((before ++ y :: after).filterMapM g) := by
  have hsplice := rel_filterMapM_splice hsame (show S.Rel (f x) ((some y).elim (pure none) g) from h) before after
  rwa [Option.toList_some, List.append_assoc] at hsplice

theorem rel_foldlM_replace {f : β → α → m β} {g : β → α → n β} (hsame : ∀ b a, S.Rel (f b a) (g b a))
    (h : ∀ b, S.Rel (f b x) (g b y)) (before after : List α) (b : β) :
    S.Rel ((before ++ x :: after).foldlM f b) ((before ++ y :: after).foldlM g b) := by
  simp only [List.foldlM_append, List.foldlM_cons]
  apply S.bind (Simulation.foldlM (fun b a _ => hsame b a) b)
  intro b'
  exact S.bind (h b') fun b'' => Simulation.foldlM (fun b a _ => hsame b a) b''

end

/-! ## Content with a place -/

/-- The value, unless it is a container. -/
def scalar? (v : Value) : Option Value := if v.isContainer then none else some v

/-- Descriptors of templates with the same body and, in their fields, the same scalars. -/
structure SameTemplate (d d' : Value) : Prop where
  body : d'.field? "value" = d.field? "value"
  scalars (key : String) : (d'.field? key).bind scalar? = (d.field? key).bind scalar?

/-- Content with a place for an item, in an array that is the value of a property. The place is not in an expression, in a
condition or in the body of a template. -/
inductive Context : (Option Value → Value) → Prop
  /-- The array with the place. -/
  | element {fields : Fields} {key : String} {before after : List Value} :
      key ≠ "template" → key ≠ Applicability.fieldName →
      Context fun item => .object (fields.put key (.array (before ++ item.toList ++ after)))
  /-- In a descriptor of templates, but not in the body. -/
  | descriptor {fields : Fields} {before after : List Value} {d : Option Value → Value} :
      (∀ item item', SameTemplate (d item) (d item')) →
      Context fun item => .object (fields.put "template" (.array (before ++ d item :: after)))
  /-- Below a field. -/
  | field {fields : Fields} {key : String} {v : Option Value → Value} : key ≠ Applicability.fieldName →
      (key = "template" → ∀ item, (v item).isArray = false) →
      (key = Switch.staticField ∨ key = Switch.dynamicField →
        ∀ item item', Switch.conditions (v item) = Switch.conditions (v item')) →
      Context v → Context fun item => .object (fields.put key (v item))
  /-- Below an item. -/
  | item {before after : List Value} {v : Option Value → Value} : Context v →
      Context fun item => .array (before ++ v item :: after)

/-- The second content is the first with an item at such a place replaced by another one, or left out. -/
inductive Inlined (old : Value) (new? : Option Value) : Value → Value → Prop
  /-- The array with the item. -/
  | element {fields : Fields} {key : String} {before after : List Value} :
      find? key fields = some (.array (before ++ old :: after)) → key ≠ "template" → key ≠ Applicability.fieldName →
      Inlined old new? (.object fields) (.object (fields.put key (.array (before ++ new?.toList ++ after))))
  /-- In a descriptor of templates, but not in the body. -/
  | descriptor {fields : Fields} {before after : List Value} {d d' : Value} :
      find? "template" fields = some (.array (before ++ d :: after)) → SameTemplate d d' →
      Inlined old new? (.object fields) (.object (fields.put "template" (.array (before ++ d' :: after))))
  /-- Below a field. -/
  | field {fields : Fields} {key : String} {v v' : Value} :
      find? key fields = some v → key ≠ Applicability.fieldName → (key = "template" → v.isArray = false) →
      (key = Switch.staticField ∨ key = Switch.dynamicField → Switch.conditions v = Switch.conditions v') →
      Inlined old new? v v' → Inlined old new? (.object fields) (.object (fields.put key v'))
  /-- Below an item. -/
  | item {before after : List Value} {v v' : Value} : Inlined old new? v v' →
      Inlined old new? (.array (before ++ v :: after)) (.array (before ++ v' :: after))

section

theorem put_put (fields : Fields) (key : String) (v v' : Value) : (fields.put key v).put key v' = fields.put key v' :=
  update_update key (fun _ => v) (fun _ => v') fields

variable {old : Value} {new? : Option Value} {v v' : Value} {fields fields' : Fields}

theorem Context.inlined {content : Option Value → Value} (h : Context content) (old : Value) (new? : Option Value) :
    Inlined old new? (content (some old)) (content new?) := by
  induction h with
  | @element fields key before after htemplate happlicability =>
    have hfind : find? key (fields.put key (.array (before ++ [old] ++ after))) =
        some (.array (before ++ old :: after)) := by
      rw [find?_put_self, List.append_assoc, List.singleton_append]
    have hinlined := @Inlined.element old new? _ _ _ _ hfind htemplate happlicability
    rwa [put_put] at hinlined
  | @descriptor fields before after d hsame =>
    have hinlined := @Inlined.descriptor old new? _ before after _ _ (find?_put_self fields "template" _)
      (hsame (some old) new?)
    rwa [put_put] at hinlined
  | @field fields key v happlicability harray hconditions _ ih =>
    have hinlined := Inlined.field (find?_put_self fields key (v (some old))) happlicability
      (fun hkey => harray hkey (some old)) (fun hkey => hconditions hkey (some old) new?) ih
    rwa [put_put] at hinlined
  | item _ ih => exact .item ih

theorem Inlined.isObject_eq (h : Inlined old new? v v') : v.isObject = v'.isObject := by
  cases h <;> rfl

theorem Inlined.isArray_eq (h : Inlined old new? v v') : v.isArray = v'.isArray := by
  cases h <;> rfl

theorem Inlined.isTruthy_eq (h : Inlined old new? v v') : v.isTruthy = v'.isTruthy := by
  cases h <;> rfl

theorem Inlined.hasKey_eq (h : Inlined old new? (.object fields) (.object fields')) (key : String) :
    hasKey fields' key = hasKey fields key := by
  cases h with
  | element hfind => exact hasKey_put hfind _ key
  | descriptor hfind => exact hasKey_put hfind _ key
  | field hfind => exact hasKey_put hfind _ key

theorem Inlined.find?_applicability (h : Inlined old new? (.object fields) (.object fields')) :
    find? Applicability.fieldName fields' = find? Applicability.fieldName fields := by
  cases h with
  | element _ _ hkey => exact find?_put_of_ne (Ne.symm hkey) _
  | descriptor => exact find?_put_of_ne (by decide) _
  | field _ hkey => exact find?_put_of_ne (Ne.symm hkey) _

theorem Inlined.typeOf_eq {typeOf : Value → Option NodeType} (htypes : TypesByFields typeOf)
    (h : Inlined old new? v v') : typeOf v' = typeOf v := by
  cases v with
  | object fields =>
    cases v' with
    | object fields' => exact htypes.fields _ _ fun key _ => h.hasKey_eq key
    | _ => cases h
  | array items =>
    cases v' with
    | array items' => rw [htypes.array, htypes.array]
    | _ => cases h
  | _ => cases h

/-- Without one of their fields the contents are related as before, or the same. -/
theorem Inlined.without (h : Inlined old new? (.object fields) (.object fields')) (key : String) :
    withoutField key fields' = withoutField key fields ∨
      Inlined old new? (withoutField key fields) (withoutField key fields') := by
  have hput : ∀ {name : String} {x : Value} (x' : Value), find? name fields = some x →
      withoutField key (fields.put name x') = withoutField key fields ∨
      find? name (fields.without key) = some x ∧
        withoutField key (fields.put name x') = .object ((fields.without key).put name x') := by
    intro name x x' hfind
    by_cases hname : name = key
    · subst hname
      exact .inl (congrArg Value.object (without_put_self hfind _))
    · refine .inr ⟨(find?_without_of_ne hname _).trans hfind, ?_⟩
      rw [withoutField, without_put_of_ne hname hfind]
  cases h with
  | element hfind htemplate happlicability =>
    refine (hput _ hfind).imp_right ?_
    rintro ⟨hfind', heq⟩
    rw [heq]
    exact .element hfind' htemplate happlicability
  | descriptor hfind hsame =>
    refine (hput _ hfind).imp_right ?_
    rintro ⟨hfind', heq⟩
    rw [heq]
    exact .descriptor hfind' hsame
  | field hfind happlicability htemplate hconditions hinlined =>
    refine (hput _ hfind).imp_right ?_
    rintro ⟨hfind', heq⟩
    rw [heq]
    exact .field hfind' happlicability htemplate hconditions hinlined

/-! ## Cases -/

/-- What becomes of one case of a list: an item that is one gives way to the other item, and another one keeps its
condition. -/
inductive CaseInlined (old : Value) (new? : Option Value) : Value → Option Value → Prop
  | place : CaseInlined old new? old new?
  | inside {v v' : Value} : Inlined old new? v v' →
      v.field? Switch.conditionField = v'.field? Switch.conditionField → CaseInlined old new? v (some v')

/-- Lists of cases of such contents are the same but for one case. -/
theorem Inlined.caseItems (h : Inlined old new? (.object fields) (.object fields')) {name : String}
    (hname : name = Switch.staticField ∨ name = Switch.dynamicField) :
    caseItems (find? name fields') = caseItems (find? name fields) ∨
      ∃ before after c c?, View.caseItems (find? name fields) = before ++ c :: after ∧
        View.caseItems (find? name fields') = before ++ c?.toList ++ after ∧ CaseInlined old new? c c? := by
  have hother : ∀ {key : String} (x : Value), name ≠ key →
      View.caseItems (find? name (fields.put key x)) = View.caseItems (find? name fields) := by
    intro key x hne
    rw [find?_put_of_ne hne]
  cases h with
  | @element _ key before after hfind _ _ =>
    by_cases hkey : name = key
    · subst hkey
      refine .inr ⟨before, after, old, new?, ?_, ?_, .place⟩
      · rw [hfind]
        rfl
      · rw [find?_put_self]
        rfl
    · exact .inl (hother _ hkey)
  | descriptor =>
    refine .inl (hother _ ?_)
    rintro rfl
    exact absurd hname (by decide)
  | @field _ key v v' hfind _ _ hconditions hinlined =>
    by_cases hkey : name = key
    · subst hkey
      rw [hfind, find?_put_self]
      cases hinlined with
      | @item before after x x' hitem =>
        refine .inr ⟨before, after, x, some x', rfl, (List.append_assoc before [x'] after).symm, .inside hitem ?_⟩
        have hcases := hconditions hname
        simp only [Switch.conditions, List.map_append, List.map_cons, List.append_cancel_left_eq,
          List.cons.injEq] at hcases
        exact hcases.1
      | _ => exact .inl rfl
    · exact .inl (hother _ hkey)

end

/-! ## Outlines -/

section

variable {m n : Type → Type} [AlternativeMonad m] [AlternativeMonad n]

/-- Rules that go along with each other whatever content is built, and by which the bodies of all cases are built. -/
structure Simulation.Alike (S : Simulation m n) (R : Rules m) (R' : Rules n) : Prop where
  agree : S.Agree R R'
  heed (v v' : Value) (depth : Nat) : S.Rel (R.heed v depth) (R'.heed v' depth)
  accepts : R'.accepts = R.accepts
  complete : R.skips = false ∧ R'.skips = false
  types : TypesByFields R.typeOf
  word : R.typeOf (.string "template") = some .template

/-- The value is an object without a condition. -/
def Unconditional (v : Value) : Prop := ∃ fields, v = withoutField Switch.conditionField fields

/-- What comes to stand in the place: the node of the item, or nothing. -/
def Outline.inPlace (upper : Outline n) (item? : Option Value) (depth : Nat) : n (Option Shape) :=
  item?.elim (pure none) fun item => upper.object item .value depth

/-- At a template depth, what the first of two such contents comes to goes along with what the second comes to. -/
structure Simulation.Inlines (S : Simulation m n) (old : Value) (new? : Option Value) (depth : Nat)
    (lower : Outline m) (upper : Outline n) : Prop where
  unconditional : Unconditional old
  unconditional' (new : Value) : new? = some new → Unconditional new
  same : S.Outlines lower upper
  object (v v' : Value) (type : ContentType) : Inlined old new? v v' →
    S.Rel (lower.object v type depth) (upper.object v' type depth)
  gather (v v' : Value) (path : DataPath) (g : Sketch) : Inlined old new? v v' →
    S.Rel (lower.gather v depth path g) (upper.gather v' depth path g)
  place : S.Rel (lower.object old .value depth) (upper.inPlace new? depth)

variable {S : Simulation m n} {R : Rules m} {R' : Rules n} {old : Value} {new? : Option Value} {depth : Nat}
  {lower : Outline m} {upper : Outline n} {v v' : Value} {fields fields' : Fields} {key : String}

theorem Simulation.Inlines.without (hlower : S.Inlines old new? depth lower upper)
    (h : Inlined old new? (.object fields) (.object fields')) (type : ContentType) (key : String) :
    S.Rel (lower.object (withoutField key fields) type depth) (upper.object (withoutField key fields') type depth) := by
  rcases h.without key with hsame | hinlined
  · rw [hsame]
    exact hlower.same.object _ type depth
  · exact hlower.object _ _ type hinlined

/-- An array adds a multi-node, unless it is the list of templates. -/
theorem Rules.entry_array (htypes : TypesByFields R.typeOf) {key : Segment} (hkey : key ≠ .key "template")
    (around : Value) (path : DataPath) (g : Sketch) (items : List Value) :
    R.entry lower around depth path g key (.array items) =
      lower.members depth (path ++ [key]) g (!hasTemplateOutput around key) items := by
  have htemplate : (key.asKey.any fun name => R.isOfType .template (.string name)) = false := by
    cases key with
    | index i => rfl
    | key name =>
      cases htype : R.isOfType .template (.string name) with
      | false => simp [Segment.asKey, htype]
      | true => exact absurd (congrArg Segment.key (htypes.template name (beq_iff_eq.1 htype))) hkey
  have hswitch : R.isOfType .switch (.array items) = false := by simp [Rules.isOfType, htypes.array]
  simp [Rules.entry, htemplate, hswitch, Value.isObject]

/-- The list of templates adds what its descriptors add. -/
theorem Rules.entry_templates (htemplate : R.typeOf (.string "template") = some .template) (around : Value)
    (path : DataPath) (g : Sketch) (descriptors : List Value) :
    R.entry lower around depth path g (.key "template") (.array descriptors) =
      descriptors.foldlM (fun g descriptor => R.template lower depth path g descriptor) g := by
  simp [Rules.entry, htemplate, Value.isObject, Value.isArray, Value.asArray, Segment.asKey, Rules.isOfType]

theorem Simulation.Alike.types' (hrules : S.Alike R R') : TypesByFields R'.typeOf := hrules.agree.typeOf ▸ hrules.types

/-- Arrays add what goes along if their members do. -/
theorem Simulation.Alike.entry_array (hrules : S.Alike R R') {key : Segment} (hkey : key ≠ .key "template")
    {items items' : List Value}
    (hitems : S.Rel (items.filterMapM fun item => lower.object item .value depth)
      (items'.filterMapM fun item => upper.object item .value depth)) (around : Value) (path : DataPath) (g : Sketch) :
    S.Rel (R.entry lower around depth path g key (.array items)) (R'.entry upper around depth path g key (.array items')) := by
  rw [Rules.entry_array hrules.types hkey, Rules.entry_array hrules.types' hkey]
  exact S.bind hitems fun _ => S.pure _

/-- An object without a condition is itself as a case. -/
theorem Unconditional.case_eq (hv : Unconditional v) (upper : Outline n) (depth : Nat) :
    upper.case depth v = upper.object v .value depth >>= fun body => pure (body.map fun s => (Value.null, s)) := by
  obtain ⟨fields, rfl⟩ := hv
  have hcondition : caseCondition (fields.without Switch.conditionField) = .null := by
    rw [caseCondition, find?_without_self]
    rfl
  have hbody : withoutField Switch.conditionField (fields.without Switch.conditionField) =
      withoutField Switch.conditionField fields := by
    simp [withoutField, Fields.without]
  conv => lhs; rw [withoutField, Outline.case, Outline.caseBody, hbody, hcondition]

theorem Inlined.view_rel {height height' : Nat}
    (houtlines : S.Inlines old new? depth (R.outline height) (R'.outline height')) (h : Inlined old new? v v') :
    S.Rel (R.view height v depth) (R'.view height' v' depth) := by
  unfold Rules.view
  rw [← h.isObject_eq]
  split
  · exact S.bind (houtlines.object v v' .view h) fun _ => S.pure _
  · exact S.pure _

variable [LawfulMonad n]

theorem CaseInlined.rel (hlower : S.Inlines old new? depth lower upper) {c : Value} {c? : Option Value}
    (h : CaseInlined old new? c c?) : S.Rel (lower.case depth c) (c?.elim (pure none) (upper.case depth)) := by
  cases h with
  | place =>
    have hbody := S.bind hlower.place fun body => S.pure (body.map fun s => (Value.null, s))
    rw [hlower.unconditional.case_eq]
    cases new? with
    | none =>
      rw [Outline.inPlace, Option.elim_none, pure_bind] at hbody
      exact hbody
    | some new =>
      rw [Option.elim_some, (hlower.unconditional' new rfl).case_eq]
      exact hbody
  | @inside _ v' hinlined hcondition =>
    cases c with
    | object fields =>
      cases v' with
      | object fields' =>
        have hsame : caseCondition fields' = caseCondition fields :=
          congrArg (fun x : Option Value => x.getD .null) hcondition.symm
        rw [Option.elim_some, Outline.case, Outline.case, hsame]
        exact S.bind (hlower.without hinlined .value Switch.conditionField) fun _ => S.pure _
      | _ => cases hinlined
    | array items =>
      cases v' with
      | array items' => exact S.pure _
      | _ => cases hinlined
    | _ => cases hinlined

variable [LawfulMonad m]

/-- The cases of both contents give nodes with the same conditions. -/
theorem Inlined.cases_rel (hlower : S.Inlines old new? depth lower upper)
    (h : Inlined old new? (.object fields) (.object fields')) {name : String}
    (hname : name = Switch.staticField ∨ name = Switch.dynamicField) :
    S.Rel ((View.caseItems (find? name fields)).filterMapM (lower.case depth))
      ((View.caseItems (find? name fields')).filterMapM (upper.case depth)) := by
  have hcase : ∀ c, S.Rel (lower.case depth c) (upper.case depth c) := fun c => hlower.same.case depth c
  rcases h.caseItems hname with hsame | ⟨before, after, c, c?, hcases, hcases', hinlined⟩
  · rw [hsame]
    exact Simulation.filterMapM fun c _ => hcase c
  · rw [hcases, hcases']
    exact rel_filterMapM_splice hcase (hinlined.rel hlower) before after

theorem Inlined.switch_rel (hrules : S.Alike R R') (hlower : S.Inlines old new? depth lower upper)
    (h : Inlined old new? (.object fields) (.object fields')) :
    S.Rel (R.switch lower depth fields) (R'.switch upper depth fields') := by
  unfold Rules.switch
  rw [h.hasKey_eq]
  split
  · exact S.bind (h.cases_rel hlower (.inr rfl)) fun _ => S.bind hlower.same.alive fun _ => S.pure _
  · refine S.bind ?_ fun _ => S.bind hlower.same.alive fun _ => S.pure _
    unfold Rules.shown Rules.firstFound
    rw [hrules.complete.1, hrules.complete.2, hrules.accepts]
    exact S.bind (h.cases_rel hlower (.inl rfl)) fun _ => S.pure _

theorem Inlined.build_rel (hrules : S.Alike R R') (hlower : S.Inlines old new? depth lower upper)
    (h : Inlined old new? v v') (type : ContentType) (nodeType : NodeType) :
    S.Rel (R.build lower v type depth nodeType) (R'.build upper v' type depth nodeType) := by
  apply S.bind (hrules.heed v v' depth)
  intro _
  cases v with
  | object fields =>
    cases v' with
    | object fields' =>
      cases nodeType with
      | switch => exact S.bind (h.switch_rel hrules hlower) fun _ => S.pure _
      | applicability =>
        simp only [Rules.make, Outline.applicability, h.find?_applicability]
        apply S.bind (hlower.without h type Applicability.fieldName)
        intro r
        cases r with
        | none => exact S.pure none
        | some s => exact S.bind hlower.same.alive fun _ => S.pure _
      | _ => exact S.pure none
    | _ => cases h
  | array items =>
    cases v' with
    | array items' => cases nodeType <;> exact S.pure none
    | _ => cases h
  | _ => cases h

theorem Inlined.entry_rel (hrules : S.Alike R R') (hlower : S.Inlines old new? depth lower upper)
    (h : Inlined old new? v v') {key : Segment} (htemplate : key = .key "template" → v.isArray = false)
    (around : Value) (path : DataPath) (g : Sketch) :
    S.Rel (R.entry lower around depth path g key v) (R'.entry upper around depth path g key v') := by
  cases v with
  | object fields =>
    cases v' with
    | object fields' =>
      have htype : ∀ type, R'.isOfType type (.object fields') = R.isOfType type (.object fields) := by
        intro type
        rw [Rules.isOfType, Rules.isOfType, hrules.agree.typeOf, h.typeOf_eq hrules.types]
      unfold Rules.entry
      rw [htype, ← h.isObject_eq, ← h.isArray_eq, ← h.isTruthy_eq]
      split
      · exact S.bind (hlower.object _ _ .asset h) fun _ => S.pure _
      split
      · rename_i hlist
        cases (Bool.and_eq_true_iff.1 hlist).1
      split
      · exact S.bind (h.build_rel hrules hlower .value .switch) fun _ => S.pure _
      dsimp only
      rw [h.hasKey_eq, htype]
      split
      · exact S.bind (S.bind (hlower.without h .value "async") fun _ => S.pure _) fun _ => S.pure _
      split
      · exact S.bind (h.build_rel hrules hlower .value .applicability) fun _ => S.pure _
      · exact hlower.gather _ _ _ _ h
    | _ => cases h
  | array items =>
    cases h with
    | item hitem =>
      have hkey : key ≠ .key "template" := by
        intro hkey
        cases htemplate hkey
      apply hrules.entry_array hkey
      exact rel_filterMapM_replace (fun item => hlower.same.object item .value depth) (hlower.object _ _ .value hitem) _ _
  | _ => cases h

end

/-! ## Descriptors -/

/-- What is read of a field only if it is a scalar is the same for the same scalars. -/
theorem bind_eq_of_scalar {α : Type} {x x' : Option Value} (h : x'.bind scalar? = x.bind scalar?)
    {f : Value → Option α} (hf : ∀ v, v.isContainer = true → f v = none) : x'.bind f = x.bind f := by
  have hscalar : ∀ y : Option Value, y.bind f = (y.bind scalar?).bind f := by
    intro y
    cases y with
    | none => rfl
    | some v =>
      rw [Option.bind_some, Option.bind_some, scalar?]
      split
      · rename_i hcontainer
        exact hf v hcontainer
      · rfl
  rw [hscalar, h, ← hscalar]

namespace SameTemplate

variable {d d' : Value} (h : SameTemplate d d')

include h

theorem output_eq : (d'.field? "output").bind outputSegment? = (d.field? "output").bind outputSegment? :=
  bind_eq_of_scalar (h.scalars "output") fun v hv => by cases v <;> first | rfl | cases hv

theorem asString_eq (key : String) : (d'.field? key).bind Value.asString = (d.field? key).bind Value.asString :=
  bind_eq_of_scalar (h.scalars key) fun v hv => by cases v <;> first | rfl | cases hv

theorem asBool_eq (key : String) : (d'.field? key).bind Value.asBool = (d.field? key).bind Value.asBool :=
  bind_eq_of_scalar (h.scalars key) fun v hv => by cases v <;> first | rfl | cases hv

theorem template_eq {m : Type → Type} [AlternativeMonad m] (R : Rules m) (lower : Outline m) (depth : Nat)
    (path : DataPath) (g : Sketch) : R.template lower depth path g d' = R.template lower depth path g d := by
  unfold Rules.template
  rw [h.output_eq, h.asString_eq, h.body, h.asBool_eq]

theorem hasTemplateOutput_eq {fields : Fields} {before after : List Value}
    (hfind : find? "template" fields = some (.array (before ++ d :: after))) :
    hasTemplateOutput (.object (fields.put "template" (.array (before ++ d' :: after)))) =
      hasTemplateOutput (.object fields) := by
  have hlist : ∀ {fields : Fields} {list : List Value} (name : String), find? "template" fields = some (.array list) →
      hasTemplateOutput (.object fields) (.key name) =
        list.any fun t => (t.field? "output").bind Value.asString == some name := by
    intro fields list name hfind
    have hfield : (Value.object fields).field? "template" = some (.array list) := hfind
    unfold hasTemplateOutput
    rw [hfield]
    rfl
  funext key
  cases key with
  | index i => rfl
  | key name =>
    rw [hlist name (find?_put_self ..), hlist name hfind, List.any_append, List.any_append, List.any_cons, List.any_cons,
      h.asString_eq]

end SameTemplate

/-! ## Levels -/

section

variable {m n : Type → Type} [AlternativeMonad m] [AlternativeMonad n] [LawfulMonad m] [LawfulMonad n]
  {S : Simulation m n} {R : Rules m} {R' : Rules n} {old : Value} {new? : Option Value} {depth : Nat}
  {lower : Outline m} {upper : Outline n} {v v' : Value} {fields : Fields} {key : String}

/-- What is gathered from an object goes along with what is gathered with another value, if the entries do. -/
theorem Simulation.Alike.gather_put (hrules : S.Alike R R') (hlower : S.Outlines lower upper)
    (hfind : find? key fields = some v)
    (haround : hasTemplateOutput (.object (fields.put key v')) = hasTemplateOutput (.object fields))
    (hentry : ∀ path g, S.Rel (R.entry lower (.object fields) depth path g (.key key) v)
      (R'.entry upper (.object fields) depth path g (.key key) v')) (path : DataPath) (g : Sketch) :
    S.Rel (R.gather lower (.object fields) depth path g) (R'.gather upper (.object (fields.put key v')) depth path g) := by
  simp only [Rules.gather_object, Rules.entry_around haround]
  obtain ⟨before, after, hfields, hput⟩ := exists_split hfind
  rw [hput v', hfields, entries_object_append, entries_object_append]
  apply rel_foldlM_replace
  · intro b entry
    exact Simulation.entry hrules.agree hlower _ depth path b entry.1 entry.2
  · exact fun b => hfields ▸ hentry path b

theorem Inlined.gather_rel (hrules : S.Alike R R') (hlower : S.Inlines old new? depth lower upper)
    (h : Inlined old new? v v') (path : DataPath) (g : Sketch) :
    S.Rel (R.gather lower v depth path g) (R'.gather upper v' depth path g) := by
  cases h with
  | @element fields key before after hfind hkey _ =>
    refine hrules.gather_put hlower.same hfind (hasTemplateOutput_put hfind fun h => absurd h hkey) ?_ path g
    apply hrules.entry_array fun h => hkey (Segment.key.inj h)
    exact rel_filterMapM_splice (fun item => hlower.same.object item .value depth) hlower.place before after
  | @descriptor fields before after d d' hfind hsame =>
    refine hrules.gather_put hlower.same hfind (hsame.hasTemplateOutput_eq hfind) ?_ path g
    intro path g
    rw [Rules.entry_templates hrules.word, Rules.entry_templates (hrules.agree.typeOf ▸ hrules.word)]
    have htemplate : ∀ b item, S.Rel (R.template lower depth path b item) (R'.template upper depth path b item) :=
      fun b item => Simulation.template hrules.agree hlower.same depth path b item
    apply rel_foldlM_replace htemplate
    intro b
    rw [hsame.template_eq]
    exact htemplate b d
  | @field fields key x x' hfind _ harray _ hinlined =>
    refine hrules.gather_put hlower.same hfind (hasTemplateOutput_put hfind ?_) ?_ path g
    · intro hkey
      have hno := harray hkey
      cases hinlined with
      | item => cases hno
      | _ => exact ⟨rfl, rfl⟩
    · exact hinlined.entry_rel hrules hlower (fun hkey => harray (Segment.key.inj hkey)) _
  | @item before after x x' hitem =>
    have haround := hasTemplateOutput_array (before ++ x' :: after) (before ++ x :: after)
    simp only [Rules.gather_array, Rules.entry_around haround, entries, List.zipIdx_append, List.zipIdx_cons,
      List.map_append, List.map_cons]
    apply rel_foldlM_replace
    · intro b entry
      exact Simulation.entry hrules.agree hlower.same _ depth path b entry.1 entry.2
    · intro b
      have hindex : Segment.ofPosition (0 + before.length) = .key "template" → x.isArray = false := by
        intro hkey
        cases hkey
      exact hitem.entry_rel hrules hlower hindex _ path b

theorem Inlined.object_rel (hrules : S.Alike R R') (hlower : S.Inlines old new? depth lower upper)
    (h : Inlined old new? v v') (type : ContentType) :
    S.Rel (R.object lower v type depth) (R'.object upper v' type depth) := by
  unfold Rules.object Rules.built
  rw [hrules.agree.typeOf, h.typeOf_eq hrules.types]
  apply S.bind
  · split
    · exact h.build_rel hrules hlower type _
    · exact S.pure none
  · intro r
    cases r with
    | some s => exact S.pure _
    | none => exact S.bind (h.gather_rel hrules hlower [] .empty) fun _ => S.pure _

/-- If the item goes along with what comes in its place, so do the contents, at every height. -/
theorem Simulation.Alike.inlines (hrules : S.Alike R R') (hfails : ∀ {τ : Type} (y : n τ), S.Rel (failure : m τ) y)
    (hold : Unconditional old) (hnew : ∀ new, new? = some new → Unconditional new)
    (hplace : ∀ height, S.Rel (R.object (R.outline height) old .value depth)
      ((R'.outline (height + 1)).inPlace new? depth)) (height : Nat) :
    S.Inlines old new? depth (R.outline height) (R'.outline height) := by
  have hsame : ∀ height, S.Outlines (R.outline height) (R'.outline height) :=
    Simulation.outline hrules.agree (hfails _)
  induction height with
  | zero => exact ⟨hold, hnew, hsame 0, fun _ _ _ _ => hfails _, fun _ _ _ _ _ => hfails _, hfails _⟩
  | succ height ih =>
    refine ⟨hold, hnew, hsame (height + 1), ?_, ?_, hplace height⟩
    · exact fun v v' type h => h.object_rel hrules ih type
    · exact fun v v' path g h => h.gather_rel hrules ih path g

end

end DataBound.View
