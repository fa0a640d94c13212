-- SUMMARY: Content that differs only in cases that no static switch chooses is outlined alike.
import DataBound.Proofs.Document
import DataBound.Proofs.View.Outline

/-!
# Cases that are not chosen

A static switch chooses its first accepted case. `Unseen` relates contents that differ in the other cases of one static
switch in them. Such contents have the same outline, so nothing of the other cases is seen in what is built, under two
conditions. The chosen case has to give a node, for else the next accepted case is shown. And a switch with an expression
has to be classified as a switch or to choose a case, for else nothing is built for it, and it is walked like any other
object. The second condition is not needed where a switch with an expression is the value of an ordinary property.
-/

namespace DataBound

namespace Fields

variable {key other : String} {v v' : Value} {fields : Fields}

theorem find?_put_of_ne (h : other ≠ key) (v : Value) : find? other (fields.put key v) = find? other fields :=
  find?_update_of_ne h _ fields

/-- The first field with a key, and what putting a value there does. -/
theorem exists_split (h : find? key fields = some v) :
    ∃ before after, fields = before ++ (key, v) :: after ∧ ∀ v', fields.put key v' = before ++ (key, v') :: after := by
  induction fields with
  | nil => cases h
  | cons field rest ih =>
    obtain ⟨k, x⟩ := field
    by_cases hk : k = key
    · subst hk
      rw [find?, if_pos rfl, Option.some.injEq] at h
      subst h
      exact ⟨[], rest, rfl, fun v' => by rw [put, update, if_pos rfl, List.nil_append]⟩
    · rw [find?, if_neg hk] at h
      obtain ⟨before, after, rfl, hput⟩ := ih h
      refine ⟨(k, x) :: before, after, rfl, ?_⟩
      intro v'
      rw [put, update, if_neg hk, List.cons_append]
      exact congrArg _ (hput v')

theorem hasKey_put (h : find? key fields = some v) (v' : Value) (other : String) :
    hasKey (fields.put key v') other = hasKey fields other := by
  unfold hasKey
  by_cases ho : other = key
  · rw [ho, find?_put_self, h]
    rfl
  · rw [find?_put_of_ne ho]

theorem find?_without_of_ne (h : other ≠ key) (fields : Fields) :
    find? other (fields.without key) = find? other fields := by
  induction fields with
  | nil => rfl
  | cons field rest ih =>
    obtain ⟨k, x⟩ := field
    by_cases hk : k = key
    · subst hk
      rw [without, List.filter_cons_of_neg (by simp), find?, if_neg (Ne.symm h)]
      exact ih
    · rw [without, List.filter_cons_of_pos (by simpa using hk), find?, find?]
      split
      · rfl
      · exact ih

theorem find?_without_self (key : String) (fields : Fields) : find? key (fields.without key) = none := by
  apply find?_eq_none
  simp [without]

theorem without_put_self (h : find? key fields = some v) (v' : Value) :
    (fields.put key v').without key = fields.without key := by
  obtain ⟨before, after, rfl, hput⟩ := exists_split h
  rw [hput]
  simp [without]

theorem without_put_of_ne (hne : key ≠ other) (h : find? key fields = some v) (v' : Value) :
    (fields.put key v').without other = (fields.without other).put key v' := by
  induction fields with
  | nil => cases h
  | cons field rest ih =>
    obtain ⟨k, x⟩ := field
    by_cases hk : k = key
    · subst hk
      simp [put, update, without, hne]
    · rw [find?, if_neg hk] at h
      have hrest := ih h
      by_cases ho : k = other
      · subst ho
        simpa [put, update, without, hk] using hrest
      · simpa [put, update, without, hk, ho] using hrest

end Fields

namespace View

open Fields

/-! ## Choosing -/

namespace Switch

/-- The first case of a list that is accepted. -/
def chosen? (accepts : Value → Bool) (cases : List Value) : Option Value :=
  cases.find? fun c => c.isObject && accepts ((c.field? conditionField).getD .null)

theorem chosen?_cons (accepts : Value → Bool) (fields : Fields) (rest : List Value) :
    chosen? accepts (.object fields :: rest) =
      if accepts (caseCondition fields) then some (.object fields) else chosen? accepts rest := by
  by_cases haccepted : accepts (caseCondition fields) = true
  · rw [if_pos haccepted]
    exact List.find?_cons_of_pos haccepted
  · rw [if_neg haccepted]
    exact List.find?_cons_of_neg haccepted

/-- The body of a case. -/
def body : Value → Value
  | .object fields => withoutField conditionField fields
  | v => v

/-- The conditions of a list of cases. -/
def conditions : Value → List (Option Value)
  | .array cases => cases.map (Value.field? conditionField)
  | _ => []

end Switch

/-- The objects are static switches with the same fields but their cases, and choose the same case, if any; and it gives
a node. -/
structure ChooseAlike (accepts : Value → Bool) (gives : Value → Prop) (fields fields' : Fields) (cases : List Value) :
    Prop where
  static : find? Switch.staticField fields = some (.array cases)
  dynamic : hasKey fields Switch.dynamicField = false
  other : ∃ cases', fields' = fields.put Switch.staticField (.array cases') ∧
    Switch.chosen? accepts cases' = Switch.chosen? accepts cases
  gives : ∀ c, Switch.chosen? accepts cases = some c → gives (Switch.body c)

/-- The second content is the first with other cases in a static switch, but for the one that it chooses. The switch can
stand anywhere in the content, also in bodies of cases, but not in a list of templates, an expression or a condition. -/
inductive Unseen (typeOf : Value → Option NodeType) (accepts : Value → Bool) (gives : Value → Prop) :
    Value → Value → Prop
  /-- The switch itself. -/
  | switch {fields fields' : Fields} {cases : List Value} : ChooseAlike accepts gives fields fields' cases →
      typeOf (.object fields) = some .switch ∨ (Switch.chosen? accepts cases).isSome →
      Unseen typeOf accepts gives (.object fields) (.object fields')
  /-- A switch that is the value of an ordinary property. -/
  | property {fields inner inner' : Fields} {cases : List Value} {key : String} :
      find? key fields = some (.object inner) → key ≠ "asset" → key ≠ Applicability.fieldName →
      hasKey inner "async" = false → ChooseAlike accepts gives inner inner' cases →
      Unseen typeOf accepts gives (.object fields) (.object (fields.put key (.object inner')))
  /-- Below a field. -/
  | field {fields : Fields} {key : String} {v v' : Value} :
      find? key fields = some v → key ≠ Applicability.fieldName → (key = "template" → v.isArray = false) →
      (key = Switch.staticField ∨ key = Switch.dynamicField → Switch.conditions v = Switch.conditions v') →
      Unseen typeOf accepts gives v v' → Unseen typeOf accepts gives (.object fields) (.object (fields.put key v'))
  /-- Below an item. -/
  | item {before after : List Value} {v v' : Value} : Unseen typeOf accepts gives v v' →
      Unseen typeOf accepts gives (.array (before ++ v :: after)) (.array (before ++ v' :: after))

/-- Objects are classified by the fields that belong to the extensions, as switches or by their expressions. -/
structure TypesByFields (typeOf : Value → Option NodeType) : Prop where
  array (items : List Value) : typeOf (.array items) = none
  template (name : String) : typeOf (.string name) = some .template → name = "template"
  object (fields : Fields) (type : NodeType) :
    typeOf (.object fields) = some type → type = .switch ∨ type = .applicability
  fields (fields fields' : Fields) :
    (∀ key ∈ [Applicability.fieldName, Switch.staticField, Switch.dynamicField], hasKey fields key = hasKey fields' key) →
    typeOf (.object fields) = typeOf (.object fields')
  static (fields : Fields) : hasKey fields Switch.staticField → (typeOf (.object fields)).isSome
  switch (fields : Fields) : hasKey fields Switch.staticField → hasKey fields Applicability.fieldName = false →
    typeOf (.object fields) = some .switch

section

variable {typeOf : Value → Option NodeType} {accepts : Value → Bool} {gives : Value → Prop} {v v' : Value}
  {fields fields' : Fields} {cases : List Value} {key : String}

/-! ## Parts of such contents -/

theorem ChooseAlike.hasKey_static (h : ChooseAlike accepts gives fields fields' cases) :
    hasKey fields Switch.staticField = true := by
  rw [hasKey, h.static]
  rfl

theorem ChooseAlike.hasKey_eq (h : ChooseAlike accepts gives fields fields' cases) (key : String) :
    hasKey fields' key = hasKey fields key := by
  obtain ⟨cases', rfl, -⟩ := h.other
  exact hasKey_put h.static _ key

theorem ChooseAlike.find?_eq (h : ChooseAlike accepts gives fields fields' cases) (key : String)
    (hkey : key ≠ Switch.staticField) :
    find? key fields' = find? key fields := by
  obtain ⟨cases', rfl, -⟩ := h.other
  exact find?_put_of_ne hkey _

/-- The switches are alike without another of their fields. -/
theorem ChooseAlike.without (h : ChooseAlike accepts gives fields fields' cases) (key : String)
    (hstatic : key ≠ Switch.staticField) (hdynamic : key ≠ Switch.dynamicField) :
    ChooseAlike accepts gives (fields.without key) (fields'.without key) cases where
  static := (find?_without_of_ne (Ne.symm hstatic) fields).trans h.static
  dynamic := by
    rw [hasKey, find?_without_of_ne (Ne.symm hdynamic)]
    exact h.dynamic
  other := by
    obtain ⟨cases', rfl, hchosen⟩ := h.other
    exact ⟨cases', without_put_of_ne (Ne.symm hstatic) h.static _, hchosen⟩
  gives := h.gives

theorem Unseen.isObject_eq (h : Unseen typeOf accepts gives v v') : v.isObject = v'.isObject := by
  cases h <;> rfl

theorem Unseen.isArray_eq (h : Unseen typeOf accepts gives v v') : v.isArray = v'.isArray := by
  cases h <;> rfl

theorem Unseen.isTruthy_eq (h : Unseen typeOf accepts gives v v') : v.isTruthy = v'.isTruthy := by
  cases h <;> rfl

theorem Unseen.hasKey_eq (h : Unseen typeOf accepts gives (.object fields) (.object fields')) (key : String) :
    hasKey fields' key = hasKey fields key := by
  cases h with
  | switch halike _ => exact halike.hasKey_eq key
  | property hfind => exact hasKey_put hfind _ key
  | field hfind => exact hasKey_put hfind _ key

theorem Unseen.typeOf_eq (htypes : TypesByFields typeOf) (h : Unseen typeOf accepts gives v v') :
    typeOf v' = typeOf v := by
  cases v with
  | object fields =>
    cases v' with
    | object fields' => exact htypes.fields _ _ fun key _ => h.hasKey_eq key
    | _ => cases h
  | array items =>
    cases v' with
    | array items' => rw [htypes.array, htypes.array]
    | _ => cases h
  | _ => cases h

/-- A switch without its expression is classified as a switch. -/
theorem ChooseAlike.typeOf_without (htypes : TypesByFields typeOf) (h : ChooseAlike accepts gives fields fields' cases) :
    typeOf (withoutField Applicability.fieldName fields) = some .switch := by
  apply htypes.switch
  · rw [hasKey, find?_without_of_ne (by decide), h.static]
    rfl
  · rw [hasKey, find?_without_self]
    rfl

/-- The contents are alike without another of their fields, or even the same. -/
theorem Unseen.without (htypes : TypesByFields typeOf) (h : Unseen typeOf accepts gives (.object fields) (.object fields'))
    (hstatic : key ≠ Switch.staticField) (hdynamic : key ≠ Switch.dynamicField) :
    withoutField key fields' = withoutField key fields ∨
      Unseen typeOf accepts gives (withoutField key fields) (withoutField key fields') := by
  cases h with
  | switch halike htype =>
    refine .inr (.switch (halike.without key hstatic hdynamic) (htype.imp_left ?_))
    intro hswitch
    by_cases hkey : key = Applicability.fieldName
    · rw [hkey]
      exact halike.typeOf_without htypes
    · rw [← hswitch]
      apply htypes.fields
      intro other hother
      rw [hasKey, find?_without_of_ne, hasKey]
      rintro rfl
      simp only [List.mem_cons, List.not_mem_nil, or_false] at hother
      rcases hother with h | h | h
      · exact hkey h
      · exact hstatic h
      · exact hdynamic h
  | @property _ _ _ _ name hfind hasset happlicability hasync halike =>
    by_cases hname : name = key
    · subst hname
      exact .inl (congrArg Value.object (without_put_self hfind _))
    · refine .inr ?_
      rw [withoutField, withoutField, without_put_of_ne hname hfind]
      exact .property ((find?_without_of_ne hname _).trans hfind) hasset happlicability hasync halike
  | @field _ name _ _ hfind happlicability htemplate hconditions hunseen =>
    by_cases hname : name = key
    · subst hname
      exact .inl (congrArg Value.object (without_put_self hfind _))
    · refine .inr ?_
      rw [withoutField, withoutField, without_put_of_ne hname hfind]
      exact .field ((find?_without_of_ne hname _).trans hfind) happlicability htemplate hconditions hunseen

end

/-! ## Outlines -/

/-- By these rules only the bodies of cases are built that a static switch comes to, and nothing else is done. -/
structure Rules.Lazy (R : Rules Option) : Prop where
  skips : R.skips = true
  heed (v : Value) (depth : Nat) : R.heed v depth = some ()

theorem Rules.Lazy.shown_eq {R : Rules Option} (h : R.Lazy) (lower : Outline Option) (depth : Nat)
    (cases : List Value) : R.shown lower depth cases = R.firstShown lower depth cases := by
  rw [shown, if_pos h.skips]

theorem Rules.Lazy.build_eq {R : Rules Option} (h : R.Lazy) (lower : Outline Option) (v : Value) (type : ContentType)
    (depth : Nat) (nodeType : NodeType) : R.build lower v type depth nodeType = R.make lower v type depth nodeType := by
  rw [build, h.heed]
  rfl

/-- At a template depth the outline has the same results for such contents. What is said to give a node does not come
out as nothing, nor does a switch that chooses a case. -/
structure Outline.Blind (R : Rules Option) (gives : Value → Prop) (depth : Nat) (lower : Outline Option) : Prop where
  rules : R.Lazy
  object (v v' : Value) (type : ContentType) : Unseen R.typeOf R.accepts gives v v' →
    lower.object v' type depth = lower.object v type depth
  gather (v v' : Value) (path : DataPath) (g : Sketch) : R.typeOf v = none → Unseen R.typeOf R.accepts gives v v' →
    lower.gather v' depth path g = lower.gather v depth path g
  bodies (body : Value) : gives body → lower.object body .value depth ≠ some none
  chooses (fields fields' : Fields) (cases : List Value) (type : ContentType) :
    ChooseAlike R.accepts gives fields fields' cases → (Switch.chosen? R.accepts cases).isSome →
    R.typeOf (.object fields) = some .switch → lower.object (.object fields) type depth ≠ some none

section

variable {R : Rules Option} {gives : Value → Prop} {depth : Nat} {lower : Outline Option} {v v' : Value} {fields fields' : Fields}
  {cases : List Value} {key : String}

theorem Outline.Blind.without (hlower : lower.Blind R gives depth) (htypes : TypesByFields R.typeOf)
    (h : Unseen R.typeOf R.accepts gives (.object fields) (.object fields')) (type : ContentType) (key : String)
    (hstatic : key ≠ Switch.staticField) (hdynamic : key ≠ Switch.dynamicField) :
    lower.object (withoutField key fields') type depth = lower.object (withoutField key fields) type depth := by
  rcases h.without htypes hstatic hdynamic with hsame | hunseen
  · rw [hsame]
  · exact hlower.object _ _ type hunseen

/-- A static switch comes to the case that it chooses, if that gives a node. -/
theorem Rules.firstShown_eq (hgives : ∀ c, Switch.chosen? R.accepts cases = some c →
      lower.object (Switch.body c) .value depth ≠ some none) :
    R.firstShown lower depth cases = match Switch.chosen? R.accepts cases with
      | none => some none
      | some c => lower.object (Switch.body c) .value depth := by
  induction cases with
  | nil => rfl
  | cons c rest ih =>
    cases c with
    | object fields =>
      rw [Switch.chosen?_cons] at hgives ⊢
      unfold firstShown
      split
      · rename_i haccepted
        rw [if_pos haccepted] at hgives
        have hbody := hgives _ rfl
        change lower.caseBody depth fields ≠ some none at hbody
        change _ = lower.caseBody depth fields
        cases hresult : lower.caseBody depth fields with
        | none => rfl
        | some r =>
          cases r with
          | none => exact absurd hresult hbody
          | some s => rfl
      · rename_i hrejected
        rw [if_neg hrejected] at hgives
        exact ih hgives
    | _ => exact ih hgives

theorem filterMapM_replace {α β : Type} {f : α → Option (Option β)} {x y : α} (h : f y = f x) (before after : List α) :
    (before ++ y :: after).filterMapM f = (before ++ x :: after).filterMapM f := by
  induction before with
  | nil => rw [List.nil_append, List.nil_append, List.filterMapM_cons, List.filterMapM_cons, h]
  | cons item rest ih => rw [List.cons_append, List.cons_append, List.filterMapM_cons, List.filterMapM_cons, ih]

/-- A case with another condition or body in it may differ in what is not seen. -/
theorem Outline.Blind.case (hlower : lower.Blind R gives depth) (htypes : TypesByFields R.typeOf)
    (h : Unseen R.typeOf R.accepts gives v v')
    (hcondition : v.field? Switch.conditionField = v'.field? Switch.conditionField) :
    lower.case depth v' = lower.case depth v := by
  cases v with
  | object fields =>
    cases v' with
    | object fields' =>
      have hbody := hlower.without htypes h .value Switch.conditionField (by decide) (by decide)
      simp only [Value.field?] at hcondition
      simp only [Outline.case, caseBody, caseCondition, hbody, hcondition]
    | _ => cases h
  | array items =>
    cases v' with
    | array items' => rfl
    | _ => cases h
  | _ => cases h

theorem Rules.firstShown_item (hlower : lower.Blind R gives depth) (htypes : TypesByFields R.typeOf)
    (h : Unseen R.typeOf R.accepts gives v v')
    (hcondition : v.field? Switch.conditionField = v'.field? Switch.conditionField) (before after : List Value) :
    R.firstShown lower depth (before ++ v' :: after) = R.firstShown lower depth (before ++ v :: after) := by
  induction before with
  | nil =>
    cases v with
    | object fields =>
      cases v' with
      | object fields' =>
        have hbody := hlower.without htypes h .value Switch.conditionField (by decide) (by decide)
        simp only [Value.field?] at hcondition
        simp only [List.nil_append, firstShown, Outline.caseBody, caseCondition, hbody, hcondition]
      | _ => cases h
    | array items =>
      cases v' with
      | array items' => rfl
      | _ => cases h
    | _ => cases h
  | cons c rest ih => cases c <;> simp only [List.cons_append, firstShown, ih]

/-- Two lists of cases that differ in what is not seen of one of them. -/
def SameCases (R : Rules Option) (gives : Value → Prop) (items items' : List Value) : Prop :=
  items' = items ∨ ∃ before v v' after, items = before ++ v :: after ∧ items' = before ++ v' :: after ∧
    Unseen R.typeOf R.accepts gives v v' ∧ v.field? Switch.conditionField = v'.field? Switch.conditionField

theorem sameCases_of_conditions (h : Unseen R.typeOf R.accepts gives v v')
    (hconditions : Switch.conditions v = Switch.conditions v') :
    SameCases R gives (caseItems (some v)) (caseItems (some v')) := by
  cases h with
  | @item before after x x' hitem =>
    refine .inr ⟨before, x, x', after, rfl, rfl, hitem, ?_⟩
    simp only [Switch.conditions, List.map_append, List.map_cons, List.append_cancel_left_eq,
      List.cons.injEq] at hconditions
    exact hconditions.1
  | _ => exact .inl rfl

theorem Rules.switch_eq (hlower : lower.Blind R gives depth) (htypes : TypesByFields R.typeOf)
    (hkeys : ∀ key, hasKey fields' key = hasKey fields key)
    (hcases : ∀ key, key = Switch.staticField ∨ key = Switch.dynamicField →
      SameCases R gives (caseItems (find? key fields)) (caseItems (find? key fields'))) :
    R.switch lower depth fields' = R.switch lower depth fields := by
  unfold switch
  rw [hkeys]
  split
  · rcases hcases Switch.dynamicField (.inr rfl) with hsame | ⟨before, v, v', after, hitems, hitems', hunseen, hcondition⟩
    · rw [hsame]
    · rw [hitems, hitems', filterMapM_replace (hlower.case htypes hunseen hcondition)]
  · rcases hcases Switch.staticField (.inl rfl) with hsame | ⟨before, v, v', after, hitems, hitems', hunseen, hcondition⟩
    · rw [hsame]
    · rw [hitems, hitems', hlower.rules.shown_eq, hlower.rules.shown_eq,
        firstShown_item hlower htypes hunseen hcondition]

theorem ChooseAlike.switch_eq (hlower : lower.Blind R gives depth)
    (h : ChooseAlike R.accepts gives fields fields' cases) :
    R.switch lower depth fields' = R.switch lower depth fields := by
  obtain ⟨cases', hfields', hchosen⟩ := h.other
  have hstatic' : find? Switch.staticField fields' = some (.array cases') := by
    rw [hfields', find?_put_self]
  have hgives : ∀ c, Switch.chosen? R.accepts cases = some c →
      lower.object (Switch.body c) .value depth ≠ some none := fun c hc => hlower.bodies _ (h.gives c hc)
  have hshown : R.firstShown lower depth cases' = R.firstShown lower depth cases := by
    rw [Rules.firstShown_eq hgives, Rules.firstShown_eq (hchosen.symm ▸ hgives), hchosen]
  unfold Rules.switch
  rw [h.hasKey_eq, h.dynamic, h.static, hstatic', if_neg Bool.false_ne_true, if_neg Bool.false_ne_true]
  simp only [caseItems, Option.bind_some, Value.asArray, Option.getD_some, hlower.rules.shown_eq, hshown]

/-- Building a switch does not see the cases that it does not choose, whatever it is classified as. -/
theorem ChooseAlike.build_eq (hlower : lower.Blind R gives depth) (htypes : TypesByFields R.typeOf)
    (h : ChooseAlike R.accepts gives fields fields' cases) (type : ContentType) (nodeType : NodeType) :
    R.build lower (.object fields') type depth nodeType = R.build lower (.object fields) type depth nodeType := by
  rw [hlower.rules.build_eq, hlower.rules.build_eq]
  cases nodeType with
  | switch => simp only [Rules.make, h.switch_eq hlower]
  | applicability =>
    have hwithout : Unseen R.typeOf R.accepts gives (withoutField Applicability.fieldName fields)
        (withoutField Applicability.fieldName fields') :=
      .switch (h.without Applicability.fieldName (by decide) (by decide)) (.inl (h.typeOf_without htypes))
    have hexpression := h.find?_eq Applicability.fieldName (by decide)
    simp only [Rules.make, Outline.applicability, hlower.object _ _ type hwithout, hexpression]
  | _ => rfl

theorem Unseen.build_eq (hlower : lower.Blind R gives depth) (htypes : TypesByFields R.typeOf)
    (h : Unseen R.typeOf R.accepts gives v v') (type : ContentType) (nodeType : NodeType) :
    R.build lower v' type depth nodeType = R.build lower v type depth nodeType := by
  cases v with
  | object fields =>
    cases v' with
    | object fields' =>
      -- the expression is the same, and the lists of cases are the same but for what is not seen
      have hparts : (∃ cases, ChooseAlike R.accepts gives fields fields' cases) ∨
          find? Applicability.fieldName fields' = find? Applicability.fieldName fields ∧
            ∀ key, key = Switch.staticField ∨ key = Switch.dynamicField →
              SameCases R gives (caseItems (find? key fields)) (caseItems (find? key fields')) := by
        cases h with
        | switch halike _ => exact .inl ⟨_, halike⟩
        | @property _ inner inner' _ name hfind _ happlicability =>
          refine .inr ⟨find?_put_of_ne (Ne.symm happlicability) _, ?_⟩
          intro key _
          by_cases hkey : key = name
          · rw [hkey, hfind, find?_put_self]
            exact .inl rfl
          · rw [find?_put_of_ne hkey]
            exact .inl rfl
        | @field _ name _ _ hfind happlicability _ hconditions hunseen =>
          refine .inr ⟨find?_put_of_ne (Ne.symm happlicability) _, ?_⟩
          intro key hcaseKey
          by_cases hkey : key = name
          · subst hkey
            rw [hfind, find?_put_self]
            exact sameCases_of_conditions hunseen (hconditions hcaseKey)
          · rw [find?_put_of_ne hkey]
            exact .inl rfl
      rcases hparts with ⟨cases, halike⟩ | ⟨hexpression, hcases⟩
      · exact halike.build_eq hlower htypes type nodeType
      · rw [hlower.rules.build_eq, hlower.rules.build_eq]
        cases nodeType with
        | switch => simp only [Rules.make, Rules.switch_eq hlower htypes h.hasKey_eq hcases]
        | applicability =>
          have hbody := hlower.without htypes h type Applicability.fieldName (by decide) (by decide)
          simp only [Rules.make, Outline.applicability, hbody, hexpression]
        | _ => rfl
    | _ => cases h
  | array items =>
    cases v' with
    | array items' =>
      rw [hlower.rules.build_eq, hlower.rules.build_eq]
      cases nodeType <;> rfl
    | _ => cases h
  | _ => cases h

/-! ## Entries -/

theorem Unseen.entry_eq (hlower : lower.Blind R gives depth) (htypes : TypesByFields R.typeOf)
    (h : Unseen R.typeOf R.accepts gives v v') {key : Segment} (htemplate : key = .key "template" → v.isArray = false)
    (around : Value) (path : DataPath) (g : Sketch) :
    R.entry lower around depth path g key v' = R.entry lower around depth path g key v := by
  have hno : (v.isArray && key.asKey.any fun name => R.isOfType .template (.string name)) = false := by
    cases key with
    | index i => exact Bool.and_false _
    | key name =>
      cases harray : v.isArray with
      | false => rfl
      | true =>
        cases htype : R.isOfType .template (.string name) with
        | false => simp [Segment.asKey, htype]
        | true =>
          have hname := htypes.template name (beq_iff_eq.1 htype)
          rw [htemplate (by rw [hname])] at harray
          cases harray
  have htype : ∀ type, R.isOfType type v' = R.isOfType type v := by
    intro type
    rw [Rules.isOfType, Rules.isOfType, h.typeOf_eq htypes]
  unfold Rules.entry
  rw [← h.isObject_eq, ← h.isArray_eq, ← h.isTruthy_eq, hno, htype]
  split
  · rw [hlower.object v v' .asset h]
  rw [if_neg Bool.false_ne_true, if_neg Bool.false_ne_true]
  split
  · rw [Rules.placeSwitch, Rules.placeSwitch, h.build_eq hlower htypes]
  rename_i hswitch
  cases v with
  | object fields =>
    cases v' with
    | object fields' =>
      dsimp only
      rw [h.hasKey_eq, htype]
      split
      · have hbody := hlower.without htypes h .value "async" (by decide) (by decide)
        rw [Outline.async, Outline.async, hbody]
      split
      · rw [h.build_eq hlower htypes]
      · rename_i happlicability
        apply hlower.gather _ _ _ _ ?_ h
        cases hfields : R.typeOf (.object fields) with
        | none => rfl
        | some type =>
          rcases htypes.object fields type hfields with rfl | rfl
          · exact absurd (by simp [Rules.isOfType, hfields, Value.isTruthy]) hswitch
          · exact absurd (by simp [Rules.isOfType, hfields]) happlicability
    | _ => cases h
  | array items =>
    cases v' with
    | array items' =>
      cases h with
      | item hitem =>
        have hmembers :=
          filterMapM_replace (f := fun item => lower.object item .value depth) (hlower.object _ _ .value hitem)
        simp only [Outline.members, hmembers]
    | _ => cases h
  | _ => cases h

theorem ChooseAlike.entry_eq (hlower : lower.Blind R gives depth) (htypes : TypesByFields R.typeOf)
    (h : ChooseAlike R.accepts gives fields fields' cases) (hkey : key ≠ "asset")
    (hasync : hasKey fields "async" = false) (around : Value) (path : DataPath) (g : Sketch) :
    R.entry lower around depth path g (.key key) (.object fields') =
      R.entry lower around depth path g (.key key) (.object fields) := by
  have htypeOf : R.typeOf (.object fields') = R.typeOf (.object fields) :=
    htypes.fields _ _ fun other _ => h.hasKey_eq other
  have htype : ∀ type, R.isOfType type (.object fields') = R.isOfType type (.object fields) := by
    intro type
    rw [Rules.isOfType, Rules.isOfType, htypeOf]
  have hasset : (Segment.asKey (.key key) == some "asset") = false :=
    beq_eq_false_iff_ne.2 (by simpa [Segment.asKey] using hkey)
  unfold Rules.entry
  rw [htype, hasset]
  simp only [Bool.false_and, Bool.false_eq_true, if_false, Value.isArray, Value.isTruthy, Bool.true_and]
  split
  · rw [Rules.placeSwitch, Rules.placeSwitch, h.build_eq hlower htypes]
  rename_i hswitch
  rw [h.hasKey_eq, hasync, if_neg Bool.false_ne_true, if_neg Bool.false_ne_true, htype]
  split
  · rw [h.build_eq hlower htypes]
  · -- a static switch is classified
    rename_i happlicability
    obtain ⟨type, hfields⟩ := Option.isSome_iff_exists.1 (htypes.static fields h.hasKey_static)
    rcases htypes.object fields type hfields with rfl | rfl
    · exact absurd (by simp [Rules.isOfType, hfields]) hswitch
    · exact absurd (by simp [Rules.isOfType, hfields]) happlicability

theorem foldlM_replace {α β : Type} {f : β → α → Option β} {x y : α} (h : ∀ b, f b y = f b x) (before after : List α)
    (b : β) : (before ++ y :: after).foldlM f b = (before ++ x :: after).foldlM f b := by
  simp only [List.foldlM_append, List.foldlM_cons, h]

/-- The names under which templates place their copies are as before if the list of templates is not touched. -/
theorem hasTemplateOutput_put (hfind : find? key fields = some v)
    (htemplate : key = "template" → v.asArray = none ∧ v'.asArray = none) :
    hasTemplateOutput (.object (fields.put key v')) = hasTemplateOutput (.object fields) := by
  have hlist : (find? "template" (fields.put key v')).bind Value.asArray =
      (find? "template" fields).bind Value.asArray := by
    by_cases hkey : key = "template"
    · obtain ⟨hv, hv'⟩ := htemplate hkey
      rw [← hkey, find?_put_self, hfind, Option.bind_some, Option.bind_some, hv, hv']
    · rw [find?_put_of_ne (Ne.symm hkey)]
  funext segment
  unfold hasTemplateOutput
  rw [Value.field?, Value.field?, hlist]

theorem hasTemplateOutput_array (items items' : List Value) :
    hasTemplateOutput (.array items) = hasTemplateOutput (.array items') := by
  funext segment
  cases segment <;> rfl

theorem entries_object_append (before after : Fields) (field : String × Value) :
    entries (.object (before ++ field :: after)) =
      entries (.object before) ++ (.key field.1, field.2) :: entries (.object after) := by
  simp only [entries, List.map_append, List.map_cons]

/-- What is gathered from an object does not change with a value that gives a like entry. -/
theorem Rules.gather_put (hfind : find? key fields = some v)
    (htemplate : key = "template" → v.asArray = none ∧ v'.asArray = none)
    (hentry : ∀ path g, R.entry lower (.object fields) depth path g (.key key) v' =
      R.entry lower (.object fields) depth path g (.key key) v) (path : DataPath) (g : Sketch) :
    R.gather lower (.object (fields.put key v')) depth path g = R.gather lower (.object fields) depth path g := by
  simp only [gather_object, entry_around (hasTemplateOutput_put hfind htemplate)]
  obtain ⟨before, after, hfields, hput⟩ := exists_split hfind
  rw [hput v', hfields, entries_object_append, entries_object_append]
  apply foldlM_replace
  exact fun b => hfields ▸ hentry path b

theorem Rules.gather_item (hentry : ∀ around path g (i : Nat), R.entry lower around depth path g (.ofPosition i) v' =
      R.entry lower around depth path g (.ofPosition i) v) (before after : List Value) (path : DataPath) (g : Sketch) :
    R.gather lower (.array (before ++ v' :: after)) depth path g =
      R.gather lower (.array (before ++ v :: after)) depth path g := by
  have haround := hasTemplateOutput_array (before ++ v' :: after) (before ++ v :: after)
  simp only [gather_array, entry_around haround, entries, List.zipIdx_append, List.zipIdx_cons, List.map_append,
    List.map_cons]
  apply foldlM_replace
  exact fun b => hentry _ path b _

/-- What is gathered from such contents is the same, unless they are the switches themselves. -/
theorem Unseen.gather_eq (hlower : lower.Blind R gives depth) (htypes : TypesByFields R.typeOf)
    (h : Unseen R.typeOf R.accepts gives v v') :
    (∃ fields fields' cases, v = .object fields ∧ ChooseAlike R.accepts gives fields fields' cases ∧
      (R.typeOf v = some .switch ∨ (Switch.chosen? R.accepts cases).isSome)) ∨
    ∀ path g, R.gather lower v' depth path g = R.gather lower v depth path g := by
  cases h with
  | switch halike hclassified => exact .inl ⟨_, _, _, rfl, halike, hclassified⟩
  | property hfind hasset _ hasync halike =>
    refine .inr (Rules.gather_put hfind (fun _ => ⟨rfl, rfl⟩) ?_)
    exact fun path g => halike.entry_eq hlower htypes hasset hasync _ path g
  | @field fields key v v' hfind _ htemplate _ hunseen =>
    refine .inr (Rules.gather_put hfind ?_ ?_)
    · intro hkey
      have harray := htemplate hkey
      cases hunseen with
      | item => cases harray
      | _ => exact ⟨rfl, rfl⟩
    · exact fun path g => hunseen.entry_eq hlower htypes (fun hkey => htemplate (Segment.key.inj hkey)) _ path g
  | @item before after v v' hunseen =>
    refine .inr (Rules.gather_item ?_ before after)
    intro around path g i
    have hindex : Segment.ofPosition i = .key "template" → v.isArray = false := nofun
    exact hunseen.entry_eq hlower htypes hindex around path g

/-! ## Levels -/

theorem Unseen.object_eq (hlower : lower.Blind R gives depth) (htypes : TypesByFields R.typeOf)
    (h : Unseen R.typeOf R.accepts gives v v') (type : ContentType) :
    R.object lower v' type depth = R.object lower v type depth := by
  have hbuilt : R.built lower v' type depth = R.built lower v type depth := by
    unfold Rules.built
    rw [h.typeOf_eq htypes]
    split
    · exact h.build_eq hlower htypes type _
    · rfl
  unfold Rules.object
  rw [hbuilt]
  cases hresult : R.built lower v type depth with
  | none => rfl
  | some built =>
    cases built with
    | some s => rfl
    | none =>
      -- a switch that is classified as one, or chooses, does not come out as nothing
      rcases h.gather_eq hlower htypes with ⟨fields, fields', cases, rfl, halike, hclassified⟩ | hgather
      · exfalso
        unfold Rules.built at hresult
        obtain ⟨nodeType, htype⟩ := Option.isSome_iff_exists.1 (htypes.static fields halike.hasKey_static)
        rw [htype] at hresult hclassified
        dsimp only at hresult
        rw [hlower.rules.build_eq] at hresult
        rcases htypes.object fields nodeType htype with rfl | rfl
        · obtain ⟨s, -, hs⟩ := Option.bind_eq_some_iff.1 hresult
          cases hs
        · have hchosen := hclassified.resolve_left nofun
          obtain ⟨body, hbody, hnone⟩ := Option.bind_eq_some_iff.1 hresult
          cases body with
          | some s =>
            obtain ⟨_, -, hs⟩ := Option.bind_eq_some_iff.1 hnone
            cases hs
          | none =>
            exact hlower.chooses _ _ cases type (halike.without Applicability.fieldName (by decide) (by decide)) hchosen
              (halike.typeOf_without htypes) hbody
      · simp only [hgather]

theorem Rules.unlessEmpty_of_object {s : Shape} {type : ContentType} (h : R.object lower v type depth = some (some s)) :
    s.unlessEmpty = some s := by
  have hsame := R.object_unlessEmpty lower v type depth
  rw [h] at hsame
  exact Option.some.inj hsame

/-- A switch that chooses a case gives a node. -/
theorem ChooseAlike.object_ne_none (h : ChooseAlike R.accepts gives fields fields' cases) (hrules : R.Lazy)
    (hgives : ∀ body, gives body → lower.object body .value depth ≠ some none)
    (hnonempty : ∀ v s, lower.object v .value depth = some (some s) → s.unlessEmpty = some s)
    (hchosen : (Switch.chosen? R.accepts cases).isSome) (htype : R.typeOf (.object fields) = some .switch)
    (type : ContentType) : R.object lower (.object fields) type depth ≠ some none := by
  obtain ⟨c, hc⟩ := Option.isSome_iff_exists.1 hchosen
  have hbody := hgives _ (h.gives c hc)
  have hshown : R.firstShown lower depth cases = lower.object (Switch.body c) .value depth := by
    rw [Rules.firstShown_eq fun c hc => hgives _ (h.gives c hc), hc]
  intro hnone
  unfold Rules.object Rules.built at hnone
  rw [htype] at hnone
  dsimp only at hnone
  rw [hrules.build_eq] at hnone
  obtain ⟨built, hbuilt, hnone⟩ := Option.bind_eq_some_iff.1 hnone
  obtain ⟨s, hswitch, hs⟩ := Option.bind_eq_some_iff.1 hbuilt
  cases hs
  unfold Rules.switch at hswitch
  rw [h.dynamic, h.static, if_neg Bool.false_ne_true, hrules.shown_eq] at hswitch
  obtain ⟨r, hr, hswitch⟩ := Option.bind_eq_some_iff.1 hswitch
  obtain ⟨_, -, hs⟩ := Option.bind_eq_some_iff.1 hswitch
  cases hs
  have hresult := hshown.symm.trans hr
  cases r with
  | none => exact hbody hresult
  | some s =>
    have hsome : s.unlessEmpty = none := Option.some.inj hnone
    rw [hnonempty _ s hresult] at hsome
    cases hsome

/-- Content that is not seen has no part in the outline, at any height. -/
theorem Rules.outline_blind (hrules : R.Lazy) (htypes : TypesByFields R.typeOf)
    (hgives : ∀ body, gives body → ∃ height s, (R.outline height).object body .value depth = some (some s))
    (height : Nat) : (R.outline height).Blind R gives depth := by
  have hgives' : ∀ height body, gives body → (R.outline height).object body .value depth ≠ some none := by
    intro height body hbody hnone
    obtain ⟨height', s, hs⟩ := hgives body hbody
    cases object_unique hs hnone
  induction height with
  | zero => exact ⟨hrules, fun _ _ _ _ => rfl, fun _ _ _ _ _ _ => rfl, hgives' 0, fun _ _ _ _ _ _ _ => nofun⟩
  | succ height ih =>
    refine ⟨hrules, ?_, ?_, hgives' (height + 1), ?_⟩
    · exact fun v v' type h => h.object_eq ih htypes type
    · intro v v' path g hnone h
      rcases h.gather_eq ih htypes with ⟨fields, fields', cases, rfl, halike, -⟩ | hgather
      · have hstatic := htypes.static fields halike.hasKey_static
        rw [hnone] at hstatic
        cases hstatic
      · exact hgather path g
    · intro fields fields' cases type halike hchosen htype
      refine halike.object_ne_none hrules (hgives' height) ?_ hchosen htype type
      intro v s hs
      cases height with
      | zero => cases hs
      | succ height => exact unlessEmpty_of_object hs

end

end View

end DataBound
