-- SUMMARY: Building ends where the reads of its templates end, at every height from a little above the content's nesting.
import DataBound.Proofs.View.Lossless
import DataBound.Proofs.View.Standard
import DataBound.Proofs.View.Substitution

/-!
# Building ends

Every round of building goes on with content that nests less deep, and copies of templates nest no deeper than their
bodies. Two rounds do not get nearer to the ground: an object with an expression is built again without it, and the text
`template` is made a template of its own. Each of them comes once, so three levels for every container are enough. Nothing
else can keep a builder from its end but the reads of its templates.
-/

namespace DataBound

variable {σ τ γ : Type}

/-! ## Computations that end -/

/-- From every state with the property the computation ends, in a state with the property. -/
def Run.Total (I : σ → Prop) (x : Run σ τ) : Prop := ∀ s, I s → ∃ r s', x s = some (r, s') ∧ I s'

namespace Run

variable {υ : Type} {I : σ → Prop}

theorem total_pure (r : τ) : Total I (pure r : Run σ τ) := fun s hs => ⟨r, s, rfl, hs⟩

theorem total_bind {x : Run σ τ} {f : τ → Run σ υ} (hx : Total I x) (hf : ∀ r, Total I (f r)) : Total I (x >>= f) := by
  intro s hs
  obtain ⟨r, s', hr, hs'⟩ := hx s hs
  obtain ⟨r', s'', hr', hs''⟩ := hf r s' hs'
  exact ⟨r', s'', Option.bind_eq_some_iff.2 ⟨_, hr, hr'⟩, hs''⟩

theorem total_foldlM {f : τ → γ → Run σ τ} {items : List γ} (h : ∀ item ∈ items, ∀ t, Total I (f t item)) (t : τ) :
    Total I (items.foldlM f t) := by
  induction items generalizing t with
  | nil => exact total_pure t
  | cons item rest ih =>
    rw [List.foldlM_cons]
    exact total_bind (h item List.mem_cons_self t) (ih fun item' hmem => h item' (List.mem_cons_of_mem _ hmem))

theorem total_filterMapM {f : γ → Run σ (Option τ)} {items : List γ} (h : ∀ item ∈ items, Total I (f item)) :
    Total I (items.filterMapM f) := by
  induction items with
  | nil => exact total_pure []
  | cons item rest ih =>
    rw [List.filterMapM_cons]
    apply total_bind (h item List.mem_cons_self)
    have hrest := ih fun item' hmem => h item' (List.mem_cons_of_mem _ hmem)
    intro r
    cases r with
    | none => exact hrest
    | some t => exact total_bind hrest fun _ => total_pure _

end Run

namespace View

open Run

/-! ## Rounds -/

/-- A bound for the rounds of building that are left: three for a container, one for an expression, and two for a text. -/
def rounds : Value → Nat
  | .object fields => 3 * (Value.object fields).nesting + if Fields.hasKey fields Applicability.fieldName then 1 else 0
  | .string _ => 2
  | v => 3 * v.nesting

theorem rounds_le (v : Value) : rounds v ≤ 3 * v.nesting + 2 := by
  cases v with
  | object fields =>
    rw [rounds]
    split <;> omega
  | _ => simp [rounds]

theorem nesting_le_rounds (v : Value) : 3 * v.nesting ≤ rounds v := by
  cases v <;> simp [rounds, Value.nesting]

theorem nesting_withoutField_le (key : String) (fields : Fields) :
    (withoutField key fields).nesting ≤ (Value.object fields).nesting :=
  Nat.succ_le_succ (fieldsNesting_le fun _ hmem => nesting_le_fieldsNesting (List.mem_of_mem_filter hmem))

/-- An object without its expression takes no round for it. -/
theorem rounds_withoutField (fields : Fields) :
    rounds (withoutField Applicability.fieldName fields) ≤ 3 * (Value.object fields).nesting := by
  have hle := nesting_withoutField_le Applicability.fieldName fields
  have hkey : Fields.hasKey (fields.without Applicability.fieldName) Applicability.fieldName = false := by
    rw [Fields.hasKey, Fields.find?_without_self]
    rfl
  rw [withoutField] at hle ⊢
  rw [rounds, hkey, if_neg Bool.false_ne_true]
  omega

theorem nesting_lt_of_find? {key : String} {fields : Fields} {v : Value} (h : Fields.find? key fields = some v) :
    v.nesting < (Value.object fields).nesting :=
  Nat.lt_succ_of_le (nesting_le_fieldsNesting (Fields.mem_of_find? h))

/-- A case nests two levels less deep than the switch. -/
theorem nesting_of_mem_caseItems {key : String} {fields : Fields} {c : Value}
    (h : c ∈ caseItems (Fields.find? key fields)) : c.nesting + 2 ≤ (Value.object fields).nesting := by
  unfold caseItems at h
  cases hfind : Fields.find? key fields with
  | none =>
    rw [hfind] at h
    cases h
  | some list =>
    rw [hfind] at h
    have hlist := nesting_lt_of_find? hfind
    cases list with
    | array items =>
      have hitem : c.nesting ≤ itemsNesting items := nesting_le_itemsNesting h
      have hitems : itemsNesting items + 1 < (Value.object fields).nesting := hlist
      omega
    | _ => cases h

/-! ## Levels -/

variable {I : σ → Prop} {R : Rules (Run σ)}

/-- Reads end, and so does what is done before classified content is built. -/
structure Rules.Total (R : Rules (Run σ)) (I : σ → Prop) : Prop where
  read (data : String) : Run.Total I (R.read data)
  heed (v : Value) (depth : Nat) : Run.Total I (R.heed v depth)
  taps : R.taps = ∅
  complete : R.skips = false
  applicability (fields : Fields) :
    R.typeOf (.object fields) = some .applicability → Fields.hasKey fields Applicability.fieldName = true

/-- What does not take more rounds than there are levels ends. -/
structure Outline.Total (lower : Outline (Run σ)) (I : σ → Prop) (height : Nat) : Prop where
  object (v : Value) (type : ContentType) (depth : Nat) : rounds v < height → Run.Total I (lower.object v type depth)
  copies (data : String) (depth : Nat) : 1 < height → Run.Total I (lower.copies data .null depth)
  gather (v : Value) (depth : Nat) (path : DataPath) (g : Sketch) :
    3 * v.nesting < height → Run.Total I (lower.gather v depth path g)
  alive : 0 < height → Run.Total I lower.alive

section

variable {lower : Outline (Run σ)} {height : Nat} (hlower : lower.Total I height)

include hlower

theorem Outline.Total.object_of_nesting {v : Value} (h : 3 * v.nesting + 2 < height) (type : ContentType) (depth : Nat) :
    Run.Total I (lower.object v type depth) :=
  hlower.object v type depth (Nat.lt_of_le_of_lt (rounds_le v) h)

theorem Outline.Total.case {c : Value} (h : 3 * c.nesting + 2 < height) (depth : Nat) :
    Run.Total I (lower.case depth c) := by
  cases c with
  | object fields =>
    have hle := nesting_withoutField_le Switch.conditionField fields
    exact total_bind (hlower.object_of_nesting (by omega) .value depth) fun _ => total_pure _
  | _ => exact total_pure none

variable (hrules : R.Total I)

include hrules

theorem Rules.switch_total {fields : Fields} (h : 3 * (Value.object fields).nesting ≤ height) (depth : Nat) :
    Run.Total I (R.switch lower depth fields) := by
  have hcases : ∀ key, Run.Total I ((caseItems (Fields.find? key fields)).filterMapM (lower.case depth)) := by
    intro key
    apply total_filterMapM
    intro c hc
    have hnesting := nesting_of_mem_caseItems hc
    exact hlower.case (by omega) depth
  have halive : Run.Total I lower.alive := hlower.alive (Nat.lt_of_lt_of_le (by simp [Value.nesting]) h)
  unfold switch
  split
  · exact total_bind (hcases _) fun _ => total_bind halive fun _ => total_pure _
  · refine total_bind ?_ fun _ => total_bind halive fun _ => total_pure _
    unfold shown firstFound
    rw [hrules.complete, if_neg Bool.false_ne_true]
    exact total_bind (hcases _) fun _ => total_pure _

theorem Rules.build_total {v : Value} (h : 3 * v.nesting ≤ height) (type : ContentType) (depth : Nat)
    {nodeType : NodeType}
    (hexpression : ∀ fields, v = .object fields → nodeType = .applicability → 3 * v.nesting < height)
    (htext : ∀ text, v = .string text → 1 < height) : Run.Total I (R.build lower v type depth nodeType) := by
  apply total_bind (hrules.heed v depth)
  intro _
  unfold make
  split
  · rename_i fields
    have hheight := hexpression fields rfl rfl
    apply total_bind (hlower.object _ type depth (Nat.lt_of_le_of_lt (rounds_withoutField fields) hheight))
    intro r
    cases r with
    | none => exact total_pure none
    | some s => exact total_bind (hlower.alive (Nat.zero_lt_of_lt hheight)) fun _ => total_pure _
  · exact total_bind (switch_total hlower hrules h depth) fun _ => total_pure _
  · exact hlower.copies "" depth (htext _ rfl)
  · exact total_pure none

theorem Rules.copies_total {body : Value} {depth : Nat}
    (hbody : ∀ item copy, Template.copy? ∅ body item = some copy → rounds copy < height) (data : String) :
    Run.Total I (R.copies lower data body depth) := by
  apply total_bind (hrules.read data)
  intro r
  split
  · refine total_bind (total_filterMapM ?_) fun _ => total_pure _
    rintro ⟨item, index⟩ _
    dsimp only
    rw [hrules.taps]
    split
    · rename_i copy hcopy
      exact hlower.object copy .value (depth + 1) (hbody _ copy hcopy)
    · exact total_pure none
  · exact total_pure none

theorem Rules.template_total {descriptor : Value} (h : 3 * descriptor.nesting + 2 < height) (depth : Nat)
    (path : DataPath) (g : Sketch) : Run.Total I (R.template lower depth path g descriptor) := by
  unfold template
  split
  · exact total_pure g
  · refine total_bind ?_ fun _ => total_pure _
    unfold expanded
    split
    · exact total_pure _
    · apply copies_total hlower hrules
      intro item copy hcopy
      have hcopied := Template.nesting_le_of_copy? hcopy
      have hbody : ((descriptor.field? "value").getD .null).nesting ≤ descriptor.nesting := by
        cases descriptor with
        | object fields =>
          cases hfind : Fields.find? "value" fields with
          | none => simp [Value.field?, hfind, Value.nesting]
          | some body => simpa [Value.field?, hfind] using Nat.le_of_lt (nesting_lt_of_find? hfind)
        | _ => exact Nat.zero_le _
      have hrounds := rounds_le copy
      omega

theorem Rules.entry_total {v : Value} (h : 3 * v.nesting + 2 < height) (around : Value) (depth : Nat) (path : DataPath)
    (g : Sketch) (key : Segment) : Run.Total I (R.entry lower around depth path g key v) := by
  have hitems : ∀ item ∈ v.asArray.getD [], 3 * item.nesting + 2 < height := by
    intro item hmem
    cases v with
    | array items =>
      have hitem : item.nesting ≤ itemsNesting items := nesting_le_itemsNesting hmem
      rw [Value.nesting] at h
      omega
    | _ => cases hmem
  have hbuild : ∀ nodeType, Run.Total I (R.build lower v .value depth nodeType) := fun nodeType =>
    build_total hlower hrules (by omega) .value depth (fun _ _ _ => by omega) fun _ _ => by omega
  unfold entry
  dsimp only
  split
  · exact total_bind (hlower.object_of_nesting h .asset depth) fun _ => total_pure _
  split
  · exact total_foldlM (fun descriptor hmem g => template_total hlower hrules (hitems descriptor hmem) depth path g) g
  split
  · exact total_bind (hbuild .switch) fun _ => total_pure _
  split
  · rename_i fields _ _ _
    split
    · have hle := nesting_withoutField_le "async" fields
      refine total_bind (total_bind (hlower.object_of_nesting ?_ .value depth) fun _ => total_pure _) fun _ => total_pure _
      omega
    split
    · exact total_bind (hbuild .applicability) fun _ => total_pure _
    · exact hlower.gather _ depth _ g (by omega)
  · exact total_bind (total_filterMapM fun item hmem => hlower.object_of_nesting (hitems item hmem) .value depth)
      fun _ => total_pure _
  · exact total_pure _

theorem Rules.gather_total {v : Value} (h : 3 * v.nesting ≤ height) (depth : Nat) (path : DataPath) (g : Sketch) :
    Run.Total I (R.gather lower v depth path g) := by
  unfold gather
  split
  · exact total_pure _
  · apply total_foldlM
    intro entry hmem g
    have hnesting := nesting_lt_of_mem_entries hmem
    exact entry_total hlower hrules (by omega) v depth path g entry.1

theorem Rules.object_total {v : Value} (h : rounds v ≤ height) (type : ContentType) (depth : Nat) :
    Run.Total I (R.object lower v type depth) := by
  have hnesting : 3 * v.nesting ≤ height := Nat.le_trans (nesting_le_rounds v) h
  apply total_bind
  · unfold built
    split
    · rename_i nodeType htype
      apply build_total hlower hrules hnesting type depth
      · rintro fields rfl rfl
        rw [rounds, hrules.applicability fields htype] at h
        exact h
      · rintro text rfl
        exact h
    · exact total_pure none
  · intro r
    cases r with
    | some s => exact total_pure _
    | none => exact total_bind (gather_total hlower hrules hnesting depth [] .empty) fun _ => total_pure _

end

theorem Rules.outline_total (hrules : R.Total I) (height : Nat) : (R.outline height).Total I height := by
  induction height with
  | zero => exact ⟨fun _ _ _ => nofun, fun _ _ => nofun, fun _ _ _ _ => nofun, nofun⟩
  | succ height ih =>
    refine ⟨?_, ?_, ?_, fun _ => total_pure ()⟩
    · exact fun v type depth h => object_total ih hrules (Nat.le_of_lt_succ h) type depth
    · intro data depth h
      apply copies_total ih hrules
      intro item copy hcopy
      rw [Template.copy?_eq] at hcopy
      cases hcopy
      exact Nat.lt_of_succ_lt_succ h
    · exact fun v depth path g h => gather_total ih hrules (Nat.le_of_lt_succ h) depth path g

/-! ## The builder -/

theorem Rules.standard_total {exts : List (Extension (Binder.State σ))} {host : Host σ} {limit : Nat}
    {document : σ → Value} {accepts : Value → Bool} (hreads : ∀ raw, Run.Total I (Binder.read host limit document raw)) :
    (standard exts host limit document accepts).Total I where
  read := hreads
  heed _ _ := total_pure ()
  taps := rfl
  complete := rfl
  applicability _ h := ((Hooks.type_of_typeOf_object h).resolve_left nofun).2

namespace Hooks

variable {w : Type} {stands : w → σ → Prop} {hooks : Hooks w} {exts : List (Extension w)} {world : w} {h : σ} {v : Value}
  {n : Nat}

/-- Where reads end, content is built at every height of a little more than three times its nesting. -/
theorem buildObject_terminates (hgovern : R.Govern stands hooks exts) (hrules : R.Total I) (hover : stands world h) (hh : I h)
    (hn : 3 * v.nesting + 2 < n) (type : ContentType) (depth : Nat) :
    ∃ r last h', hooks.buildObject n v type depth world = some (r, last) ∧ stands last h' ∧ I h' := by
  obtain ⟨t, h', houtline, hh'⟩ := (Rules.outline_total hrules n).object_of_nesting hn type depth h hh
  have hrel := buildObject_outline hgovern hover n v type depth
  rw [houtline] at hrel
  obtain ⟨⟨r, last⟩, hbuilt, hover', -⟩ := exists_of_rel_right hrel
  exact ⟨r, last, h', hbuilt, hover', hh'⟩

theorem buildView_terminates (hgovern : R.Govern stands hooks exts) (hrules : R.Total I) (hover : stands world h) (hh : I h)
    (hn : 3 * v.nesting + 2 < n) (depth : Nat) :
    ∃ r last h', (hooks.buildView n v depth).Ends world r last ∧ stands last h' ∧ I h' := by
  cases hv : v.isObject with
  | false =>
    refine ⟨.error (.unusableView .notAnObject), world, h, ?_, hover, hh⟩
    unfold buildView
    rw [hv]
    exact rfl
  | true =>
    obtain ⟨heed, hheeds, -⟩ := hgovern.heeds
    obtain ⟨r, last, h', hbuilt, hover', hh'⟩ := buildObject_terminates hgovern hrules hover hh hn .view depth
    refine ⟨usable r, last, h', ?_, hover', hh'⟩
    unfold Action.Ends
    rw [buildView_run hheeds.onView n hv, hbuilt]
    rfl

end Hooks

end View

end DataBound
