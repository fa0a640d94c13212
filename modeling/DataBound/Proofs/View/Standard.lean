-- SUMMARY: The standard extensions over a document: what they classify, and the rules by which they build.
import DataBound.Proofs.Binder.Forgetting
import DataBound.Proofs.View.Drawing
import DataBound.Proofs.View.Unseen

/-!
# The standard extensions

The three extensions over a document: applicability, switches whose conditions are decided by themselves, and templates
whose data is read through a binder. Each of them classifies content by keys of its own, so the order in which they are
asked matters only where an object has keys of two of them. A binder keeps caches, but they have no part in what is read
if the host goes by paths. So the rules by which these extensions build are rules over the state of the host alone.
-/

namespace DataBound.View

variable {w σ : Type}

/-- The standard extensions over a document: conditions are decided by themselves, and the data of templates is read
through a binder of the host. -/
def Extension.standard (host : Host σ) (limit : Nat) (document : σ → Value) (accepts : Value → Bool) :
    List (Extension (Binder.State σ)) :=
  [.applicability, .switch fun v => pure (accepts v), .template ((Binder.ofHost host).valueAt? limit document) ∅]

namespace Hooks

section

variable {exts : List (Extension w)}

/-! ## Types -/

theorem typeOf_eq (exts : List (Extension w)) (v : Value) :
    (ofExtensions exts).typeOf v = exts.findSome? fun e => e.classify v := by
  have hfirst : ∀ es : List (Extension w),
      Hook.firstAnswer (m := Id) (fun classify => pure (classify v)) (es.map fun e => ⟨e.name, e.classify⟩) =
        pure (es.findSome? fun e => e.classify v) := by
    intro es
    induction es with
    | nil => rfl
    | cons e rest ih =>
      rw [List.map_cons, Hook.firstAnswer, List.findSome?_cons, pure_bind]
      dsimp only
      cases e.classify v with
      | none => exact ih
      | some type => rfl
  unfold typeOf Hook.bail
  rw [ofExtensions_classify]
  exact hfirst exts

theorem classify_applicability (fields : Fields) : (Extension.applicability : Extension w).classify (.object fields) =
    if Fields.hasKey fields Applicability.fieldName then some .applicability else none := rfl

theorem classify_switch (accepts : Value → Run w Bool) (fields : Fields) :
    (Extension.switch accepts).classify (.object fields) =
      if Fields.hasKey fields Switch.staticField || Fields.hasKey fields Switch.dynamicField then some .switch
      else none := rfl

/-- A static switch is classified, though perhaps not as a switch. -/
theorem isSome_typeOf_of_static {accepts : Value → Run w Bool} (hmem : .switch accepts ∈ exts) {fields : Fields}
    (hkey : Fields.hasKey fields Switch.staticField) : ((ofExtensions exts).typeOf (.object fields)).isSome := by
  rw [typeOf_eq, List.findSome?_isSome_iff]
  refine ⟨_, hmem, ?_⟩
  rw [classify_switch, hkey]
  rfl

theorem type_of_typeOf_object {fields : Fields} {type : NodeType}
    (h : (ofExtensions exts).typeOf (.object fields) = some type) :
    type = .switch ∨ type = .applicability ∧ Fields.hasKey fields Applicability.fieldName = true := by
  obtain ⟨e, -, hclassify⟩ := exists_classify_of_typeOf h
  cases e with
  | applicability =>
    rw [classify_applicability] at hclassify
    split at hclassify
    · rename_i hkey
      cases hclassify
      exact .inr ⟨rfl, hkey⟩
    · cases hclassify
  | switch accepts =>
    rw [classify_switch] at hclassify
    split at hclassify
    · cases hclassify
      exact .inl rfl
    · cases hclassify
  | template read taps => cases hclassify

theorem typeOf_object_eq {fields fields' : Fields}
    (h : ∀ key ∈ [Applicability.fieldName, Switch.staticField, Switch.dynamicField],
      Fields.hasKey fields key = Fields.hasKey fields' key) :
    (ofExtensions exts).typeOf (.object fields) = (ofExtensions exts).typeOf (.object fields') := by
  have happlicability := h Applicability.fieldName (by simp)
  have hswitch := h Switch.staticField (by simp)
  have hdynamic := h Switch.dynamicField (by simp)
  rw [typeOf_eq, typeOf_eq]
  congr 1
  funext e
  cases e with
  | applicability => rw [classify_applicability, classify_applicability, happlicability]
  | switch accepts => rw [classify_switch, classify_switch, hswitch, hdynamic]
  | template read taps => rfl

/-- The standard extensions classify objects by their fields, and strings as the name of the list of templates. -/
theorem typesByFields {accepts : Value → Run w Bool} (hmem : .switch accepts ∈ exts) :
    TypesByFields (ofExtensions exts).typeOf where
  array items := by
    rw [typeOf_eq, List.findSome?_eq_none_iff]
    intro e _
    cases e <;> rfl
  template name h := Value.string.inj (template_of_typeOf h).1
  object fields type h := (type_of_typeOf_object h).imp_right And.left
  fields fields fields' h := typeOf_object_eq h
  static fields hkey := isSome_typeOf_of_static hmem hkey
  switch fields hkey hno := by
    obtain ⟨type, htype⟩ := Option.isSome_iff_exists.1 (isSome_typeOf_of_static hmem hkey)
    rcases type_of_typeOf_object htype with rfl | ⟨-, happlicability⟩
    · exact htype
    · rw [hno] at happlicability
      cases happlicability

/-- The name of the list of templates is classified as a template itself. -/
theorem typeOf_word {read : String → Run w (Option Value)} {taps : Hook SubstitutionTap}
    (hmem : .template read taps ∈ exts) : (ofExtensions exts).typeOf (.string "template") = some .template := by
  have hsome : ((ofExtensions exts).typeOf (.string "template")).isSome := by
    rw [typeOf_eq, List.findSome?_isSome_iff]
    exact ⟨_, hmem, rfl⟩
  obtain ⟨type, htype⟩ := Option.isSome_iff_exists.1 hsome
  obtain ⟨e, -, hclassify⟩ := exists_classify_of_typeOf htype
  rw [htype]
  cases e <;> cases hclassify
  rfl

end

end Hooks

/-! ## Rules -/

/-- The rules of the standard extensions, asked in some order. -/
def Rules.standard (exts : List (Extension (Binder.State σ))) (host : Host σ) (limit : Nat) (document : σ → Value)
    (accepts : Value → Bool) : Rules (Run σ) where
  typeOf := (Hooks.ofExtensions exts).typeOf
  accepts := accepts
  read := Binder.read host limit document
  taps := ∅
  heed _ _ := pure ()
  skips := false

section

variable {host : Host σ} {limit : Nat} {document : σ → Value} {accepts : Value → Bool}
  {exts : List (Extension (Binder.State σ))}

/-- A builder with some of the standard extensions, each of them once, goes by their rules as well. -/
theorem Rules.standard_govern_of_subset (hdistinct : (exts.map Extension.type).Nodup)
    (hexts : exts ⊆ Extension.standard host limit document accepts) (hpaths : host.GoesByPaths) :
    (standard exts host limit document accepts).Govern (fun s world => s.Over world) (Hooks.ofExtensions exts)
      exts where
  distinct := hdistinct
  typeOf := rfl
  obeys e he := by
    have hmem := hexts he
    simp only [Extension.standard, List.mem_cons, List.not_mem_nil, or_false] at hmem
    rcases hmem with rfl | rfl | rfl
    · trivial
    · exact fun _ => rfl
    · exact ⟨rfl, fun raw s world hs => Binder.valueAt?_read hpaths limit document raw hs⟩
  heeds := ⟨_, Hooks.ofExtensions_heeds exts, fun _ _ _ _ hs => .some ⟨hs, rfl⟩⟩
  complete := rfl

variable (hexts : exts.Perm (Extension.standard host limit document accepts))

include hexts

theorem Rules.standard_typesByFields : TypesByFields (standard exts host limit document accepts).typeOf := by
  have hmem : .switch (fun v => pure (accepts v)) ∈ exts := hexts.mem_iff.2 (by simp [Extension.standard])
  exact Hooks.typesByFields hmem

theorem Rules.standard_typeOf_word :
    (standard exts host limit document accepts).typeOf (.string "template") = some .template := by
  have hmem : .template ((Binder.ofHost host).valueAt? limit document) ∅ ∈ exts :=
    hexts.mem_iff.2 (by simp [Extension.standard])
  exact Hooks.typeOf_word hmem

/-- A builder with the standard extensions goes by their rules, whatever its binder keeps. -/
theorem Rules.standard_govern (hpaths : host.GoesByPaths) :
    (standard exts host limit document accepts).Govern (fun s world => s.Over world) (Hooks.ofExtensions exts)
      exts := by
  refine standard_govern_of_subset ?_ hexts.subset hpaths
  have htypes : (Extension.standard host limit document accepts).map Extension.type =
      [.applicability, .switch, .template] := rfl
  rw [(hexts.map Extension.type).nodup_iff, htypes]
  decide

end

end DataBound.View
