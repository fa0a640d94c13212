-- SUMMARY: In trees built over a document that is only read, every node has the node that lists it as its parent.
import DataBound.Proofs.Binder.ReadOnly
import DataBound.Proofs.View.Building

/-!
# Parents in built trees

Parents are written when a node is placed, and some nodes are placed more than once. The only nodes that are listed
without being placed are the copies of a template that stands for content itself; such a template names no data, so it
has copies only if the whole document is an array.
-/

namespace DataBound.View

/-- A standard extension over a document: conditions are decided by themselves, the data of templates is read through a
binder of the host, and nothing changes the replacements. -/
inductive Extension.IsOver (host : Host Value) : Extension (Binder.State Value) → Prop
  | applicability : IsOver host .applicability
  | switch (accepts : Value → Bool) : IsOver host (.switch fun v => pure (accepts v))
  | template (limit : Nat) : IsOver host (.template ((Binder.ofHost host).valueAt? limit id) ∅)

theorem Extension.IsOver.keeps {host : Host Value} (hhost : host.OnlyReads) {document : Value}
    (hdocument : document.isArray = false) {e : Extension (Binder.State Value)} (h : e.IsOver host) :
    e.Keeps (Binder.State.Over document) True := by
  cases h with
  | applicability => trivial
  | switch accepts =>
    rintro v world _ _ hworld ⟨⟩
    exact hworld
  | template limit =>
    intro raw world r world' hworld hread
    obtain ⟨hworld', hempty⟩ := Binder.valueAt?_over hhost hworld hread
    refine ⟨hworld', ?_⟩
    rintro - hraw items rfl
    have hread : Value.array items = document := hempty hraw _ rfl
    rw [← hread] at hdocument
    cases hdocument

namespace Hooks

/-- Whatever the content, the conditions and the extensions in use, over a document that is only read and is no array:
in a tree that is built, parents are right, and every way up ends by itself, from reachable nodes at the root. -/
theorem wellLinked_of_builds {host : Host Value} (hhost : host.OnlyReads) {exts : List (Extension (Binder.State Value))}
    (hexts : ∀ e ∈ exts, e.IsOver host) {s : Binder.State Value} (hs : s.Sound) (hdocument : s.host.isArray = false)
    {content : Value} {tree : Tree} (h : (ofExtensions exts).Builds s content tree) : tree.WellLinked := by
  have hkeeps : ∀ e ∈ exts, e.Keeps (Binder.State.Over s.host) True := fun e he => (hexts e he).keeps hhost hdocument
  exact (h.grown hkeeps ⟨hs, rfl⟩).wellLinked

/-- A view with a chosen dynamic switch, which adopts its cases twice, a condition around a placeholder, and a template
that stays. -/
theorem wellLinked_of_builds_sample :
    let host : Host Value := { Host.ofDocument id fun document _ => document with readOnly := true }
    let exts : List (Extension (Binder.State Value)) :=
      [.applicability, .switch fun v => pure v.isTruthy, .template ((Binder.ofHost host).valueAt? 4 id) ∅]
    let s : Binder.State Value := .start .unbounded (.object [("items", .array [.null, .null])])
    let inner : Value := .object [("case", .string "c"), ("asset", .object [("id", .string "a")])]
    let content : Value := .object [
      ("id", .string "v"),
      ("title", .object [("staticSwitch", .array [.object [("case", .bool true), ("dynamicSwitch", .array [inner])]])]),
      ("notes", .array [.object [("applicability", .string "shown"),
        ("later", .object [("async", .bool true), ("id", .string "n")])]]),
      ("template", .array [.object [("data", .string "items"), ("output", .string "values"), ("dynamic", .bool true)]])]
    host.OnlyReads ∧ (∀ e ∈ exts, e.IsOver host) ∧ s.Sound ∧ s.host.isArray = false ∧
      ∃ tree : Tree, (ofExtensions exts).Builds s content tree ∧ tree.WellLinked := by
  intro host exts s inner content
  have hhost : host.OnlyReads := Host.ofDocument_onlyReads _ _
  have hexts : ∀ e ∈ exts, e.IsOver host := by
    intro e he
    rcases List.mem_cons.1 he with rfl | he
    · exact .applicability
    rcases List.mem_cons.1 he with rfl | he
    · exact .switch Value.isTruthy
    obtain rfl := List.mem_singleton.1 he
    exact .template 4
  have hs : s.Sound := Binder.State.sound_start _ _
  have hbuilt : (((ofExtensions exts).buildObject 16 content .view 0 s).bind Prod.fst).isSome = true := by
    decide +kernel
  obtain ⟨tree, htree⟩ := Option.isSome_iff_exists.1 hbuilt
  obtain ⟨⟨result, world⟩, hrun, rfl⟩ := Option.bind_eq_some_iff.1 htree
  exact ⟨hhost, hexts, hs, rfl, tree, .object hrun, wellLinked_of_builds hhost hexts hs rfl (.object hrun)⟩

end Hooks

end DataBound.View
