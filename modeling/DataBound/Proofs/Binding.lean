-- SUMMARY: An interner gives bindings of the paths that it is asked for.
import DataBound.Binding
import DataBound.Proofs.Segment
import DataBound.Proofs.Cache

/-!
# Sound interners

The bindings of an interner are kept under the tagged spelling of their path. As long as every kept binding stands
under the spelling of its own path, the binding given for a path has that path, since the spelling determines it.
-/

namespace DataBound

theorem Binding.text_of_path {b : Binding} {path : DataPath} (h : b.path = path) : b.text = path.text :=
  h ▸ b.text_eq

namespace Interner

/-- Every shared binding stands under the spelling of its own path. -/
def Sound (i : Interner) : Prop := ∀ key b, i.cache.get? key = some b → b.path.tagged = key

variable {i : Interner}

theorem sound_empty (strategy : Cache.Strategy) : (empty strategy).Sound := by
  intro key b h
  simp [empty] at h

theorem intern_of_kept {path : DataPath} {b : Binding} (h : i.cache.get? path.tagged = some b) :
    i.intern path = (b, i) := by
  rw [intern, Cache.getOrInsert_of_present h]
  rfl

theorem intern_of_new {path : DataPath} (h : i.cache.get? path.tagged = none) :
    i.intern path = (.of path i.nextSerial true,
      { i with
        cache := i.cache.insert path.tagged (.of path i.nextSerial true)
        nextSerial := i.nextSerial + 1 }) := by
  rw [intern, Cache.getOrInsert_of_absent h]
  rfl

theorem Sound.intern_path (h : i.Sound) (path : DataPath) : (i.intern path).1.path = path := by
  cases hkept : i.cache.get? path.tagged with
  | some b =>
    rw [intern_of_kept hkept]
    exact DataPath.tagged_inj (h _ b hkept)
  | none =>
    rw [intern_of_new hkept]
    rfl

theorem Sound.intern (h : i.Sound) (path : DataPath) : (i.intern path).2.Sound := by
  cases hkept : i.cache.get? path.tagged with
  | some b =>
    rw [intern_of_kept hkept]
    exact h
  | none =>
    rw [intern_of_new hkept]
    intro key b hb
    rcases Cache.get?_of_insert hb with ⟨rfl, rfl⟩ | hold
    · rfl
    · exact h key b hold

theorem Sound.standalone (h : i.Sound) (path : DataPath) : (i.standalone path).2.Sound := h

theorem Sound.derive (h : i.Sound) (b : Binding) (path : DataPath) : (i.derive b path).2.Sound := by
  unfold Interner.derive
  split
  · exact h.intern path
  · exact h.standalone path

theorem sound_clear (i : Interner) : i.clear.Sound := by
  intro key b h
  simp [clear] at h

end Interner

end DataBound
