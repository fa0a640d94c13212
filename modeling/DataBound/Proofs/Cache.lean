-- SUMMARY: A cache answers with what was put under the key last.
import DataBound.Cache

/-!
# Answers of a cache

Whatever is dropped on the way, an answer after an insertion is the inserted value or an answer from before.
-/

namespace DataBound.Cache

variable {α : Type} {cache : Cache α} {key k : String} {value v : α}

@[simp] theorem get?_empty (strategy : Strategy) : (empty strategy : Cache α).get? key = none := by
  simp [empty, get?]

@[simp] theorem get?_clear : cache.clear.get? key = none := get?_empty _

theorem getElem?_of_foldl_erase {keys : List String} {entries : Std.HashMap String α}
    (h : (keys.foldl (fun entries key => entries.erase key) entries)[k]? = some v) : entries[k]? = some v := by
  induction keys generalizing entries with
  | nil => exact h
  | cons dropped keys ih =>
    have herased := ih h
    rw [Std.HashMap.getElem?_erase] at herased
    split at herased
    · cases herased
    · exact herased

theorem get?_of_track (h : (cache.track key).get? k = some v) : cache.get? k = some v := by
  unfold track at h
  split at h
  · exact h
  · split at h
    · exact h
    · exact getElem?_of_foldl_erase h

theorem get?_of_insert (h : (cache.insert key value).get? k = some v) :
    (k = key ∧ v = value) ∨ cache.get? k = some v := by
  -- dropping the oldest keys comes after the insertion and only takes answers away
  have hfilled : ∀ {filled : Cache α}, filled.entries = cache.entries.insert key value →
      filled.get? k = some v → (k = key ∧ v = value) ∨ cache.get? k = some v := by
    intro filled hentries hget
    rw [get?, hentries, Std.HashMap.getElem?_insert] at hget
    split at hget
    · rename_i hkey
      exact .inl ⟨(beq_iff_eq.1 hkey).symm, (Option.some.inj hget).symm⟩
    · exact .inr hget
  unfold insert at h
  split at h
  · exact hfilled rfl h
  · exact hfilled rfl (get?_of_track h)

theorem insert_of_unbounded (h : cache.strategy = .unbounded) (key : String) (value : α) :
    cache.insert key value = { cache with entries := cache.entries.insert key value } := by
  unfold insert track
  simp only [h, ite_self]

/-- An unbounded cache forgets nothing. -/
theorem get?_insert_of_unbounded (h : cache.strategy = .unbounded) (key k : String) (value : α) :
    (cache.insert key value).get? k = if key = k then some value else cache.get? k := by
  rw [insert_of_unbounded h, get?, Std.HashMap.getElem?_insert]
  simp only [beq_iff_eq]
  rfl

section

variable {m : Type → Type} [Monad m]

/-- What is there is given out as it is, and the maker is left alone. -/
theorem getOrInsert_of_present (h : cache.get? key = some value) (make : m α) :
    cache.getOrInsert key make = pure (value, cache) := by
  rw [getOrInsert, h]

theorem getOrInsert_of_absent (h : cache.get? key = none) (make : m α) :
    cache.getOrInsert key make = (do let made ← make; pure (made, cache.insert key made)) := by
  rw [getOrInsert, h]

end

end DataBound.Cache
