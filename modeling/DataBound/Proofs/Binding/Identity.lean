-- SUMMARY: As long as an interner forgets nothing, equal paths are one binding and other paths are other ones.
import DataBound.Proofs.Binding

/-!
# Identities that an interner gives out

An unbounded interner that is neither cleared nor retired is asked for paths, and its bindings for their parents and
descendants, in any order. What it keeps is then exactly what it gave out: it stands under the spelling of
its path, and no serial number was given out twice. So two of these bindings are one if and only if they have one path.
-/

namespace DataBound

namespace Interner

/-- The bindings that an unbounded interner gave out, and what became of it: it is asked for paths, and the
bindings for their parents and descendants. -/
inductive Gave : Interner → List Binding → Prop
  | start : Gave (empty .unbounded) []
  | intern {i : Interner} {given : List Binding} (path : DataPath) :
      Gave i given → Gave (i.intern path).2 ((i.intern path).1 :: given)
  | parent {i : Interner} {given : List Binding} {b : Binding} :
      Gave i given → b ∈ given → Gave (i.parent b).2 ((i.parent b).1 :: given)
  | descend {i : Interner} {given : List Binding} {b : Binding} (below : DataPath) :
      Gave i given → b ∈ given → Gave (i.descend b below).2 ((i.descend b below).1 :: given)

/-- The interner keeps what it gave out, each binding with a serial number of its own. -/
structure Canonical (i : Interner) (given : List Binding) : Prop where
  unbounded : i.cache.strategy = .unbounded
  alive : i.retired = false
  kept : ∀ key b, i.cache.get? key = some b ↔ b ∈ given ∧ b.path.tagged = key
  interned : ∀ b ∈ given, b.interned = true
  serial_lt : ∀ b ∈ given, b.serial < i.nextSerial
  serial_inj : ∀ b ∈ given, ∀ b' ∈ given, b.serial = b'.serial → b = b'

variable {i : Interner} {given : List Binding} {b b' : Binding}

theorem canonical_start : (empty .unbounded).Canonical [] where
  unbounded := rfl
  alive := rfl
  kept key b := by simp [empty]
  interned _ hb := nomatch hb
  serial_lt _ hb := nomatch hb
  serial_inj _ hb := nomatch hb

/-- A binding under a path without one gets the next serial number and stands under that path from now on. -/
theorem Canonical.insert (h : i.Canonical given) {path : DataPath} (hnone : i.cache.get? path.tagged = none) :
    Canonical { i with
        cache := i.cache.insert path.tagged (.of path i.nextSerial true)
        nextSerial := i.nextSerial + 1 }
      (.of path i.nextSerial true :: given) where
  unbounded := by
    rw [Cache.insert_of_unbounded h.unbounded]
    exact h.unbounded
  alive := h.alive
  kept key c := by
    rw [Cache.get?_insert_of_unbounded h.unbounded, List.mem_cons]
    split
    · rename_i hkey
      constructor
      · intro hc
        cases hc
        exact ⟨.inl rfl, hkey⟩
      · rintro ⟨rfl | hc, hpath⟩
        · rfl
        · rw [hkey, (h.kept key c).2 ⟨hc, hpath⟩] at hnone
          cases hnone
    · rename_i hkey
      rw [h.kept]
      constructor
      · rintro ⟨hc, hpath⟩
        exact ⟨.inr hc, hpath⟩
      · rintro ⟨rfl | hc, hpath⟩
        · exact absurd hpath hkey
        · exact ⟨hc, hpath⟩
  interned c hc := by
    rcases List.mem_cons.1 hc with rfl | hc
    · rfl
    · exact h.interned c hc
  serial_lt c hc := by
    rcases List.mem_cons.1 hc with rfl | hc
    · exact Nat.lt_succ_self _
    · exact Nat.lt_succ_of_lt (h.serial_lt c hc)
  serial_inj c hc c' hc' hserial := by
    rcases List.mem_cons.1 hc with rfl | hc <;> rcases List.mem_cons.1 hc' with rfl | hc'
    · rfl
    · exact absurd (h.serial_lt c' hc') (hserial ▸ Nat.lt_irrefl _)
    · exact absurd (h.serial_lt c hc) (hserial ▸ Nat.lt_irrefl _)
    · exact h.serial_inj c hc c' hc' hserial

/-- Giving out once more what was given out before changes nothing. -/
theorem Canonical.again (h : i.Canonical given) (hb : b ∈ given) : i.Canonical (b :: given) := by
  have hold : ∀ {c : Binding}, c ∈ b :: given → c ∈ given := by
    intro c hc
    rcases List.mem_cons.1 hc with rfl | hc
    · exact hb
    · exact hc
  refine ⟨h.unbounded, h.alive, ?_, ?_, ?_, ?_⟩
  · intro key c
    rw [h.kept]
    exact ⟨fun hc => ⟨List.mem_cons_of_mem _ hc.1, hc.2⟩, fun hc => ⟨hold hc.1, hc.2⟩⟩
  · exact fun c hc => h.interned c (hold hc)
  · exact fun c hc => h.serial_lt c (hold hc)
  · exact fun c hc c' hc' => h.serial_inj c (hold hc) c' (hold hc')

theorem Canonical.intern (h : i.Canonical given) (path : DataPath) :
    (i.intern path).2.Canonical ((i.intern path).1 :: given) := by
  cases hkept : i.cache.get? path.tagged with
  | some b =>
    rw [intern_of_kept hkept]
    exact h.again ((h.kept _ b).1 hkept).1
  | none =>
    rw [intern_of_new hkept]
    exact h.insert hkept

/-- A binding that was given out leads to others through the interner. -/
theorem Canonical.derive_eq (h : i.Canonical given) (hb : b ∈ given) (path : DataPath) :
    i.derive b path = i.intern path := by
  rw [derive, if_pos ⟨h.interned b hb, by simp [h.alive]⟩]

/-- What was given out is kept under its path, so that path leads back to it. -/
theorem Canonical.intern_eq (h : i.Canonical given) (hb : b ∈ given) : i.intern b.path = (b, i) :=
  intern_of_kept ((h.kept _ b).2 ⟨hb, rfl⟩)

theorem Gave.canonical (h : i.Gave given) : i.Canonical given := by
  induction h with
  | start => exact canonical_start
  | intern path _ ih => exact ih.intern path
  | parent _ hb ih =>
    rw [Interner.parent, ih.derive_eq hb]
    exact ih.intern _
  | descend below _ hb ih =>
    rw [Interner.descend, ih.derive_eq hb]
    exact ih.intern _

/-- Bindings that were given out are one if and only if they have one path. -/
theorem Canonical.same_iff (h : i.Canonical given) (hb : b ∈ given) (hb' : b' ∈ given) :
    b.same b' = true ↔ b.path = b'.path := by
  rw [Binding.same, beq_iff_eq]
  constructor
  · intro hserial
    rw [h.serial_inj b hb b' hb' hserial]
  · intro hpath
    have hkept := (h.kept _ b).2 ⟨hb, rfl⟩
    rw [hpath, (h.kept _ b').2 ⟨hb', rfl⟩] at hkept
    rw [Option.some.inj hkept]

/-- One step down and up again leads to the very same binding. -/
theorem Canonical.parent_descend (h : i.Canonical given) (hb : b ∈ given) (s : Segment) :
    ((i.descend b [s]).2.parent (i.descend b [s]).1).1 = b := by
  rw [descend, h.derive_eq hb]
  have hnext := h.intern (b.path.descend [s])
  have hpath : (i.intern (b.path.descend [s])).1.path.parent = b.path := by
    have hsound : i.Sound := fun key c hc => ((h.kept key c).1 hc).2
    rw [hsound.intern_path, DataPath.descend, DataPath.parent, List.dropLast_concat]
  rw [parent, hnext.derive_eq List.mem_cons_self, hpath, hnext.intern_eq (List.mem_cons_of_mem _ hb)]

/-- Two of the bindings are one if and only if they have one path, and one step down and up again leads each of them
back to itself. -/
def Identifies (i : Interner) (given : List Binding) : Prop :=
  ∀ b ∈ given, (∀ b' ∈ given, b.same b' = true ↔ b.path = b'.path) ∧
    ∀ s, ((i.descend b [s]).2.parent (i.descend b [s]).1).1 = b

theorem Canonical.identifies (h : i.Canonical given) : i.Identifies given := by
  intro b hb
  refine ⟨fun b' hb' => h.same_iff hb hb', ?_⟩
  intro s
  exact h.parent_descend hb s

/-- A binding leads to a binding of the path that it is asked for, whatever is kept. -/
theorem Sound.derive_path (h : i.Sound) (b : Binding) (path : DataPath) : (i.derive b path).1.path = path := by
  unfold Interner.derive
  split
  · exact h.intern_path path
  · rfl

/-! ## Bindings that stay -/

/-- The interner drops nothing, and has the binding for its path. -/
structure Holds (i : Interner) (b : Binding) : Prop where
  unbounded : i.cache.strategy = .unbounded
  kept : i.cache.get? b.path.tagged = some b

theorem Holds.intern_eq (h : i.Holds b) : i.intern b.path = (b, i) := intern_of_kept h.kept

/-- A binding stays that of its path whatever paths are asked for after it. -/
theorem Holds.intern (h : i.Holds b) (path : DataPath) : (i.intern path).2.Holds b := by
  cases hkept : i.cache.get? path.tagged with
  | some other =>
    rw [intern_of_kept hkept]
    exact h
  | none =>
    have hne : path.tagged ≠ b.path.tagged := by
      intro heq
      rw [heq, h.kept] at hkept
      cases hkept
    rw [intern_of_new hkept]
    refine ⟨?_, ?_⟩
    · rw [Cache.insert_of_unbounded h.unbounded]
      exact h.unbounded
    · rw [Cache.get?_insert_of_unbounded h.unbounded, if_neg hne]
      exact h.kept

theorem Holds.derive (h : i.Holds b) (other : Binding) (path : DataPath) : (i.derive other path).2.Holds b := by
  unfold Interner.derive
  split
  · exact h.intern path
  · exact ⟨h.unbounded, h.kept⟩

/-- What an unbounded interner gives out stays. -/
theorem Sound.holds_intern (h : i.Sound) (hunbounded : i.cache.strategy = .unbounded) (path : DataPath) :
    (i.intern path).2.Holds (i.intern path).1 := by
  cases hkept : i.cache.get? path.tagged with
  | some b =>
    rw [intern_of_kept hkept]
    exact ⟨hunbounded, (h _ b hkept).symm ▸ hkept⟩
  | none =>
    rw [intern_of_new hkept]
    refine ⟨?_, ?_⟩
    · rw [Cache.insert_of_unbounded hunbounded]
      exact hunbounded
    · exact (Cache.get?_insert_of_unbounded hunbounded _ _ _).trans (if_pos rfl)

end Interner

end DataBound
