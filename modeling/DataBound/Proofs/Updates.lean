-- SUMMARY: The keys of updates stay distinct, and what stands under a key comes from the first and the last write to it.
import DataBound.Updates
import Mathlib.Data.List.Induction

/-!
# Keys of updates

A write under a new key comes last; one under a known key leaves the keys as they are. So distinct keys stay distinct,
whatever is merged in. Merging what was collected elsewhere is writing it all here, one write after the other: of several
writes to a key the first gives the path and the last gives the value.
-/

namespace DataBound.Updates

@[simp] theorem keys_nil : keys [] = [] := rfl

@[simp] theorem keys_cons (update : Update) (rest : Updates) : keys (update :: rest) = update.key :: keys rest := rfl

theorem keys_insert (updates : Updates) (path : DataPath) (value : Value) :
    keys (insert updates path value) =
      if path.text ∈ keys updates then keys updates else keys updates ++ [path.text] := by
  induction updates with
  | nil => rfl
  | cons update rest ih =>
    rw [insert]
    split
    · rename_i hkey
      simp only [keys_cons, ← hkey, List.mem_cons, true_or, if_true]
    · rename_i hkey
      have hmem : path.text ∈ update.key :: keys rest ↔ path.text ∈ keys rest := by
        rw [List.mem_cons, or_iff_right fun heq => hkey heq.symm]
      simp only [keys_cons, ih, hmem]
      split
      · rfl
      · rfl

theorem nodup_keys_insert {updates : Updates} (h : (keys updates).Nodup) (path : DataPath) (value : Value) :
    (keys (insert updates path value)).Nodup := by
  rw [keys_insert]
  split
  · exact h
  · rename_i hnew
    refine List.nodup_append.2 ⟨h, by simp, ?_⟩
    intro key hkey other hother heq
    exact hnew (List.mem_singleton.1 hother ▸ heq ▸ hkey)

theorem nodup_keys_merge {updates : Updates} (h : (keys updates).Nodup) (other : Updates) :
    (keys (merge updates other)).Nodup := by
  induction other generalizing updates with
  | nil => exact h
  | cons update rest ih => exact ih (nodup_keys_insert h update.path update.value)

theorem nodup_keys_nil : (keys []).Nodup := List.nodup_nil

/-- The keys are distinct, and each is the text of the path beside it. -/
structure WellKeyed (updates : Updates) : Prop where
  nodup : (keys updates).Nodup
  own_key : ∀ update ∈ updates, update.key = update.path.text

/-- A write under a known key changes neither the key nor the path that stand there. -/
theorem own_key_insert {updates : Updates} (h : ∀ update ∈ updates, update.key = update.path.text) (path : DataPath)
    (value : Value) : ∀ update ∈ insert updates path value, update.key = update.path.text := by
  induction updates with
  | nil => simp [insert, Update.of]
  | cons first rest ih =>
    obtain ⟨hfirst, hrest⟩ := List.forall_mem_cons.1 h
    rw [insert]
    split
    · exact List.forall_mem_cons.2 ⟨hfirst, hrest⟩
    · exact List.forall_mem_cons.2 ⟨hfirst, ih hrest⟩

theorem own_key_merge {updates : Updates} (h : ∀ update ∈ updates, update.key = update.path.text) (other : Updates) :
    ∀ update ∈ merge updates other, update.key = update.path.text := by
  induction other generalizing updates with
  | nil => exact h
  | cons update rest ih => exact ih (own_key_insert h update.path update.value)

theorem wellKeyed_nil : WellKeyed [] := ⟨nodup_keys_nil, nofun⟩

theorem WellKeyed.insert {updates : Updates} (h : WellKeyed updates) (path : DataPath) (value : Value) :
    WellKeyed (insert updates path value) :=
  ⟨nodup_keys_insert h.nodup path value, own_key_insert h.own_key path value⟩

theorem WellKeyed.merge {updates : Updates} (h : WellKeyed updates) (other : Updates) :
    WellKeyed (merge updates other) :=
  ⟨nodup_keys_merge h.nodup other, own_key_merge h.own_key other⟩

/-- What is left of updates without the first is keyed as well. -/
theorem WellKeyed.of_cons {update : Update} {rest : Updates} (h : WellKeyed (update :: rest)) :
    update.key = update.path.text ∧ update.key ∉ keys rest ∧ WellKeyed rest := by
  obtain ⟨hown, hrest⟩ := List.forall_mem_cons.1 h.own_key
  obtain ⟨hnew, hnodup⟩ := List.nodup_cons.1 h.nodup
  exact ⟨hown, hnew, hnodup, hrest⟩

/-! ## Merging -/

variable {updates rest : Updates} {path other : DataPath} {value new : Value}

theorem insert_insert (h : path.text = other.text) :
    insert (insert updates path value) other new = insert updates path new := by
  induction updates with
  | nil => simp [insert, Update.of, h]
  | cons update rest ih =>
    by_cases hkey : update.key = path.text
    · simp [insert, hkey, h]
    · have hother : update.key ≠ other.text := fun heq => hkey (heq.trans h.symm)
      simp [insert, hkey, hother, ih]

/-- A write under a known key can be made before or after one under another key. -/
theorem insert_comm (hne : path.text ≠ other.text) (hmem : other.text ∈ keys updates) :
    insert (insert updates path value) other new = insert (insert updates other new) path value := by
  induction updates with
  | nil => cases hmem
  | cons update rest ih =>
    by_cases hpath : update.key = path.text
    · simp [insert, hpath, hne]
    · by_cases hother : update.key = other.text
      · simp [insert, hother, hne.symm]
      · have hrest : other.text ∈ keys rest :=
          (List.mem_cons.1 hmem).resolve_left fun heq => hother heq.symm
        simp [insert, hpath, hother, ih hrest]

theorem merge_append (updates more last : Updates) :
    merge updates (more ++ last) = merge (merge updates more) last := List.foldl_append

/-- A write under a known key can be made before or after writes under other keys. -/
theorem insert_merge (hown : ∀ update ∈ rest, update.key = update.path.text) (hrest : other.text ∉ keys rest)
    (hmem : other.text ∈ keys updates) :
    insert (merge updates rest) other new = merge (insert updates other new) rest := by
  induction rest generalizing updates with
  | nil => rfl
  | cons update rest ih =>
    obtain ⟨hkey, hown⟩ := List.forall_mem_cons.1 hown
    rw [keys_cons, List.mem_cons, not_or, hkey] at hrest
    have hmem' : other.text ∈ keys (insert updates update.path update.value) := by
      rw [keys_insert]
      split
      · exact hmem
      · exact List.mem_append_left _ hmem
    exact (ih hown hrest.2 hmem').trans
      (congrArg (merge · rest) (insert_comm (fun heq => hrest.1 heq.symm) hmem))

theorem merge_insert (h : WellKeyed rest) :
    merge updates (insert rest path value) = insert (merge updates rest) path value := by
  induction rest generalizing updates with
  | nil => rfl
  | cons update rest ih =>
    obtain ⟨hown, hnot, hrest⟩ := h.of_cons
    by_cases hkey : update.key = path.text
    · have htext : update.path.text = path.text := hown.symm.trans hkey
      -- the new value stands at the place of the old one, with writes under other keys after it
      have hmem : path.text ∈ keys (insert updates update.path update.value) := by
        rw [keys_insert, htext]
        split
        · assumption
        · exact List.mem_append_right _ (List.mem_singleton.2 rfl)
      rw [insert, if_pos hkey]
      change merge (insert updates update.path value) rest = insert (merge (insert updates update.path _) rest) path value
      rw [insert_merge hrest.own_key (hkey ▸ hnot) hmem, insert_insert htext]
    · rw [insert, if_neg hkey]
      exact ih hrest

/-- What was merged elsewhere is merged as if it were merged here. -/
theorem merge_merge (h : WellKeyed rest) (more : Updates) :
    merge updates (merge rest more) = merge (merge updates rest) more := by
  induction more generalizing rest with
  | nil => rfl
  | cons update more ih =>
    change merge updates (merge (insert rest update.path update.value) more) = _
    rw [ih (h.insert _ _), merge_insert h]
    rfl

theorem merge_merge_nil (updates more : Updates) : merge updates (merge [] more) = merge updates more :=
  merge_merge wellKeyed_nil more

/-! ## First and last writes -/

theorem mem_insert {update : Update} (hnodup : (keys updates).Nodup) (h : update ∈ insert updates path value) :
    (update ∈ updates ∧ update.key ≠ path.text) ∨
    (update.key = path.text ∧ update.value = value ∧
      (update.path = path ∧ path.text ∉ keys updates ∨ ∃ old ∈ updates, old.key = update.key ∧ old.path = update.path)) := by
  induction updates with
  | nil =>
    obtain rfl := List.mem_singleton.1 h
    exact .inr ⟨rfl, rfl, .inl ⟨rfl, List.not_mem_nil⟩⟩
  | cons first rest ih =>
    obtain ⟨hnot, hrest⟩ := List.nodup_cons.1 hnodup
    by_cases hkey : first.key = path.text
    · rw [insert, if_pos hkey] at h
      rcases List.mem_cons.1 h with rfl | h
      · exact .inr ⟨hkey, rfl, .inr ⟨first, List.mem_cons_self, rfl, rfl⟩⟩
      · refine .inl ⟨List.mem_cons_of_mem _ h, fun heq => hnot ?_⟩
        rw [show first.key = update.key from hkey.trans heq.symm]
        exact List.mem_map_of_mem h
    · rw [insert, if_neg hkey] at h
      rcases List.mem_cons.1 h with rfl | h
      · exact .inl ⟨List.mem_cons_self, hkey⟩
      · rcases ih hrest h with ⟨hmem, hne⟩ | ⟨hpath, hvalue, ⟨rfl, hnew⟩ | ⟨old, hold, hsame⟩⟩
        · exact .inl ⟨List.mem_cons_of_mem _ hmem, hne⟩
        · refine .inr ⟨hpath, hvalue, .inl ⟨rfl, ?_⟩⟩
          rw [keys_cons, List.mem_cons, not_or]
          exact ⟨fun heq => hkey heq.symm, hnew⟩
        · exact .inr ⟨hpath, hvalue, .inr ⟨old, List.mem_cons_of_mem _ hold, hsame⟩⟩

theorem mem_keys_merge {key : String} (updates : Updates) {more : Updates}
    (hown : ∀ update ∈ more, update.key = update.path.text) (h : key ∈ keys updates ∨ key ∈ keys more) :
    key ∈ keys (merge updates more) := by
  induction more generalizing updates with
  | nil => exact h.resolve_right List.not_mem_nil
  | cons update more ih =>
    obtain ⟨hkey, hown⟩ := List.forall_mem_cons.1 hown
    apply ih _ hown
    rw [keys_cons, List.mem_cons, hkey] at h
    rw [keys_insert]
    rcases h with h | rfl | h
    · left
      split
      · exact h
      · exact List.mem_append_left _ h
    · left
      split
      · assumption
      · exact List.mem_append_right _ (List.mem_singleton.2 rfl)
    · exact .inr h

/-- Of several writes to a key the first gives the path, and the last gives the value. -/
theorem mem_merge_nil {writes : Updates} (hown : ∀ write ∈ writes, write.key = write.path.text) {update : Update}
    (h : update ∈ merge [] writes) :
    (∃ first, List.find? (fun write => write.key = update.key) writes = some first ∧ first.path = update.path) ∧
    (∃ last, List.find? (fun write => write.key = update.key) writes.reverse = some last ∧
      last.value = update.value) := by
  induction writes using List.reverseRecOn generalizing update with
  | nil => cases h
  | append_singleton writes write ih =>
    obtain ⟨hearlier, hwrite⟩ := List.forall_mem_append.1 hown
    have hkey' : write.key = write.path.text := hwrite write (List.mem_singleton.2 rfl)
    rw [merge_append] at h
    rw [List.reverse_append, List.reverse_singleton, List.singleton_append]
    rcases mem_insert (nodup_keys_merge nodup_keys_nil writes) h with
      ⟨hmem, hne⟩ | ⟨hkey, hvalue, hpath⟩
    · obtain ⟨⟨first, hfirst, hpath⟩, last, hlast, hvalue⟩ := ih hearlier hmem
      refine ⟨⟨first, ?_, hpath⟩, last, ?_, hvalue⟩
      · rw [List.find?_append, hfirst, Option.some_or]
      · rw [List.find?_cons_of_neg, hlast]
        exact fun heq => hne ((of_decide_eq_true heq).symm.trans hkey')
    · have hsame : write.key = update.key := hkey'.trans hkey.symm
      refine ⟨?_, write, List.find?_cons_of_pos (decide_eq_true hsame), hvalue.symm⟩
      rcases hpath with ⟨hpath, hnew⟩ | ⟨old, hold, holdKey, hpath⟩
      · -- the key is a new one, so that this write is the first to it
        refine ⟨write, ?_, hpath.symm⟩
        have hnone : List.find? (fun write => write.key = update.key) writes = none := by
          rw [List.find?_eq_none]
          intro earlier hmem heq
          refine hnew (mem_keys_merge [] hearlier (.inr ?_))
          rw [← hkey, ← of_decide_eq_true heq]
          exact List.mem_map_of_mem hmem
        rw [List.find?_append, hnone, Option.none_or]
        exact List.find?_cons_of_pos (decide_eq_true hsame)
      · obtain ⟨⟨first, hfirst, hfirstPath⟩, -⟩ := ih hearlier hold
        rw [holdKey] at hfirst
        refine ⟨first, ?_, hfirstPath.trans hpath⟩
        rw [List.find?_append, hfirst, Option.some_or]

end DataBound.Updates
