-- SUMMARY: Updates are the history of their writes as a map in order of first appearance, and merging them is a monoid.
import DataBound.Proofs.Updates

/-!
# Updates and their history

However updates are made, by writing and by merging others into them, they are a function of the history of all
writes: the keys stand in the order in which they first came, and under each there is the path of the first write to it
with the value of the last. Merging puts histories one after the other, which is why the grouping of merges does not
matter.
-/

namespace DataBound.Updates

/-! ## Histories -/

/-- How updates are made. -/
inductive Calls where
  | new
  | insert (before : Calls) (path : DataPath) (value : Value)
  | merge (before other : Calls)

namespace Calls

/-- The updates that are made. -/
def run : Calls → Updates
  | new => []
  | insert before path value => before.run.insert path value
  | merge before other => before.run.merge other.run

/-- All writes, in the updates themselves and in what was merged into them, each at the time from which it counts. -/
def history : Calls → List Update
  | new => []
  | insert before path value => before.history ++ [.of path value]
  | merge before other => before.history ++ other.history

end Calls

/-- The writes to a key. -/
def under (key : String) (history : List Update) : List Update := history.filter fun write => write.key = key

/-- The entry with a key. -/
def stored? (updates : Updates) (key : String) : Option Update := List.find? (fun update => update.key = key) updates

/-- The updates keep a history of writes as a map in order: the keys as they first came, each with the path of the
first write to it and the value of the last. -/
structure Records (updates : Updates) (history : List Update) : Prop where
  nodup : updates.keys.Nodup
  own_key : ∀ update ∈ updates, update.key = update.path.text
  keys_eq : updates.keys = (history.map Update.key).eraseDups
  value_eq : ∀ key, updates.find? key = (under key history).getLast?.map Update.value
  path_eq : ∀ key, (updates.stored? key).map Update.path = (under key history).head?.map Update.path

variable {updates : Updates} {history : List Update}

/-! ## One write -/

theorem stored?_cons (update : Update) (rest : Updates) (key : String) :
    stored? (update :: rest) key = if update.key = key then some update else rest.stored? key := by
  rw [stored?, List.find?_cons]
  by_cases h : update.key = key
  · rw [decide_eq_true h, if_pos h]
  · rw [decide_eq_false h, if_neg h, stored?]

theorem under_concat (key : String) (history : List Update) (write : Update) :
    under key (history ++ [write]) = under key history ++ if write.key = key then [write] else [] := by
  rw [under, List.filter_append, List.filter_cons, List.filter_nil]
  simp only [decide_eq_true_eq, under]

/-- What a write leaves under its key has the path that was there before; other keys keep what they have. -/
theorem stored?_insert (updates : Updates) (path : DataPath) (value : Value) (key : String) :
    (updates.insert path value).stored? key =
      if path.text = key then some ⟨key, ((updates.stored? key).map Update.path).getD path, value⟩
      else updates.stored? key := by
  induction updates with
  | nil =>
    rw [insert, stored?_cons, Update.of_key]
    split
    · rename_i hkey
      rw [Update.of, hkey]
      rfl
    · rfl
  | cons update rest ih =>
    by_cases hown : update.key = path.text
    · rw [insert, if_pos hown, stored?_cons, stored?_cons, ← hown]
      split
      · rename_i hkey
        rw [← hkey]
        rfl
      · rfl
    · rw [insert, if_neg hown, stored?_cons, stored?_cons, ih]
      split
      · rename_i hfound
        rw [if_neg fun heq => hown (hfound.trans heq.symm)]
      · rfl

theorem eraseDups_concat (names : List String) (name : String) :
    (names ++ [name]).eraseDups = if name ∈ names then names.eraseDups else names.eraseDups ++ [name] := by
  rw [List.eraseDups_append, List.removeAll, List.filter_cons, List.filter_nil]
  split
  · rename_i hnew
    rw [if_neg (by simpa using hnew)]
    rfl
  · rename_i hold
    rw [if_pos (by simpa using hold)]
    exact List.append_nil _

theorem records_nil : Records [] [] where
  nodup := nodup_keys_nil
  own_key := nofun
  keys_eq := rfl
  value_eq _ := rfl
  path_eq _ := rfl

theorem Records.insert (h : updates.Records history) (path : DataPath) (value : Value) :
    (updates.insert path value).Records (history ++ [.of path value]) where
  nodup := nodup_keys_insert h.nodup path value
  own_key := own_key_insert h.own_key path value
  keys_eq := by
    have hmem : path.text ∈ updates.keys ↔ path.text ∈ history.map Update.key := by
      rw [h.keys_eq, List.mem_eraseDups]
    rw [keys_insert, List.map_append, List.map_singleton, eraseDups_concat, h.keys_eq]
    exact if_congr (h.keys_eq ▸ hmem) rfl rfl
  value_eq key := by
    have hbefore := h.value_eq key
    change (updates.stored? key).map Update.value = _ at hbefore
    change ((updates.insert path value).stored? key).map Update.value = _
    rw [stored?_insert, under_concat, List.getLast?_append, Option.map_or, ← hbefore]
    change _ = Option.or (Option.map Update.value (List.getLast? (if path.text = key then _ else _))) _
    split <;> rfl
  path_eq key := by
    rw [stored?_insert, under_concat, List.head?_append, Option.map_or, ← h.path_eq key]
    change _ = Option.or _ (Option.map Update.path (List.head? (if path.text = key then _ else _)))
    split
    · cases (updates.stored? key).map Update.path <;> rfl
    · exact (Option.or_none).symm

/-! ## All writes -/

/-- Merging writes one after the other. -/
theorem Records.merge (h : updates.Records history) {more : List Update}
    (hmore : ∀ write ∈ more, write.key = write.path.text) : (updates.merge more).Records (history ++ more) := by
  induction more generalizing updates history with
  | nil => rwa [List.append_nil]
  | cons write more ih =>
    obtain ⟨hkey, hmore⟩ := List.forall_mem_cons.1 hmore
    have hwrite : Update.of write.path write.value = write := by rw [Update.of, ← hkey]
    have hfirst := ih (h.insert write.path write.value) hmore
    rwa [hwrite, List.append_assoc] at hfirst

theorem Calls.own_key_history (calls : Calls) : ∀ write ∈ calls.history, write.key = write.path.text := by
  induction calls with
  | new => exact nofun
  | insert before path value ih => exact List.forall_mem_append.2 ⟨ih, List.forall_mem_singleton.2 rfl⟩
  | merge before other ihbefore ihother => exact List.forall_mem_append.2 ⟨ihbefore, ihother⟩

/-- However the updates were made, they are the writes of their history merged into nothing. -/
theorem Calls.run_eq (calls : Calls) : calls.run = Updates.merge [] calls.history := by
  induction calls with
  | new => rfl
  | insert before path value ih =>
    rw [run, history, merge_append, ← ih]
    rfl
  | merge before other ihbefore ihother => rw [run, history, merge_append, ← ihbefore, ihother, merge_merge_nil]

theorem Calls.records (calls : Calls) : calls.run.Records calls.history := by
  rw [calls.run_eq]
  exact records_nil.merge calls.own_key_history

/-- Updates are a map in order of first insertion, and merging makes them a monoid: it does not matter in which groups
they are merged, and merging nothing or into nothing changes nothing. -/
theorem ordered_map_monoid :
    (∀ calls : Calls, calls.run.Records calls.history) ∧
    (∀ x y z : Calls, (x.run.merge y.run).merge z.run = x.run.merge (y.run.merge z.run)) ∧
    ∀ x : Calls, merge Calls.new.run x.run = x.run ∧ x.run.merge Calls.new.run = x.run := by
  refine ⟨Calls.records, ?_, ?_⟩
  · intro x y z
    exact (merge_merge ⟨y.records.nodup, y.records.own_key⟩ z.run).symm
  · intro x
    refine ⟨?_, merge_nil x.run⟩
    rw [x.run_eq]
    exact merge_merge_nil [] x.history

/-- Two paths of one text are one key: the first path and its place stay, and the last value counts. -/
example : (Calls.merge (.insert (.insert .new [.key "a", .index 1] .null) [.key "b"] .null)
    (.insert .new [.key "a.1"] (.bool true))).run = [.of [.key "a", .index 1] (.bool true), .of [.key "b"] .null] := rfl

end DataBound.Updates
