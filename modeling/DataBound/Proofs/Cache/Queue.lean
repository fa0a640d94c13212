-- SUMMARY: A cache is one queue of entries, whatever it is asked for.
import DataBound.Proofs.Cache

/-!
# Caches as queues

A cache keeps a map and, if it is bounded, the order in which the keys came, and it changes the two in separate steps.
From outside it is one list of entries in that order: what is stored under a new key is appended, and a bounded cache
then drops entries from the front until no more are left than it may hold. The two agree after any requests.
-/

namespace DataBound.Cache

variable {α ε : Type}

/-! ## Requests

A request may bring a maker for a value that is not there. Makers act on a world of their own, which shows when they
are run. -/

/-- What a cache can be asked for. -/
inductive Request (ε α : Type) where
  | get (key : String)
  | insert (key : String) (value : α)
  | getOrInsert (key : String) (make : StateM ε α)
  | clear

/-- The value that is given out, if any, and the cache after the request. -/
def serve (cache : Cache α) : Request ε α → StateM ε (Option α × Cache α)
  | .get key => pure (cache.get? key, cache)
  | .insert key value => pure (none, cache.insert key value)
  | .getOrInsert key make => do
    let (value, cache) ← cache.getOrInsert key make
    pure (some value, cache)
  | .clear => pure (none, cache.clear)

/-- The answers to one request after the other, and the cache after all of them. -/
def serveAll (cache : Cache α) : List (Request ε α) → StateM ε (List (Option α) × Cache α)
  | [] => pure ([], cache)
  | request :: rest => do
    let (answer, cache) ← cache.serve request
    let (answers, cache) ← cache.serveAll rest
    pure (answer :: answers, cache)

theorem serveAll_cons (cache : Cache α) (request : Request ε α) (rest : List (Request ε α)) (world : ε) :
    (cache.serveAll (request :: rest)).run world =
      let first := (cache.serve request).run world
      let more := (first.1.2.serveAll rest).run first.2
      ((first.1.1 :: more.1.1, more.1.2), more.2) := rfl

/-! ## Queues -/

/-- Entries in the order in which their keys came. -/
abbrev Queue (α : Type) := List (String × α)

namespace Queue

/-- The value under a key. -/
def find? (key : String) : Queue α → Option α
  | [] => none
  | (k, v) :: rest => if k = key then some v else find? key rest

/-- The keys, the oldest first. -/
def keys (queue : Queue α) : List String := queue.map Prod.fst

/-- The queue with another value under a key, which keeps its place. -/
def replace (key : String) (value : α) : Queue α → Queue α
  | [] => []
  | (k, v) :: rest => if k = key then (k, value) :: rest else (k, v) :: replace key value rest

/-- The queue without entries at the front, as long as there are more than the limit. -/
def trim (limit : Nat) : Queue α → Queue α
  | [] => []
  | entry :: rest => if limit < (entry :: rest).length then trim limit rest else entry :: rest

/-- What a strategy leaves of a queue. -/
def kept (queue : Queue α) : Strategy → Queue α
  | .unbounded => queue
  | .bounded capacity => trim (max capacity 1) queue

/-- The queue with an entry for a key that it does not have. -/
def append (strategy : Strategy) (queue : Queue α) (key : String) (value : α) : Queue α :=
  kept (queue ++ [(key, value)]) strategy

/-- The queue with a value under a key, in the place of the one there or at the end. -/
def insert (strategy : Strategy) (queue : Queue α) (key : String) (value : α) : Queue α :=
  match find? key queue with
  | some _ => replace key value queue
  | none => append strategy queue key value

/-- The value that is given out, if any, and the queue after the request. A maker is run only if its key is absent. -/
def serve (strategy : Strategy) (queue : Queue α) : Request ε α → StateM ε (Option α × Queue α)
  | .get key => pure (find? key queue, queue)
  | .insert key value => pure (none, insert strategy queue key value)
  | .getOrInsert key make =>
    match find? key queue with
    | some value => pure (some value, queue)
    | none => do
      let value ← make
      pure (some value, append strategy queue key value)
  | .clear => pure (none, [])

/-- The answers to one request after the other, and the queue after all of them. -/
def serveAll (strategy : Strategy) (queue : Queue α) : List (Request ε α) → StateM ε (List (Option α) × Queue α)
  | [] => pure ([], queue)
  | request :: rest => do
    let (answer, queue) ← serve strategy queue request
    let (answers, queue) ← serveAll strategy queue rest
    pure (answer :: answers, queue)

theorem serveAll_cons (strategy : Strategy) (queue : Queue α) (request : Request ε α) (rest : List (Request ε α))
    (world : ε) :
    (serveAll strategy queue (request :: rest)).run world =
      let first := (serve strategy queue request).run world
      let more := (serveAll strategy first.1.2 rest).run first.2
      ((first.1.1 :: more.1.1, more.1.2), more.2) := rfl

variable {queue : Queue α} {key k : String} {value : α}

theorem isSome_find? : (find? key queue).isSome ↔ key ∈ queue.keys := by
  induction queue with
  | nil => simp [find?, keys]
  | cons entry rest ih =>
    obtain ⟨k, v⟩ := entry
    by_cases h : k = key
    · simp [find?, keys, h]
    · rw [find?, if_neg h, ih, keys, keys, List.map_cons, List.mem_cons]
      exact ⟨.inr, fun hmem => hmem.resolve_left (Ne.symm h)⟩

theorem find?_eq_none : find? key queue = none ↔ key ∉ queue.keys := by
  rw [← isSome_find?, Bool.not_eq_true, Option.isSome_eq_false_iff, Option.isNone_iff_eq_none]

theorem find?_append (queue more : Queue α) (key : String) :
    find? key (queue ++ more) = (find? key queue).or (find? key more) := by
  induction queue with
  | nil => rfl
  | cons entry rest ih =>
    obtain ⟨k, v⟩ := entry
    by_cases h : k = key
    · simp [find?, h]
    · simpa [find?, h] using ih

theorem find?_replace (h : (find? key queue).isSome) :
    find? k (replace key value queue) = if k = key then some value else find? k queue := by
  induction queue with
  | nil => cases h
  | cons entry rest ih =>
    obtain ⟨k', v⟩ := entry
    by_cases hkey : k' = key
    · subst hkey
      by_cases hk : k = k'
      · simp [replace, find?, hk]
      · simp [replace, find?, hk, Ne.symm hk]
    · rw [find?, if_neg hkey] at h
      rw [replace, if_neg hkey, find?, find?, ih h]
      by_cases hk : k' = k
      · rw [if_pos hk, if_pos hk, if_neg fun heq => hkey (hk.trans heq)]
      · rw [if_neg hk, if_neg hk]

@[simp] theorem keys_replace (key : String) (value : α) (queue : Queue α) :
    (replace key value queue).keys = queue.keys := by
  induction queue with
  | nil => rfl
  | cons entry rest ih =>
    obtain ⟨k, v⟩ := entry
    rw [replace]
    split
    · rfl
    · exact congrArg (k :: ·) ih

/-- Trimming drops as many entries as are too many. -/
theorem trim_eq_drop (limit : Nat) (queue : Queue α) : trim limit queue = queue.drop (queue.length - limit) := by
  induction queue with
  | nil => rw [trim, List.drop_nil]
  | cons entry rest ih =>
    rw [trim]
    split
    · rename_i hlt
      rw [List.length_cons] at hlt ⊢
      rw [ih, Nat.sub_add_comm (Nat.le_of_lt_succ hlt), List.drop_succ_cons]
    · rename_i hle
      rw [Nat.sub_eq_zero_of_le (Nat.le_of_not_lt hle), List.drop_zero]

theorem find?_drop (h : queue.keys.Nodup) (n : Nat) (key : String) :
    find? key (queue.drop n) = if key ∈ queue.keys.take n then none else find? key queue := by
  -- a key that is dropped does not come again behind
  have hsplit := find?_append (queue.take n) (queue.drop n) key
  rw [List.take_append_drop] at hsplit
  have hkeys : queue.keys.take n = keys (queue.take n) := List.map_take.symm
  rw [hkeys, hsplit]
  split
  · rename_i hmem
    rw [keys, ← List.take_append_drop n queue, List.map_append, List.nodup_append] at h
    rw [find?_eq_none]
    exact fun hlater => h.2.2 key hmem key hlater rfl
  · rename_i hmem
    rw [find?_eq_none.2 hmem, Option.none_or]

/-- What was appended last is never dropped. -/
theorem find?_append_self (strategy : Strategy) (h : find? key queue = none) (value : α) :
    find? key (append strategy queue key value) = some value := by
  have hlast : ∀ n, n ≤ queue.length → find? key ((queue ++ [(key, value)]).drop n) = some value := by
    intro n hn
    have hdropped : find? key (queue.drop n) = none := by
      rw [find?_eq_none] at h ⊢
      exact fun hmem => h (List.map_subset _ (List.drop_subset _ _) hmem)
    rw [List.drop_append_of_le_length hn, find?_append, hdropped, Option.none_or, find?, if_pos rfl]
  cases strategy with
  | unbounded => exact hlast 0 (Nat.zero_le _)
  | bounded capacity =>
    rw [append, kept, trim_eq_drop]
    apply hlast
    rw [List.length_append, List.length_singleton]
    omega

/-- Without a bound the keys that came stay at the front until the queue is cleared. -/
theorem keys_prefix_serve {request : Request ε α} (h : request ≠ .clear) (queue : Queue α) (world : ε) :
    queue.keys <+: ((serve .unbounded queue request).run world).1.2.keys := by
  have happend : ∀ key value, queue.keys <+: (append .unbounded queue key value).keys := by
    intro key value
    rw [append, kept, keys, keys, List.map_append]
    exact List.prefix_append _ _
  cases request with
  | get key => exact List.prefix_rfl
  | insert key value =>
    change queue.keys <+: (insert .unbounded queue key value).keys
    rw [insert]
    split
    · simp only [keys_replace, List.prefix_rfl]
    · exact happend key value
  | getOrInsert key make =>
    rw [serve]
    split
    · exact List.prefix_rfl
    · exact happend key _
  | clear => exact absurd rfl h

theorem keys_prefix_serveAll {requests : List (Request ε α)} (h : ∀ request ∈ requests, request ≠ .clear)
    (queue : Queue α) (world : ε) :
    queue.keys <+: ((serveAll .unbounded queue requests).run world).1.2.keys := by
  induction requests generalizing queue world with
  | nil => exact List.prefix_rfl
  | cons request rest ih =>
    have hfirst := keys_prefix_serve (h request List.mem_cons_self) queue world
    exact hfirst.trans (ih (fun later hmem => h later (List.mem_cons_of_mem _ hmem)) _ _)

end Queue

/-! ## Agreement -/

/-- The cache is the queue: both have the same entries, and the cache has noted the keys in the order of the queue if it
is bounded. -/
structure Holds (strategy : Strategy) (cache : Cache α) (queue : Queue α) : Prop where
  strategy_eq : cache.strategy = strategy
  answers (key : String) : cache.get? key = Queue.find? key queue
  nodup : queue.keys.Nodup
  bounded (capacity : Nat) : strategy = .bounded capacity →
    cache.order = queue.keys ∧ queue.length ≤ max capacity 1

variable {strategy : Strategy} {cache : Cache α} {queue : Queue α} {key : String} {value : α}

theorem holds_empty (strategy : Strategy) : (empty strategy : Cache α).Holds strategy [] where
  strategy_eq := rfl
  answers _ := get?_empty _
  nodup := .nil
  bounded _ _ := ⟨rfl, Nat.zero_le _⟩

theorem get?_insert_entries (entries : Std.HashMap String α) (order : List String) (key k : String) (value : α) :
    (⟨strategy, entries.insert key value, order⟩ : Cache α).get? k =
      if k = key then some value else entries[k]? := by
  rw [get?, Std.HashMap.getElem?_insert]
  simp only [beq_iff_eq, eq_comm (a := key)]

theorem get?_dropOldest (cache : Cache α) (n : Nat) (key : String) :
    (cache.dropOldest n).get? key = if key ∈ cache.order.take n then none else cache.get? key := by
  rw [dropOldest, get?, get?]
  generalize cache.order.take n = dropped
  generalize cache.entries = entries
  induction dropped generalizing entries with
  | nil => rfl
  | cons first rest ih =>
    rw [List.foldl_cons, ih, Std.HashMap.getElem?_erase]
    by_cases hmem : key ∈ rest
    · rw [if_pos hmem, if_pos (List.mem_cons_of_mem _ hmem)]
    · simp only [hmem, if_false, List.mem_cons, or_false, beq_iff_eq, eq_comm (a := first)]

theorem Holds.contains_eq (h : cache.Holds strategy queue) (key : String) :
    cache.entries.contains key = (Queue.find? key queue).isSome := by
  rw [← h.answers key, Std.HashMap.contains_eq_isSome_getElem?, get?]

theorem Holds.insert_of_find? {old : α} (h : cache.Holds strategy queue) (hold : Queue.find? key queue = some old) :
    (cache.insert key value).Holds strategy (Queue.replace key value queue) := by
  have hpresent : (Queue.find? key queue).isSome := Option.isSome_of_eq_some hold
  rw [insert, h.contains_eq, if_pos hpresent]
  refine ⟨h.strategy_eq, ?_, ?_, ?_⟩
  · intro k
    rw [get?_insert_entries, Queue.find?_replace hpresent, ← h.answers k, get?]
  · rw [Queue.keys_replace]
    exact h.nodup
  · intro capacity hbounded
    obtain ⟨horder, hlength⟩ := h.bounded capacity hbounded
    have hsame : (Queue.replace key value queue).length = queue.length := by
      simpa [Queue.keys] using congrArg List.length (Queue.keys_replace key value queue)
    rw [Queue.keys_replace, hsame]
    exact ⟨horder, hlength⟩

theorem Holds.insert_of_absent (h : cache.Holds strategy queue) (habsent : Queue.find? key queue = none) :
    (cache.insert key value).Holds strategy (Queue.append strategy queue key value) := by
  have hkeys : Queue.keys (queue ++ [(key, value)]) = queue.keys ++ [key] := List.map_append
  have hnew : key ∉ queue.keys := Queue.find?_eq_none.1 habsent
  have hnodup : (Queue.keys (queue ++ [(key, value)])).Nodup := by
    rw [hkeys, (List.perm_append_singleton key queue.keys).nodup_iff]
    exact List.nodup_cons.2 ⟨hnew, h.nodup⟩
  have hfind : ∀ k, Queue.find? k (queue ++ [(key, value)]) = if k = key then some value else cache.get? k := by
    intro k
    rw [Queue.find?_append, h.answers k]
    by_cases hk : k = key
    · rw [hk, habsent, Option.none_or, if_pos rfl, Queue.find?, if_pos rfl]
    · rw [if_neg hk, Queue.find?, if_neg (Ne.symm hk), Queue.find?, Option.or_none]
  rw [insert, h.contains_eq, habsent, Option.isSome_none, if_neg Bool.false_ne_true, track]
  cases strategy with
  | unbounded =>
    simp only [h.strategy_eq]
    refine ⟨rfl, ?_, hnodup, nofun⟩
    intro k
    rw [get?_insert_entries, Queue.append, Queue.kept, hfind, get?]
  | bounded capacity =>
    obtain ⟨horder, hlength⟩ := h.bounded capacity rfl
    have hcount : (Queue.keys (queue ++ [(key, value)])).length = (queue ++ [(key, value)]).length := List.length_map _
    simp only [h.strategy_eq]
    rw [if_neg (horder ▸ hnew), horder, ← hkeys, hcount, Queue.append, Queue.kept, Queue.trim_eq_drop]
    refine ⟨rfl, ?_, ?_, ?_⟩
    · intro k
      rw [get?_dropOldest, get?_insert_entries, Queue.find?_drop hnodup, hfind, get?]
    · rw [Queue.keys, List.map_drop]
      exact hnodup.sublist (List.drop_sublist _ _)
    · rintro _ ⟨⟩
      refine ⟨List.map_drop.symm, ?_⟩
      rw [List.length_drop]
      omega

theorem Holds.insert (h : cache.Holds strategy queue) (key : String) (value : α) :
    (cache.insert key value).Holds strategy (Queue.insert strategy queue key value) := by
  rw [Queue.insert]
  cases hfind : Queue.find? key queue with
  | some old => exact h.insert_of_find? hfind
  | none => exact h.insert_of_absent hfind

/-- A run on a cache and one on a queue give the same answer and leave the same world, and the cache is the queue
afterwards. -/
structure Agree {β : Type} (strategy : Strategy) (served : (β × Cache α) × ε) (expected : (β × Queue α) × ε) :
    Prop where
  answer : served.1.1 = expected.1.1
  world : served.2 = expected.2
  holds : served.1.2.Holds strategy expected.1.2

theorem Holds.serve (h : cache.Holds strategy queue) (request : Request ε α) (world : ε) :
    Agree strategy ((cache.serve request).run world) ((Queue.serve strategy queue request).run world) := by
  cases request with
  | get key => exact ⟨h.answers key, rfl, h⟩
  | insert key value => exact ⟨rfl, rfl, h.insert key value⟩
  | getOrInsert key make =>
    have hget := h.answers key
    rw [Cache.serve, Queue.serve]
    cases hfind : Queue.find? key queue with
    | some value =>
      rw [getOrInsert_of_present (hget.trans hfind)]
      exact ⟨rfl, rfl, h⟩
    | none =>
      rw [getOrInsert_of_absent (hget.trans hfind)]
      exact ⟨rfl, rfl, h.insert_of_absent hfind⟩
  | clear =>
    have hclear : cache.clear = empty strategy := congrArg empty h.strategy_eq
    refine ⟨rfl, rfl, ?_⟩
    rw [Cache.serve, hclear]
    exact holds_empty strategy

theorem Holds.serveAll (h : cache.Holds strategy queue) (requests : List (Request ε α)) (world : ε) :
    Agree strategy ((cache.serveAll requests).run world) ((Queue.serveAll strategy queue requests).run world) := by
  induction requests generalizing cache queue world with
  | nil => exact ⟨rfl, rfl, h⟩
  | cons request rest ih =>
    have hfirst := h.serve request world
    -- both go on in the one world that the first request leaves
    have hrest := ih hfirst.holds ((Queue.serve strategy queue request).run world).2
    simp only [serveAll_cons, Queue.serveAll_cons, hfirst.world]
    exact ⟨List.cons_eq_cons.2 ⟨hfirst.answer, hrest.answer⟩, hrest.world, hrest.holds⟩

/-! ## What is held -/

theorem Holds.size_eq (h : cache.Holds strategy queue) : cache.size = queue.length := by
  have hperm : cache.entries.keys.Perm queue.keys := by
    rw [List.perm_ext_iff_of_nodup Std.HashMap.nodup_keys h.nodup]
    intro key
    rw [Std.HashMap.mem_keys, Std.HashMap.mem_iff_contains, h.contains_eq, Queue.isSome_find?]
  rw [size, ← Std.HashMap.length_keys, hperm.length_eq, Queue.keys, List.length_map]

theorem Holds.isEmpty_eq (h : cache.Holds strategy queue) : cache.isEmpty = queue.isEmpty := by
  rw [isEmpty, Std.HashMap.isEmpty_eq_size_eq_zero, ← size, h.size_eq]
  cases queue <;> rfl

/-- What was stored is there, whatever was dropped for it. -/
theorem Holds.get?_insert_self (h : cache.Holds strategy queue) (key : String) (value : α) :
    (cache.insert key value).get? key = some value := by
  rw [(h.insert key value).answers, Queue.insert]
  cases hfind : Queue.find? key queue with
  | some old =>
    rw [Queue.find?_replace (Option.isSome_of_eq_some hfind), if_pos rfl]
  | none => exact Queue.find?_append_self strategy hfind value

/-- A present key is answered in the world as it was, so its maker is not run. -/
theorem run_getOrInsert_of_present (h : cache.get? key = some value) (make : StateM ε α) (world : ε) :
    (cache.getOrInsert key make).run world = ((value, cache), world) := by
  rw [getOrInsert_of_present h]
  rfl

/-- For an absent key the maker is run, once, and what it made is stored. -/
theorem Holds.run_getOrInsert_of_absent (h : cache.Holds strategy queue) (habsent : cache.get? key = none)
    (make : StateM ε α) (world : ε) :
    let ((value, after), last) := (cache.getOrInsert key make).run world
    make.run world = (value, last) ∧ after.get? key = some value := by
  rw [getOrInsert_of_absent habsent]
  exact ⟨rfl, h.get?_insert_self key _⟩

/-- A cache without a bound loses nothing but by being cleared. -/
theorem Holds.isSome_get?_serveAll (h : cache.Holds .unbounded queue) {requests : List (Request ε α)}
    (hkeep : ∀ request ∈ requests, request ≠ .clear) (world : ε) {key : String} (hkey : (cache.get? key).isSome) :
    (((cache.serveAll requests).run world).1.2.get? key).isSome := by
  rw [h.answers, Queue.isSome_find?] at hkey
  rw [(h.serveAll requests world).holds.answers, Queue.isSome_find?]
  exact (Queue.keys_prefix_serveAll hkeep queue world).subset hkey

/-! ## Whole runs -/

/-- After any requests to a new cache the answers and the world are those of a queue, and the entries are the queue's. A
bounded cache holds no more than its capacity, and at least one entry; the order that it notes has each of its keys once.
What was stored last is there. A present key is answered without its maker, and for an absent one the maker is run once.
A cache without a bound keeps every key until it is cleared. -/
theorem serveAll_as_queue (strategy : Strategy) (requests : List (Request ε α)) (world : ε) :
    let ((answers, cache), last) := ((empty strategy : Cache α).serveAll requests).run world
    let ((expected, queue), expectedLast) := (Queue.serveAll strategy [] requests).run world
    (answers = expected ∧ last = expectedLast) ∧
    ((∀ key, cache.get? key = Queue.find? key queue) ∧ queue.keys.Nodup ∧
      cache.size = queue.length ∧ cache.isEmpty = queue.isEmpty) ∧
    (∀ capacity, strategy = .bounded capacity → cache.size ≤ max capacity 1 ∧
      cache.order = queue.keys ∧ cache.order.Nodup ∧ ∀ key, key ∈ cache.order ↔ key ∈ cache.entries) ∧
    (∀ key value, (cache.insert key value).get? key = some value) ∧
    (∀ key value, cache.get? key = some value → ∀ (make : StateM ε α) (now : ε),
      (cache.getOrInsert key make).run now = ((value, cache), now)) ∧
    (∀ key, cache.get? key = none → ∀ (make : StateM ε α) (now : ε),
      let ((value, after), later) := (cache.getOrInsert key make).run now
      make.run now = (value, later) ∧ after.get? key = some value) ∧
    (strategy = .unbounded → ∀ more : List (Request ε α), (∀ request ∈ more, request ≠ .clear) →
      ∀ now key, (cache.get? key).isSome → (((cache.serveAll more).run now).1.2.get? key).isSome) := by
  have hagree := (holds_empty (α := α) strategy).serveAll requests world
  generalize ((empty strategy : Cache α).serveAll requests).run world = served at hagree ⊢
  generalize (Queue.serveAll strategy [] requests).run world = expected at hagree ⊢
  obtain ⟨⟨answers, cache⟩, last⟩ := served
  obtain ⟨⟨expected, queue⟩, expectedLast⟩ := expected
  obtain ⟨hanswers, hworld, h⟩ := hagree
  refine ⟨⟨hanswers, hworld⟩, ⟨h.answers, h.nodup, h.size_eq, h.isEmpty_eq⟩, ?_, h.get?_insert_self, ?_, ?_, ?_⟩
  · intro capacity hbounded
    obtain ⟨horder, hlength⟩ := h.bounded capacity hbounded
    refine ⟨h.size_eq ▸ hlength, horder, horder ▸ h.nodup, ?_⟩
    intro key
    rw [horder, ← Queue.isSome_find?, Std.HashMap.mem_iff_contains, h.contains_eq]
  · intro key value hpresent make now
    exact run_getOrInsert_of_present hpresent make now
  · intro key habsent make now
    exact h.run_getOrInsert_of_absent habsent make now
  · rintro rfl more hmore now key hkey
    exact h.isSome_get?_serveAll hmore now hkey

/-- With capacity 0 one entry is held all the same, so a key that was pushed out is made again. The makers count
themselves: the one whose key was present was not run. -/
theorem serveAll_as_queue_refill :
    let count (value : Nat) : StateM Nat Nat := fun made => (value, made + 1)
    let requests : List (Request Nat Nat) :=
      [.insert "a" 1, .insert "b" 2, .insert "b" 3, .getOrInsert "b" (count 4), .getOrInsert "a" (count 5)]
    let ((answers, cache), made) := ((empty (.bounded 0) : Cache Nat).serveAll requests).run 0
    answers = [none, none, none, some 3, some 5] ∧ made = 1 ∧ cache.order = ["a"] ∧ cache.size = 1 ∧
      cache.get? "b" = none ∧ (cache.getOrInsert "a" (count 6)).run made = ((5, cache), made) := by
  intro count requests
  have h := serveAll_as_queue (.bounded 0) requests 0
  have hqueue : (Queue.serveAll (.bounded 0) [] requests).run 0 =
      (([none, none, none, some 3, some 5], [("a", 5)]), 1) := by
    simp [requests, count, Queue.serveAll, Queue.serve, Queue.insert, Queue.find?, Queue.replace, Queue.append,
      Queue.kept, Queue.trim, StateT.run]
    rfl
  rw [hqueue] at h
  obtain ⟨⟨hanswers, hmade⟩, ⟨hget, -, hsize, -⟩, hbounded, -, hpresent, -⟩ := h
  obtain ⟨-, horder, -⟩ := hbounded 0 rfl
  exact ⟨hanswers, hmade, horder, hsize, hget "b", hpresent "a" 5 (hget "a") (count 6) _⟩

end DataBound.Cache
