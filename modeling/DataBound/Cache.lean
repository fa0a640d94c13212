-- SUMMARY: Caches keyed by text, unbounded or with first-in-first-out eviction.
import Std.Data.HashMap

/-! # Caches

A cache maps texts to values. An unbounded one keeps every entry; a bounded one remembers the order in which
keys came and, after a new key, drops the oldest while it holds more than its capacity. It always holds
at least one entry. -/

namespace DataBound

/-- When a cache drops entries. -/
inductive Cache.Strategy where
  | unbounded
  | bounded (capacity : Nat)
  deriving DecidableEq

/-- A cache of values under text keys. -/
structure Cache (α : Type) where
  strategy : Cache.Strategy
  entries : Std.HashMap String α
  /-- The keys of a bounded cache, the oldest first. -/
  order : List String

namespace Cache

variable {α : Type}

def empty (strategy : Strategy) : Cache α := ⟨strategy, ∅, []⟩

def get? (cache : Cache α) (key : String) : Option α := cache.entries[key]?

def size (cache : Cache α) : Nat := cache.entries.size

def isEmpty (cache : Cache α) : Bool := cache.entries.isEmpty

/-- The cache without its oldest `n` keys. -/
def dropOldest (cache : Cache α) (n : Nat) : Cache α :=
  { cache with
    entries := (cache.order.take n).foldl (fun entries key => entries.erase key) cache.entries
    order := cache.order.drop n }

/-- Take note of a key that just came in. -/
def track (cache : Cache α) (key : String) : Cache α :=
  match cache.strategy with
  | .unbounded => cache
  | .bounded capacity =>
    if key ∈ cache.order then cache
    else
      let cache := { cache with order := cache.order ++ [key] }
      cache.dropOldest (cache.order.length - max capacity 1)

/-- The cache with `value` under `key`; a present key keeps its age. -/
def insert (cache : Cache α) (key : String) (value : α) : Cache α :=
  let filled := { cache with entries := cache.entries.insert key value }
  if cache.entries.contains key then filled else filled.track key

/-- The value under `key`. If there is none, `make` is run for one, which is put there. -/
def getOrInsert {m : Type → Type} [Monad m] (cache : Cache α) (key : String) (make : m α) : m (α × Cache α) :=
  match cache.get? key with
  | some value => pure (value, cache)
  | none => do
    let value ← make
    pure (value, cache.insert key value)

def clear (cache : Cache α) : Cache α := empty cache.strategy

end Cache

end DataBound
