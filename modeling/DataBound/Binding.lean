-- SUMMARY: Bindings (data paths with an identity) and the interner that shares them.
import DataBound.Segment
import DataBound.Cache

/-! # Bindings

A binding is a data path together with an identity: the serial number it got when it was made. An interner
keeps the bindings it made under a spelling of their path that tells indices from keys, so as long as an entry
stays, equal paths are one binding. Bindings of an interner lead to their parents and descendants
through it; standalone bindings, and those of an interner that is retired, make new ones each time. -/

namespace DataBound

/-- A data path with an identity. -/
structure Binding where
  path : DataPath
  /-- The segments joined by dots, which is done once, when the binding is made. -/
  text : String
  text_eq : text = path.text
  serial : Nat
  /-- Was it made by the interner, rather than on its own? -/
  interned : Bool
  deriving DecidableEq

namespace Binding

/-- The binding of a path with an identity. -/
def of (path : DataPath) (serial : Nat) (interned : Bool) : Binding := ⟨path, path.text, rfl, serial, interned⟩

/-- Make a binding, which takes the next serial number. -/
def make (path : DataPath) (interned : Bool) : StateM Nat Binding := fun serial =>
  (of path serial interned, serial + 1)

def same (a b : Binding) : Bool := a.serial == b.serial

end Binding

/-- The bindings made so far that are still shared, and the next serial number. -/
structure Interner where
  cache : Cache Binding
  nextSerial : Nat
  retired : Bool

namespace Interner

def empty (strategy : Cache.Strategy) : Interner := ⟨.empty strategy, 0, false⟩

def size (i : Interner) : Nat := i.cache.size

/-- The shared binding of a path, made on first use. -/
def intern (path : DataPath) (i : Interner) : Binding × Interner :=
  let ((b, cache), nextSerial) := (i.cache.getOrInsert path.tagged (Binding.make path true)).run i.nextSerial
  (b, { i with cache, nextSerial })

/-- A binding of its own. -/
def standalone (path : DataPath) (i : Interner) : Binding × Interner :=
  let (b, nextSerial) := (Binding.make path false).run i.nextSerial
  (b, { i with nextSerial })

/-- A binding of another path, made the way `b` was made. -/
def derive (b : Binding) (path : DataPath) (i : Interner) : Binding × Interner :=
  if b.interned ∧ !i.retired then i.intern path else i.standalone path

def parent (b : Binding) (i : Interner) : Binding × Interner := i.derive b b.path.parent

/-- The binding of a path below. -/
def descend (b : Binding) (below : DataPath) (i : Interner) : Binding × Interner :=
  i.derive b (b.path.descend below)

/-- The interner without shared bindings; serial numbers go on. -/
def clear (i : Interner) : Interner := { i with cache := i.cache.clear }

/-- The interner at the end of its use. -/
def retire (i : Interner) : Interner := { i with retired := true }

end Interner

end DataBound
