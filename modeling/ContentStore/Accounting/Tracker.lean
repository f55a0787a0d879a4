import ContentStore.Error

/-!
# Bytes and chunks against a budget

A tracker counts the chunks of a store and their bytes.  Its counts are words: an addition stops at
the largest word and a subtraction at zero.  Capacity zero means no limit.
-/

namespace ContentStore

/-- A number of chunks and the number of their bytes. -/
structure Totals where
  count : Nat
  size : Nat
deriving Repr, DecidableEq

namespace Totals

def zero : Totals := ⟨0, 0⟩

def add (a b : Totals) : Totals := ⟨a.count + b.count, a.size + b.size⟩

def one (size : Nat) : Totals := ⟨1, size⟩

end Totals

/-- The counts of a store and its capacity. -/
structure Tracker where
  capacity : Nat
  count : Nat
  size : Nat
deriving Repr, DecidableEq

namespace Tracker

open Decimal (wordLimit wordMax)

def new (capacity : Nat) : Tracker := ⟨capacity, 0, 0⟩

def setCapacity (t : Tracker) (capacity : Nat) : Tracker := { t with capacity := capacity }

/-- Whether there is room for that many more bytes: the new total is a word within the capacity. -/
def hasRoom (t : Tracker) (additional : Nat) : Bool :=
  t.capacity = 0 || (t.size + additional < wordLimit && t.size + additional ≤ t.capacity)

/-- Refuses what there is no room for. -/
def ensureRoom (t : Tracker) (additional : Nat) : Except StoreError Unit :=
  if t.hasRoom additional then .ok ()
  else .error (.capacityExceeded additional (t.capacity - t.size))

def add (t : Tracker) (size : Nat) : Tracker :=
  { t with count := t.count + 1, size := min (t.size + size) wordMax }

def remove (t : Tracker) (size : Nat) : Tracker :=
  { t with count := t.count - 1, size := t.size - size }

/-- Takes other counts and keeps the capacity. -/
def reset (t : Tracker) (totals : Totals) : Tracker :=
  { t with count := totals.count, size := totals.size }

def clear (t : Tracker) : Tracker := t.reset .zero

def totals (t : Tracker) : Totals := ⟨t.count, t.size⟩

end Tracker

end ContentStore
