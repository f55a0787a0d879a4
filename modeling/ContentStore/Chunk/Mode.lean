import ContentStore.Chunk.Layout

/-!
# Chunk files

A plain store keeps a chunk in a file named by its stem.  A counted store adds a dot and the number
of references, which is at least one; so the two never take each other's files for their own, and a
hidden file belongs to neither.
-/

namespace ContentStore

/-- How the files of a store are named. -/
inductive Mode where
  | plain
  | counted
deriving Repr, DecidableEq

/-- Whether a file name could be a stem. -/
def isStem (name : Bytes) : Bool := name ≠ [] && name.all Hex.isDigit

namespace Mode

def ofCounting (counting : Bool) : Mode := if counting then .counted else .plain

def isCounted (m : Mode) : Bool := m = .counted

/-- The number of references that a file name stands for; none if it is no chunk in this mode. -/
def classify (m : Mode) (name : Bytes) : Option Nat :=
  if name.head? = some Bytes.dot then none
  else
    match m with
    | .plain => if isStem name then some 1 else none
    | .counted =>
      match Bytes.splitLast Bytes.dot name with
      | none => none
      | some (stem, count) =>
        if count ≠ [] ∧ count.all Decimal.isDigit ∧ isStem stem then
          match Decimal.leadingNumber count with
          | 0 => none
          | n => some n
        else none

/-- The path of a chunk that holds `count` references. -/
def path (m : Mode) (l : Location) (count : Nat) : Path :=
  match m with
  | .plain => l.plainPath
  | .counted => l.countedPath count

end Mode

end ContentStore
