/-!
# What a TOML document has defined

A key may be defined once, and a table may be opened once.  The registry keeps, for the key of every
value and table, what it stands for, so that each definition can be checked when it is met.

The last table of an array of tables is the only one that later lines can reach, so it is the only
one that is kept.
-/

namespace ContentStore.Toml

/-- A value, as far as a store can be set to it. -/
inductive Value where
  | text (s : String)
  | integer (n : Int)
  | boolean (b : Bool)
  /-- A number with a fraction, a moment, an array or a table between braces. -/
  | other
deriving Repr, DecidableEq

/-- What a key stands for. -/
inductive Slot where
  | value (v : Value)
  /-- A table: one that is `implicit` has not been opened by a line of its own, and one that is
  `dotted` was made by the dots of the key of a value. -/
  | table (implicit dotted : Bool)
  /-- An array of tables. -/
  | tables
deriving Repr, DecidableEq

/-- What the keys met so far stand for. -/
abbrev Registry := List (List String × Slot)

namespace Registry

def slot? (r : Registry) (key : List String) : Option Slot := r.lookup key

/-- Goes from the table at `base` along the parts of a key and makes the tables that are missing.
The dots of the key of a value lead into no table that a line of its own has opened. -/
def descend (dotted : Bool) (base : List String) : List String → Registry → Option Registry
  | [], r => some r
  | part :: parts, r =>
    let key := base ++ [part]
    match r.slot? key with
    | none => descend dotted key parts ((key, .table true dotted) :: r)
    | some (.value _) => none
    | some .tables => descend dotted key parts r
    | some (.table implicit _) =>
      if dotted && !implicit then none else descend dotted key parts r

def define (base key : List String) (v : Value) (r : Registry) : Option Registry := do
  let r ← descend true base key.dropLast r
  if key.length = 1 ∨ r.slot? (base ++ key.dropLast) = some (.table true true) then
    if (r.slot? (base ++ key)).isSome then none else some ((base ++ key, .value v) :: r)
  else none

def openTable (key : List String) (r : Registry) : Option Registry := do
  let r ← descend false [] key.dropLast r
  match r.slot? key with
  | none => some ((key, .table false false) :: r)
  | some (.table true false) => some ((key, .table false false) :: r)
  | some _ => none

/-- Opens the next table of an array of tables. -/
def openNext (key : List String) (r : Registry) : Option Registry := do
  let r ← descend false [] key.dropLast r
  match r.slot? key with
  | none => some ((key, .tables) :: r)
  | some .tables => some ((key, .tables) :: r.filter fun e => !key.isPrefixOf e.1)
  | some _ => none

end Registry

end ContentStore.Toml
