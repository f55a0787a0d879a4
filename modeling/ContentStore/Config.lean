import ContentStore.Chunk.Layout
import ContentStore.Toml.Document

/-!
# Settings of a file store

What a document does not say is taken from the settings that a store has otherwise; what it says
beside is ignored.
-/

namespace ContentStore

structure Config where
  root : Path
  depth : Nat
  counting : Bool
  capacity : Nat
deriving Repr, DecidableEq

namespace Config

def standard : Config := ⟨Path.ofText "chunks", Layout.defaultDepth, false, 0⟩

def ofRoot (root : Path) : Config := { standard with root := root }

/-- Whether a number can be a size or a depth. -/
def natural? : Toml.Slot → Option Nat
  | .value (.integer n) => if 0 ≤ n then some n.toNat else none
  | _ => none

def path? : Toml.Slot → Option Path
  | .value (.text s) => some (Path.ofText s)
  | _ => none

def boolean? : Toml.Slot → Option Bool
  | .value (.boolean b) => some b
  | _ => none

/-- The setting under a key, or the one given; nothing if the key stands for something else. -/
def setting {α : Type} (r : Toml.Registry) (key : String) (use : Toml.Slot → Option α) (other : α) :
    Option α :=
  match r.slot? [key] with
  | none => some other
  | some slot => use slot

def ofDocument? (text : String) : Option Config := do
  let r ← Toml.read text
  return {
    root := ← setting r "root" path? standard.root
    depth := ← setting r "shard_depth" natural? standard.depth
    counting := ← setting r "reference_counting" boolean? standard.counting
    capacity := ← setting r "capacity" natural? standard.capacity }

/-- The settings of a document, or why there are none. -/
def ofDocument (text : String) : Except StoreError Config :=
  match ofDocument? text with
  | some c => .ok c
  | none => .error .config

end Config

end ContentStore
