import ContentStore.Chunk.Mode
import ContentStore.Workspace

/-!
# Finding chunks and counting their references

A plain chunk is found by its path.  A counted chunk is found by its stem among the files of its
directory, because its name says how many references it holds; taking or dropping a reference
renames the file, and dropping the last one removes it.
-/

namespace ContentStore

structure Entry where
  path : Path
  /-- The references that it holds; one for a plain chunk. -/
  count : Nat
  /-- The number of its bytes. -/
  size : Nat
deriving Repr, DecidableEq

namespace Location

/-- The entry that a name in the directory of a location stands for, if it is the counted chunk with
its stem. -/
def chunkOf? (l : Location) (name : Bytes) : Node → Option Entry
  | .dir _ => none
  | .file content =>
    if l.stem.isPrefixOf name ∧ (name.drop l.stem.length).head? = some Bytes.dot then
      (Mode.counted.classify name).map fun count => ⟨l.dir.join name, count, content.length⟩
    else none

/-- The counted chunk in a listing of the directory of a location. -/
def pick (l : Location) (listing : List (Bytes × Node)) : Option Entry :=
  listing.findSome? fun (name, node) => l.chunkOf? name node

end Location

namespace Mode

/-- The chunk at a location.  A missing file or directory only means that there is none. -/
def find (m : Mode) (l : Location) (t : Tree) : Except Fault (Option Entry) :=
  match m with
  | .plain =>
    match t.stat l.plainPath with
    | .ok (.file content) => .ok (some ⟨l.plainPath, 1, content.length⟩)
    | .ok (.dir _) => .ok none
    | .error .notFound => .ok none
    | .error fault => .error fault
  | .counted =>
    match t.list l.dir with
    | .ok inner => .ok (l.pick inner.toList)
    | .error .notFound => .ok none
    | .error fault => .error fault

variable [FileSystem]

/-- Takes one more reference.  The answer is the number of references from then on. -/
def acquire (m : Mode) (l : Location) (e : Entry) : Attempt Nat := do
  match m with
  | .plain => return 1
  | .counted =>
    let count := e.count + 1
    Request.rename e.path (m.path l count)
    Action.report (.acquired l.stem count)
    return count

/-- Drops one reference.  The answer is the number of references left; the file of a chunk with none
is removed. -/
def release (m : Mode) (l : Location) (e : Entry) : Attempt Nat := do
  if m.isCounted ∧ 1 < e.count then
    let count := e.count - 1
    Request.rename e.path (m.path l count)
    Action.report (.released l.stem count)
    return count
  else
    Request.unlink e.path
    Action.report (.fileRemoved l.stem)
    return 0

end Mode

/-- The path of a chunk without a count, after making its directory if asked to. -/
def Layout.plainPath [FileSystem] (l : Layout) (name : Bytes) (create : Bool) : Attempt Path := do
  let location ← l.locate name
  if create then Request.makeDirs location.dir
  return location.plainPath

end ContentStore
