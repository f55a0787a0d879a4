import ContentStore.Chunk.Mode
import ContentStore.Workspace

/-!
# Counting the chunks below a directory

A scan walks all that lies below a directory and counts every file whose name is that of a chunk, in
one mode.  The number of references in a name does not matter: a file counts once.  A directory or a
file whose path is too long to be used is passed over and reported.
-/

namespace ContentStore

inductive Sighting where
  /-- A chunk file of that many bytes. -/
  | chunk (size : Nat)
  /-- A directory that cannot be listed. -/
  | unreadable
  /-- A chunk file whose size cannot be asked for. -/
  | sizeless (path : Path)
deriving Repr, DecidableEq

namespace Sighting

def totals : Sighting → Totals
  | chunk size => .one size
  | _ => .zero

/-- What is reported of a sighting in a walk below `root`. -/
def event? (root : Path) : Sighting → Option Event
  | chunk _ => none
  | unreadable => some (.entrySkipped root)
  | sizeless path => some (.sizeUnknown path)

end Sighting

namespace Scan

/-- What a file comes to. -/
def sight (m : Mode) (path : Path) (name content : Bytes) : List Sighting :=
  if (m.classify name).isNone then []
  else if path.isTooLong then [.sizeless path]
  else [.chunk content.length]

/-- What lies in a listing and all below it, where `path` is the path of the listing.  A directory
whose path is too long cannot be listed. -/
def walk (m : Mode) (path : Path) : Listing → List Sighting
  | .nil => []
  | .file name content rest => sight m (path.join name) name content ++ walk m path rest
  | .dir name inner rest =>
    (if (path.join name).isTooLong then [.unreadable] else walk m (path.join name) inner)
      ++ walk m path rest

/-- What lies below a path, or is there; nothing if the path leads nowhere. -/
def sightings? (m : Mode) (t : Tree) (root : Path) : Option (List Sighting) :=
  match t.stat root with
  | .error _ => none
  | .ok (.dir inner) => some (walk m root inner)
  | .ok (.file content) => some (sight m root (root.fileName?.getD root.bytes) content)

def totals (sightings : List Sighting) : Totals :=
  sightings.foldr (fun s sum => s.totals.add sum) .zero

/-- The chunks below a path, in one mode. -/
def count (m : Mode) (t : Tree) (root : Path) : Totals :=
  match sightings? m t root with
  | none => .zero
  | some sightings => totals sightings

/-- Counts the chunks below a path and reports what was found. -/
def run (m : Mode) (root : Path) : Action Totals := do
  let t ← Action.tree
  match sightings? m t root with
  | none => Action.report (.rootUnreadable root)
  | some sightings =>
    (sightings.filterMap (Sighting.event? root)).forM Action.report
    Action.report (.recovered root (totals sightings))
  return count m t root

end Scan

end ContentStore
