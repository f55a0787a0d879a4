import ContentStore.Tree.FileSystem
import ContentStore.Tree.Resolve

/-!
# Single changes of a tree

A request is first planned: it comes to one change or to a fault, and a fault changes nothing.  What
the shape of the tree allows may still be refused because a directory is shut or lies on another
volume.  A change is then applied.  Whatever is left behind when a longer operation stops half way is
the result of some of its changes.
-/

namespace ContentStore

/-- One change of a file tree. -/
inductive Change where
  /-- An empty directory appears. -/
  | makeDir (k : Key)
  /-- An empty file appears, or a file becomes empty. -/
  | create (k : Key)
  /-- Bytes are added to the end of a file. -/
  | append (k : Key) (bytes : Bytes)
  /-- An entry takes another key, in place of what was there. -/
  | rename (old new : Key)
  /-- An entry and all that lies below it disappear. -/
  | remove (k : Key)
deriving Repr, DecidableEq

namespace Tree

def apply (t : Tree) : Change → Tree
  | .makeDir k => t.putDir k
  | .create k => t.putFile k []
  | .append k bytes =>
    match t.content? k with
    | some content => t.putFile k (content ++ bytes)
    | none => t
  | .rename old new => t.move old new
  | .remove k => t.remove k

variable [FileSystem]

open FileSystem (shut readOnly volume)

def planMakeDir (t : Tree) (p : Path) : Except Fault Change := do
  let s ← t.spot p
  match s.last with
  | .here | .up => throw .alreadyExists
  | .name name =>
    match ← s.lookup name with
    | some _ => throw .alreadyExists
    | none => if shut s.dir then throw .permissionDenied else return .makeDir (name :: s.dir)

/-- The key of a new file, or of one that may be emptied. -/
def planCreate (t : Tree) (p : Path) : Except Fault Key := do
  let s ← t.spot p
  match s.last with
  | .here | .up => throw .isADirectory
  | .name name =>
    if s.slash then throw .isADirectory
    match ← s.lookup name with
    | some (.dir _) => throw .isADirectory
    | some (.file _) => if readOnly s.dir then throw .permissionDenied else return name :: s.dir
    | none => if shut s.dir then throw .permissionDenied else return name :: s.dir

def planUnlink (t : Tree) (p : Path) : Except Fault Change := do
  let s ← t.spot p
  match s.last with
  | .here | .up => throw .isADirectory
  | .name name =>
    match ← s.lookup name with
    | none => throw .notFound
    | some (.dir _) => throw .isADirectory
    | some (.file _) =>
      if s.slash then throw .notADirectory
      if shut s.dir then throw .permissionDenied
      return .remove (name :: s.dir)

def replaceFault? (node target : Node) : Option Fault :=
  match node, target with
  | .file _, .dir _ => some .isADirectory
  | .dir _, .file _ => some .notADirectory
  | .dir _, .dir inner => if inner = .nil then none else some .directoryNotEmpty
  | .file _, .file _ => none

def isFile : Node → Bool
  | .file _ => true
  | .dir _ => false

/-- A rename, whose two paths have each been followed up to a last name.  An entry that takes its own
place stays what it is. -/
def planRenameAt (s d : Spot) (oldName newName : Bytes) : Except Fault Change := do
  let old : Key := oldName :: s.dir
  let new : Key := newName :: d.dir
  match ← s.lookup oldName with
  | none => throw .notFound
  | some node =>
    let target ← d.lookup newName
    if isFile node && (s.slash || d.slash) then throw .notADirectory
    if Key.isUnder old d.dir then throw .invalidInput
    if Key.isUnder new s.dir then throw .directoryNotEmpty
    if old = new then return .rename old new
    if shut s.dir || shut d.dir then throw .permissionDenied
    match target.bind (replaceFault? node) with
    | some fault => throw fault
    | none => return .rename old new

/-- A rename.  A zero byte in either path is found before either path is followed. -/
def planRename (t : Tree) (oldPath newPath : Path) : Except Fault Change := do
  if newPath.bytes.contains 0 then throw .invalidInput
  let s ← t.spot oldPath
  let d ← t.spot newPath
  if volume s.dir ≠ volume d.dir then throw .crossesDevices
  match s.last, d.last with
  | .name oldName, .name newName => planRenameAt s d oldName newName
  | _, _ => throw .inUse

end Tree

namespace Listing

variable [FileSystem]

open FileSystem (shut volume)

/-- Why an empty directory cannot be removed from the directory `k`. -/
def stuck? (k : Key) (name : Bytes) : Option Fault :=
  if shut k then some .permissionDenied
  else if volume (name :: k) = volume k then none
  else some .inUse

/-- The keys that go when all that the directory `k` lists is removed, one entry after the other up to
the first that cannot be, and why that one stays.  A directory goes after what it lists. -/
def clearing (k : Key) : Listing → List Key × Option Fault
  | nil => ([], none)
  | file name _ rest =>
    if shut k then ([], some .permissionDenied)
    else
      let after := rest.clearing k
      ((name :: k) :: after.1, after.2)
  | dir name inner rest =>
    let below := inner.clearing (name :: k)
    match below.2 <|> stuck? k name with
    | some fault => (below.1, some fault)
    | none =>
      let after := rest.clearing k
      (below.1 ++ (name :: k) :: after.1, after.2)

end Listing

end ContentStore
