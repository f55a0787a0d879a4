import ContentStore.Path
import ContentStore.Tree.Basic

/-!
# Paths of a tree

The paths of the files and directories of a tree, from its top, in the order of their bytes.
-/

namespace ContentStore

def Key.path (k : Key) : Path := ⟨Bytes.joinWith Bytes.slash k.reverse⟩

namespace Tree

def filePaths (t : Tree) : List (Path × Nat) :=
  (t.files.map fun (k, content) => (k.path, content.length)).mergeSort fun a b =>
    Bytes.le a.1.bytes b.1.bytes

def dirPaths (t : Tree) : List Path :=
  (t.dirs.map Key.path).mergeSort fun a b => Bytes.le a.bytes b.bytes

end Tree

end ContentStore
