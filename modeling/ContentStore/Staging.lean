import ContentStore.Workspace

/-!
# Files that appear whole

A content is first written to a hidden file next to its place and then renamed, so nobody finds a
part of it under its own name.  If anything goes wrong the hidden file is removed.
-/

namespace ContentStore

namespace Staging

def hiddenName (n : Nat) : Bytes :=
  let digits := Decimal.render n
  Bytes.ofText ".tmp" ++ List.replicate (6 - digits.length) 48 ++ digits

/-- A hidden name that is not taken. -/
def freeName (taken : List Bytes) : Bytes :=
  (((List.range (taken.length + 1)).map hiddenName).find? fun name => !taken.contains name).getD
    (hiddenName 0)

/-- A hidden file: the path it is reached by and its key. -/
structure Hidden where
  path : Path
  key : Key
deriving Repr, DecidableEq

variable [FileSystem]

/-- A new and empty hidden file in a directory. -/
def newHidden (dir : Path) : Request Hidden := do
  let t ← Action.tree
  let taken := match t.list dir with
    | .ok inner => inner.names
    | .error _ => []
  let path := dir.join (freeName taken)
  let key ← Request.ask (·.planCreate path)
  Action.commit (.create key)
  return ⟨path, key⟩

/-- Gives a hidden file its name, or removes it. -/
def finish (h : Hidden) (target : Path) : Attempt Unit := do
  match (← Action.tree).planRename h.path target with
  | .ok c => Action.commit c
  | .error fault =>
    Action.commit (.remove h.key)
    throw (.persist fault)

/-- A file with the given content appears at `target` by way of a hidden file in `dir`. -/
def write (dir target : Path) (content : Bytes) : Attempt Unit := do
  let h ← newHidden dir
  Request.fill h.key content
  finish h target

/-- A copy of a file appears at `target` by way of a hidden file in `dir`.  The answer is the number
of bytes copied. -/
def copy (dir source target : Path) : Attempt Nat := do
  let node ← Request.ask (·.stat source)
  let h ← newHidden dir
  match node with
  | .dir _ =>
    Action.commit (.remove h.key)
    throw (.file .isADirectory)
  | .file content =>
    Request.fill h.key content
    finish h target
    return content.length

end Staging

end ContentStore
