import ContentStore.Event
import ContentStore.Tree.Change

/-!
# The workspace

The workspace is the file tree that stores and their callers share, with every change made to it and
every event reported in it so far, oldest first.  An action runs in it; a request may be refused by
the file system, and an attempt may fail for any reason that a store has.  An action that fails
keeps the changes that it has made.  The lemmas `commit_apply` to `run_file` say what the parts of an
action do to the workspace it runs in.
-/

namespace ContentStore

/-- The file tree, the changes made to it and the events reported. -/
structure Workspace where
  tree : Tree
  changes : List Change
  events : List Event

def Workspace.bare : Workspace := ⟨.bare, [], []⟩

/-- What runs in a workspace. -/
abbrev Action := StateM Workspace

/-- An action that the file system may refuse. -/
abbrev Request := ExceptT Fault Action

/-- An action that a store may fail to do. -/
abbrev Attempt := ExceptT StoreError Action

instance : MonadLift Request Attempt := ⟨ExceptT.adapt StoreError.file⟩

namespace Action

def commit (c : Change) : Action Unit :=
  modify fun w => { w with tree := w.tree.apply c, changes := w.changes ++ [c] }

def report (e : Event) : Action Unit :=
  modify fun w => { w with events := w.events ++ [e] }

def tree : Action Tree := return (← get).tree

end Action

namespace Request

def ask {α : Type} (f : Tree → Except Fault α) : Request α := ExceptT.mk (return f (← Action.tree))

/-- Makes the change that a plan comes to. -/
def perform (plan : Tree → Except Fault Change) : Request Unit := do
  Action.commit (← ask plan)

end Request

/-! ### What the parts of an action do -/

namespace Action

variable {ε α β : Type}

theorem pure_apply (x : α) (w : Workspace) : (pure x : Action α) w = (x, w) := rfl

theorem bind_apply (a : Action α) (f : α → Action β) (w : Workspace) :
    (a >>= f) w = f (a w).1 (a w).2 := rfl

theorem run_pure (x : α) (w : Workspace) : (pure x : ExceptT ε Action α).run w = (.ok x, w) := rfl

theorem run_throw (e : ε) (w : Workspace) :
    (throw e : ExceptT ε Action α).run w = (.error e, w) := rfl

theorem run_bind (a : ExceptT ε Action α) (f : α → ExceptT ε Action β) (w : Workspace) :
    (a >>= f).run w = match a.run w with
      | (.ok x, w) => (f x).run w
      | (.error e, w) => (.error e, w) := by
  show (match (a w).1 with | .ok x => f x | .error e => pure (.error e) : Action _) (a w).2 = _
  rcases h : a.run w with ⟨x | x, v⟩ <;> rw [show a w = _ from h] <;> rfl

theorem run_lift (a : Action α) (w : Workspace) :
    (liftM a : ExceptT ε Action α).run w = (.ok (a w).1, (a w).2) := rfl

theorem run_except (x : Except ε α) (w : Workspace) :
    (liftM x : ExceptT ε Action α).run w = (x, w) := by
  cases x <;> rfl

theorem run_ask (f : Tree → Except Fault α) (w : Workspace) :
    (Request.ask f).run w = (f w.tree, w) := rfl

theorem run_file (r : Request α) (w : Workspace) :
    (liftM r : Attempt α).run w = match r.run w with
      | (.ok x, w) => (.ok x, w)
      | (.error fault, w) => (.error (.file fault), w) := by
  show ((r w).1.mapError _, (r w).2) = _
  rcases h : r.run w with ⟨x | x, v⟩ <;> rw [show r w = _ from h] <;> rfl

end Action

namespace Request

variable [FileSystem]

/-! ### Directories -/

/-- Makes a directory unless there is one. -/
def makeUnlessDir (p : Path) : Request Unit := do
  let t ← Action.tree
  match t.planMakeDir p with
  | .ok c => Action.commit c
  | .error fault => if t.leadsToDir p then pure () else throw fault

/-- Makes a directory, and first the nearest of the given ones above it if that one is missing. -/
def makeDirFrom (p : Path) : List Path → Request Unit
  | [] => if p = .blank then pure () else makeUnlessDir p
  | parent :: parents => do
    match (← Action.tree).planMakeDir p with
    | .error .notFound => makeDirFrom parent parents
    | _ => pure ()
    makeUnlessDir p

/-- Makes a directory and those above it. -/
def makeDirs (p : Path) : Request Unit := makeDirFrom p p.parents

/-! ### Files -/

/-- Adds a content to the end of a file, piece by piece. -/
def fill (k : Key) (content : Bytes) : Action Unit :=
  (content.inPieces Bytes.pieceSize).forM fun piece => Action.commit (.append k piece)

/-- Makes a file with the given content, in place of the file that was there. -/
def write (p : Path) (content : Bytes) : Request Unit := do
  let k ← ask (·.planCreate p)
  Action.commit (.create k)
  fill k content

def unlink (p : Path) : Request Unit := perform (·.planUnlink p)

def rename (old new : Path) : Request Unit := perform (·.planRename old new)

/-! ### Directories with all that is in them -/

def removeKeys (keys : List Key) : Action Unit := keys.forM fun k => Action.commit (.remove k)

/-- Removes what the directory with the given key lists, up to the first entry that cannot be
removed. -/
def removeAll (k : Key) (inner : Listing) : Request Unit := do
  removeKeys (inner.clearing k).1
  if let some fault := (inner.clearing k).2 then throw fault

/-- Removes a directory and all that lies in it.  A directory named by dots is emptied and stays. -/
def removeDir (p : Path) : Request Unit := do
  let s ← ask (·.spot p)
  match s.last with
  | .here =>
    removeAll s.dir s.inner
    throw .invalidInput
  | .up =>
    match (← Action.tree).node? s.dir.tail with
    | some (.dir inner) => removeAll s.dir.tail inner
    | _ => pure ()
    throw .directoryNotEmpty
  | .name name =>
    match ← ask fun _ => s.lookup name with
    | none => throw .notFound
    | some (.file _) => throw .notADirectory
    | some (.dir inner) => removeAll s.dir (.dir name inner .nil)

/-- Removes what the directory at a path lists, one after the other, up to the first that cannot be
removed. -/
def emptyDir (p : Path) : Request Unit := do
  (← ask (·.list p)).toList.forM fun (name, node) =>
    match node with
    | .dir _ => removeDir (p.join name)
    | .file _ => unlink (p.join name)

end Request

namespace Attempt

/-- Whether a request was granted; what it was refused for is not looked at. -/
def granted (r : Request Unit) : Action Bool := return (← r.run).isOk

/-- The result of an operation on the chunk with a name, after reporting why there is none. -/
def outcome {α : Type} (op : Operation) (name : Bytes) : Except StoreError α → Action (Option α)
  | .ok x => return some x
  | .error e => do
    Action.report (.ofError op name e)
    return none

/-- The result of an attempt, after reporting why there is none. -/
def reported {α : Type} (op : Operation) (name : Bytes) (a : Attempt α) : Action (Option α) := do
  outcome op name (← a.run)

/-- A store after an operation on it: the store that the attempt gives, or the same as before. -/
def settled {σ : Type} (op : Operation) (name : Bytes) (before : σ) (a : Attempt σ) :
    Action (Bool × σ) := do
  match ← a.reported op name with
  | some after => return (true, after)
  | none => return (false, before)

end Attempt

end ContentStore
