import ContentStore.Store.Any
import ContentStore.Store.Call
import ContentStore.Tree.Paths

/-!
# Sessions

A session is a number of stores that work in one workspace, each under an identifier.
-/

namespace ContentStore

/-- Stores under identifiers, and the workspace they work in. -/
structure Session where
  stores : List (String × AnyStore)
  workspace : Workspace

namespace Session

def fresh : Session := ⟨[], .bare⟩

def store? (s : Session) (id : String) : Option AnyStore := s.stores.lookup id

def put (s : Session) (id : String) (store : AnyStore) : Session :=
  { s with stores := (id, store) :: s.stores.filter fun e => e.1 ≠ id }

def run {α : Type} (a : Action α) : StateM Session α := fun s =>
  let (x, w) := Id.run (a s.workspace)
  (x, { s with workspace := w })

/-- Runs on a store and puts the store that comes out in its place. -/
def runOn {α : Type} (id : String) (f : AnyStore → Action (α × AnyStore)) :
    StateM Session (Option α) := do
  match (← get).store? id with
  | none => return none
  | some store =>
    let (x, store) ← run (f store)
    modify (·.put id store)
    return some x

variable [FileSystem]

def call (id : String) (c : Call) : StateM Session (Option Answer) := runOn id fun s => c.run s

def runOnBoth {α : Type} (id sinkId : String) (self : AnyStore → Action α)
    (other : AnyStore → AnyStore → Action (α × AnyStore × AnyStore)) :
    StateM Session (Option α) := do
  if id = sinkId then runOn id fun store => return (← self store, store)
  else
    match (← get).store? id, (← get).store? sinkId with
    | some store, some sink =>
      let (x, store, sink) ← run (other store sink)
      modify fun s => (s.put id store).put sinkId sink
      return some x
    | _, _ => return none

/-- Hands a chunk of one store over to another, or to itself. -/
def moveTo (id : String) (name : Bytes) (sinkId : String) : StateM Session (Option Bool) :=
  runOnBoth id sinkId (fun store => ChunkStore.moveToSelf store name)
    fun store sink => ChunkStore.moveTo store name sink

/-- Hands a chunk of one store over to another, or to itself, and says why it fails. -/
def tryMoveTo (id : String) (name : Bytes) (sinkId : String) :
    StateM Session (Option (Except StoreError Unit)) :=
  runOnBoth id sinkId (fun store => (store.moveToSelf name).run)
    fun store sink => store.moveTo name sink

end Session

end ContentStore
