import ContentStore.Chunk.Mode
import ContentStore.Digest.Hasher
import ContentStore.Store.Interface

/-!
# Stores in memory

A memory store keeps its chunks in a table.  It needs no root, so it refuses nothing for the lack of
one, and nothing survives it.
-/

namespace ContentStore

structure Held where
  content : Bytes
  count : Nat
deriving Repr, DecidableEq

/-- A store that keeps its chunks in a table. -/
structure MemoryStore where
  mode : Mode
  hasher : Hasher
  /-- The chunks by name; no name occurs twice. -/
  chunks : List (Bytes × Held)
  tracker : Tracker

namespace MemoryStore

def new (counting : Bool) (hasher : Hasher) : MemoryStore :=
  ⟨.ofCounting counting, hasher, [], .new 0⟩

def find? (s : MemoryStore) (name : Bytes) : Option Held := s.chunks.lookup name

def without (s : MemoryStore) (name : Bytes) : List (Bytes × Held) :=
  s.chunks.filter fun c => c.1 ≠ name

def names (s : MemoryStore) : List Bytes := (s.chunks.map Prod.fst).mergeSort Bytes.le

/-- Stores a content.  A chunk that is there already gets one more reference and keeps its own
content. -/
def store (s : MemoryStore) (name content : Bytes) : Except StoreError MemoryStore := do
  if name = [] then throw .emptyName
  if content = [] then throw .emptyContent
  match s.find? name with
  | some held =>
    if s.mode.isCounted then
      return { s with chunks := (name, { held with count := held.count + 1 }) :: s.without name }
    else return s
  | none =>
    s.tracker.ensureRoom content.length
    return { s with
      chunks := (name, ⟨content, 1⟩) :: s.chunks
      tracker := s.tracker.add content.length }

def sourceContent (source : Path) : Attempt Bytes := do
  match (← Action.tree).read source with
  | .ok content => return content
  | .error .notFound => throw (.sourceMissing source)
  | .error fault => throw (.file fault)

variable [FileSystem]

/-- Stores the content of a file and removes the file if asked to.  A file that cannot be removed is
an error, although its content is stored. -/
def storeFile (s : MemoryStore) (name : Bytes) (source : Path) (deleteSource : Bool) :
    Action (Except StoreError Unit × MemoryStore) := do
  let stored : Attempt MemoryStore := do s.store name (← sourceContent source)
  match ← stored.run with
  | .error e => return (.error e, s)
  | .ok s =>
    if deleteSource then
      match ← (Request.unlink source).run with
      | .error fault => return (.error (.file fault), s)
      | .ok () => return (.ok (), s)
    else return (.ok (), s)

def get (s : MemoryStore) (name : Bytes) : Except StoreError Bytes :=
  match s.find? name with
  | some held => .ok held.content
  | none => .error (.missing name)

/-- Drops one reference to a chunk; there need not be one. -/
def delete (s : MemoryStore) (name : Bytes) : MemoryStore :=
  match s.find? name with
  | none => s
  | some held =>
    if s.mode.isCounted ∧ 1 < held.count then
      { s with chunks := (name, { held with count := held.count - 1 }) :: s.without name }
    else
      { s with
        chunks := s.without name
        tracker := s.tracker.remove held.content.length }

def getToFile (s : MemoryStore) (name : Bytes) (target : Path) : Attempt Unit := do
  let content ← s.get name
  Request.write target content

/-- Hands a chunk over to a sink and drops the reference to it. -/
def moveTo {τ : Type} [Sink τ] (s : MemoryStore) (name : Bytes) (sink : τ) :
    Action (Except StoreError MemoryStore × τ) := do
  match s.get name with
  | .error e => return (.error e, sink)
  | .ok content =>
    let (taken, sink) ← Sink.store sink name content
    if taken then return (.ok (s.delete name), sink) else return (.error (.refused name), sink)

def moveToSelf (s : MemoryStore) (name : Bytes) : Except StoreError Unit := do
  let _ ← s.get name

/-! ### As a chunk store -/

instance : ChunkStore MemoryStore where
  store s name content := Attempt.settled .store name s (s.store name content)
  storeFile s name source deleteSource := do
    let (result, s) ← s.storeFile name source deleteSource
    return ((← Attempt.outcome .storeFile name result).isSome, s)
  get s name := return (← Attempt.outcome .get name (s.get name)).getD []
  getToFile s name target := return (← (s.getToFile name target).reported .getToFile name).isSome
  delete s name := return (true, s.delete name)
  moveTo s name sink := do
    let (result, sink) ← s.moveTo name sink
    match ← Attempt.outcome .moveTo name result with
    | some after => return (true, after, sink)
    | none => return (false, s, sink)
  moveToSelf s name := return (← Attempt.outcome .moveTo name (s.moveToSelf name)).isSome
  has s name := return (s.find? name).isSome
  validate s name := return match s.find? name with
    | some held => s.hasher.verify held.content name
    | none => false
  chunkSize s name := return match s.find? name with
    | some held => held.content.length
    | none => 0
  references s name := return match s.find? name with
    | some held => held.count
    | none => 0
  size s := s.tracker.size
  count s := s.tracker.count
  capacity s := s.tracker.capacity
  setCapacity s capacity := { s with tracker := s.tracker.setCapacity capacity }
  clear s := return { s with chunks := [], tracker := s.tracker.clear }

def description (s : MemoryStore) : String :=
  "MemoryChunkStore \x7b reference_counting: " ++ Event.truth s.mode.isCounted
    ++ ", chunk_count: " ++ toString s.tracker.count ++ " \x7d"

end MemoryStore

end ContentStore
