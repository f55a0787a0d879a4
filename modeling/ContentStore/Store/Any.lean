import ContentStore.Store.File
import ContentStore.Store.Fixed
import ContentStore.Store.Memory

/-!
# Stores of any kind

Where stores of several kinds stand side by side, each operation goes to the store of its kind.
-/

namespace ContentStore

inductive AnyStore where
  | file (s : FileStore)
  | memory (s : MemoryStore)
  | fixed (s : FixedStore)

namespace AnyStore

def after {α σ : Type} (kind : σ → AnyStore) (a : Action (α × σ)) : Action (α × AnyStore) := do
  let (x, s) ← a
  return (x, kind s)

variable [FileSystem]

def apply {α : Type} (f : {σ : Type} → [ChunkStore σ] → σ → α) : AnyStore → α
  | .file s => f s
  | .memory s => f s
  | .fixed s => f s

def update {α : Type} (f : {σ : Type} → [ChunkStore σ] → σ → Action (α × σ)) :
    AnyStore → Action (α × AnyStore)
  | .file s => after .file (f s)
  | .memory s => after .memory (f s)
  | .fixed s => after .fixed (f s)

instance : ChunkStore AnyStore where
  store s name content := s.update fun s => Sink.store s name content
  storeFile s name source deleteSource :=
    s.update fun s => Sink.storeFile s name source deleteSource
  get s name := s.apply fun s => ChunkStore.get s name
  getToFile s name target := s.apply fun s => ChunkStore.getToFile s name target
  delete s name := s.update fun s => ChunkStore.delete s name
  moveTo s name sink := do
    let ((done, sink), s) ← s.update fun s => do
      let (done, s, sink) ← ChunkStore.moveTo s name sink
      return ((done, sink), s)
    return (done, s, sink)
  moveToSelf s name := s.apply fun s => ChunkStore.moveToSelf s name
  has s name := s.apply fun s => ChunkStore.has s name
  validate s name := s.apply fun s => ChunkStore.validate s name
  chunkSize s name := s.apply fun s => ChunkStore.chunkSize s name
  references s name := s.apply fun s => ChunkStore.references s name
  size s := s.apply ChunkStore.size
  count s := s.apply ChunkStore.count
  capacity s := s.apply ChunkStore.capacity
  isEmpty s := s.apply ChunkStore.isEmpty
  setCapacity
    | .file s, n => .file (ChunkStore.setCapacity s n)
    | .memory s, n => .memory (ChunkStore.setCapacity s n)
    | .fixed s, n => .fixed (ChunkStore.setCapacity s n)
  clear s := do
    let ((), s) ← s.update fun s => return ((), ← ChunkStore.clear s)
    return s

/-! ### Operations that say why they fail

A fixed store never says why. -/

/-- Why there is no answer of a kind of store that has none. -/
def unanswered {α : Type} : Except StoreError α := .error .notInitialized

def get (s : AnyStore) (name : Bytes) : Attempt Bytes :=
  match s with
  | .file s => s.get name
  | .memory s => s.get name
  | .fixed _ => (unanswered : Except StoreError Bytes)

def store (s : AnyStore) (name content : Bytes) : Action (Except StoreError Unit × AnyStore) := do
  match s with
  | .file s =>
    match ← (s.store name content).run with
    | .ok s => return (.ok (), .file s)
    | .error e => return (.error e, .file s)
  | .memory s =>
    match s.store name content with
    | .ok s => return (.ok (), .memory s)
    | .error e => return (.error e, .memory s)
  | .fixed s => return (unanswered, .fixed s)

def storeFile (s : AnyStore) (name : Bytes) (source : Path) (deleteSource : Bool) :
    Action (Except StoreError Unit × AnyStore) := do
  match s with
  | .file s =>
    match ← (s.storeFile name source deleteSource).run with
    | .ok s => return (.ok (), .file s)
    | .error e => return (.error e, .file s)
  | .memory s => after .memory (s.storeFile name source deleteSource)
  | .fixed s => return (unanswered, .fixed s)

/-- Hands a chunk over to a sink. -/
def moveTo {τ : Type} [Sink τ] (s : AnyStore) (name : Bytes) (sink : τ) :
    Action (Except StoreError Unit × AnyStore × τ) := do
  match s with
  | .file s =>
    match ← s.moveTo name sink with
    | (.ok s, sink) => return (.ok (), .file s, sink)
    | (.error e, sink) => return (.error e, .file s, sink)
  | .memory s =>
    match ← s.moveTo name sink with
    | (.ok s, sink) => return (.ok (), .memory s, sink)
    | (.error e, sink) => return (.error e, .memory s, sink)
  | .fixed s => return (unanswered, .fixed s, sink)

def moveToSelf (s : AnyStore) (name : Bytes) : Attempt Unit :=
  match s with
  | .file s => s.moveToSelf name
  | .memory s => s.moveToSelf name
  | .fixed _ => (unanswered : Except StoreError Unit)

end AnyStore

end ContentStore
