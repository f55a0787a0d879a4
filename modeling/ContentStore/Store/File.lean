import ContentStore.Accounting.Scan
import ContentStore.Chunk.Ledger
import ContentStore.Config
import ContentStore.Digest.Hasher
import ContentStore.Staging
import ContentStore.Store.Interface

/-!
# Stores in a file tree

A file store keeps every chunk in a file of its own below its root.  It knows no more than its
settings and its counts: which chunks there are is read off the tree each time, and the counts are
taken from the tree when the store is given its root.

Several stores may share a root.  Before that the store refuses every operation.
-/

namespace ContentStore

/-- A store that keeps its chunks in files. -/
structure FileStore where
  mode : Mode
  hasher : Hasher
  /-- The root and the number of levels, once the store has them. -/
  layout? : Option Layout
  tracker : Tracker

namespace FileStore

def new (counting : Bool) (hasher : Hasher) : FileStore :=
  ⟨.ofCounting counting, hasher, none, .new 0⟩

def isInitialized (s : FileStore) : Bool := s.layout?.isSome

def root? (s : FileStore) : Option Path := s.layout?.map Layout.root

def layout (s : FileStore) : Except StoreError Layout :=
  match s.layout? with
  | some l => .ok l
  | none => .error .notInitialized

variable [FileSystem]

/-! ### Taking a root -/

/-- Makes the directory at a path, if it can be a root. -/
def prepareRoot (root : Path) : Attempt Unit := do
  if root = .blank then throw (.invalidRoot root)
  Request.makeDirs root
  if !(← Action.tree).leadsToDir root then throw (.invalidRoot root)

/-- Takes a root and counts the chunks below it.  If this fails the store has no root, whatever it
had before. -/
def init (s : FileStore) (root : Path) (depth : Nat) :
    Action (Except StoreError Totals × FileStore) := do
  let s := { s with layout? := none, tracker := s.tracker.clear }
  match ← (prepareRoot root).run with
  | .error e => return (.error e, s)
  | .ok () =>
    let found ← Scan.run s.mode root
    Action.report (.initialized root depth s.mode.isCounted found)
    return (.ok found, { s with layout? := some ⟨root, depth⟩, tracker := s.tracker.reset found })

/-- Takes a root; a failure is only reported. -/
def start (s : FileStore) (root : Path) (depth : Nat) : Action (Bool × FileStore) := do
  match ← s.init root depth with
  | (.ok _, s) => return (true, s)
  | (.error _, s) =>
    Action.report (.initFailed root)
    return (false, s)

def «open» (c : Config) (hasher : Hasher) : Attempt FileStore := do
  let s := new c.counting hasher
  match ← { s with tracker := s.tracker.setCapacity c.capacity }.init c.root c.depth with
  | (.ok _, s) => return s
  | (.error e, _) => throw e

def scan (s : FileStore) (dir : Path) : Action Totals := Scan.run s.mode dir

/-! ### Reading -/

def find (s : FileStore) (name : Bytes) : Attempt (Location × Option Entry) := do
  let location ← (← s.layout).locate name
  let entry ← Request.ask (s.mode.find location)
  return (location, entry)

/-- Where a chunk lives, and the chunk, which has to be there. -/
def require (s : FileStore) (name : Bytes) : Attempt (Location × Entry) := do
  match ← s.find name with
  | (location, some entry) => return (location, entry)
  | (_, none) => throw (.missing name)

/-- The path of the file of a chunk, or the one that its first reference would have. -/
def locate (s : FileStore) (name : Bytes) (create : Bool) : Attempt Path := do
  let location ← (← s.layout).locate name
  if create then Request.makeDirs location.dir
  match ← Request.ask (s.mode.find location) with
  | some entry => return entry.path
  | none => return s.mode.path location 1

def get (s : FileStore) (name : Bytes) : Attempt Bytes := do
  let (_, entry) ← s.require name
  Request.ask (·.read entry.path)

/-- The directory in which a file at a path is staged. -/
def stagingDir (target : Path) : Path :=
  match target.parent? with
  | some dir => if dir = .blank then .here else dir
  | none => .here

/-- Writes the content of a chunk to a file, which is replaced only by the whole of it.  The file of
the chunk itself is left alone. -/
def getToFile (s : FileStore) (name : Bytes) (target : Path) : Attempt Unit := do
  let (_, entry) ← s.require name
  if (← Action.tree).sameFile entry.path target then return
  let _ ← Staging.copy (stagingDir target) entry.path target

def validate (s : FileStore) (name : Bytes) : Attempt Bool := do
  let (_, entry) ← s.require name
  let content ← Request.ask (·.read entry.path)
  return s.hasher.digestFile content = name

/-! ### Storing -/

/-- Stores a content.  A chunk that is there already gets one more reference and keeps its own
content. -/
def store (s : FileStore) (name content : Bytes) : Attempt FileStore := do
  let layout ← s.layout
  if name = [] then throw .emptyName
  if content = [] then throw .emptyContent
  let location ← layout.locate name
  match ← Request.ask (s.mode.find location) with
  | some entry =>
    let _ ← s.mode.acquire location entry
    return s
  | none =>
    s.tracker.ensureRoom content.length
    Request.makeDirs location.dir
    Staging.write location.dir (s.mode.path location 1) content
    Action.report (.stored name content.length)
    return { s with tracker := s.tracker.add content.length }

def sourceSize (source : Path) : Attempt Nat := do
  match (← Action.tree).stat source with
  | .ok (.file content) => return content.length
  | .ok (.dir _) => throw (.sourceMissing source)
  | .error .notFound => throw (.sourceMissing source)
  | .error fault => throw (.file fault)

/-- Removes a source whose content is stored; that it stays is only reported. -/
def discard (name : Bytes) (source : Path) : Action Unit := do
  if !(← Attempt.granted (Request.unlink source)) then Action.report (.sourceKept name source)

/-- Stores the content of a file.  A file that is not needed any more is renamed into place if that
can be done, and copied otherwise; the file of the chunk itself is never removed. -/
def storeFile (s : FileStore) (name : Bytes) (source : Path) (deleteSource : Bool) :
    Attempt FileStore := do
  let location ← (← s.layout).locate name
  let size ← sourceSize source
  if size = 0 then throw .emptyContent
  match ← Request.ask (s.mode.find location) with
  | some entry =>
    let same := (← Action.tree).sameFile entry.path source
    let _ ← s.mode.acquire location entry
    if deleteSource && !same then discard name source
    return s
  | none =>
    s.tracker.ensureRoom size
    Request.makeDirs location.dir
    let target := s.mode.path location 1
    let renamed ← if deleteSource then Attempt.granted (Request.rename source target) else pure false
    let stored ← if renamed then pure size else Staging.copy location.dir source target
    Action.report (.storedFromFile name stored renamed)
    if deleteSource && !renamed then discard name source
    return { s with tracker := s.tracker.add stored }

/-! ### Letting go -/

/-- Drops one reference to a chunk; there need not be one. -/
def delete (s : FileStore) (name : Bytes) : Attempt FileStore := do
  let layout ← s.layout
  if name = [] then return s
  let location ← layout.locate name
  match ← Request.ask (s.mode.find location) with
  | none => return s
  | some entry =>
    if (← s.mode.release location entry) = 0 then
      Action.report (.deleted name entry.size)
      return { s with tracker := s.tracker.remove entry.size }
    else return s

/-- Drops the reference to a chunk that another store has taken over.  What is left of the chunk is
looked up again, because that store may have renamed or removed its file. -/
def letGo (s : FileStore) (name : Bytes) (location : Location) (entry : Entry) :
    Attempt FileStore := do
  let after ← do
    match ← Request.ask (s.mode.find location) with
    | none => pure { s with tracker := s.tracker.remove entry.size }
    | some current =>
      if s.mode.isCounted then
        if (← s.mode.release location current) = 0 then
          pure { s with tracker := s.tracker.remove current.size }
        else pure s
      else pure s
  Action.report (.moved name (entry.count ≤ 1))
  return after

/-- Hands a chunk over to a sink and drops the reference to it.  If it is the last one the sink may
take the file itself. -/
def moveTo {τ : Type} [Sink τ] (s : FileStore) (name : Bytes) (sink : τ) :
    Action (Except StoreError FileStore × τ) := do
  match ← (s.require name).run with
  | .error e => return (.error e, sink)
  | .ok (location, entry) =>
    let (taken, sink) ← Sink.storeFile sink name entry.path (entry.count ≤ 1)
    if taken then
      let result ← (s.letGo name location entry).run
      return (result, sink)
    else return (.error (.refused name), sink)

def moveToSelf (s : FileStore) (name : Bytes) : Attempt Unit := do
  let _ ← s.require name

/-- Removes all that lies below the root.  The counts are then taken from what is left, so they are
right even if something could not be removed. -/
def clear (s : FileStore) : Action (Except StoreError Unit × FileStore) := do
  match s.layout? with
  | none => return (.error .notInitialized, s)
  | some layout =>
    let result ← (Request.emptyDir layout.root).run
    let found ← Scan.run s.mode layout.root
    let s := { s with tracker := s.tracker.reset found }
    match result with
    | .error fault => return (.error (.file fault), s)
    | .ok () =>
      Action.report (.cleared layout.root)
      return (.ok (), s)

/-! ### As a chunk store -/

/-- The path of the file of a chunk; a failure is only reported. -/
def chunkPath (s : FileStore) (name : Bytes) (create : Bool) : Action (Option Path) :=
  (s.locate name create).reported .chunkPath name

instance : ChunkStore FileStore where
  store s name content := (s.store name content).settled .store name s
  storeFile s name source deleteSource :=
    (s.storeFile name source deleteSource).settled .storeFile name s
  get s name := return ((← (s.get name).reported .get name).getD [])
  getToFile s name target := return (← (s.getToFile name target).reported .getToFile name).isSome
  delete s name := (s.delete name).settled .delete name s
  moveTo s name sink := do
    let (result, sink) ← s.moveTo name sink
    match ← Attempt.outcome .moveTo name result with
    | some after => return (true, after, sink)
    | none => return (false, s, sink)
  moveToSelf s name := return (← (s.moveToSelf name).reported .moveTo name).isSome
  has s name := do
    match ← (s.find name).reported .has name with
    | some (_, some _) => return true
    | _ => return false
  validate s name := return (← (s.validate name).reported .validate name).getD false
  chunkSize s name := do
    match ← (s.require name).reported .sizeOf name with
    | some (_, entry) => return entry.size
    | none => return 0
  references s name := do
    match ← (s.find name).reported .refCount name with
    | some (_, some entry) => return entry.count
    | _ => return 0
  size s := s.tracker.size
  count s := s.tracker.count
  capacity s := s.tracker.capacity
  setCapacity s capacity := { s with tracker := s.tracker.setCapacity capacity }
  clear s := do
    let (result, s) ← s.clear
    let _ ← Attempt.outcome .clear [] result
    return s

def description (s : FileStore) : String :=
  let root := match s.root? with
    | none => "None"
    | some root => "Some(" ++ Quoted.quote root.bytes ++ ")"
  "FileChunkStore \x7b root: " ++ root ++ ", reference_counting: " ++ Event.truth s.mode.isCounted
    ++ ", chunk_count: " ++ toString s.tracker.count ++ ", total_size: " ++ toString s.tracker.size
    ++ " \x7d"

end FileStore

end ContentStore
