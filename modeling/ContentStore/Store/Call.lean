import ContentStore.Store.Interface

/-!
# Calls of a chunk store

What is asked of a store and what it answers, as data, so that one and the same list of calls can be
made of stores of different kinds.  A move is no call, because it involves two stores.
-/

namespace ContentStore

inductive Call where
  | get (name : Bytes)
  | getToFile (name : Bytes) (target : Path)
  | store (name content : Bytes)
  | storeFile (name : Bytes) (source : Path) (deleteSource : Bool)
  | delete (name : Bytes)
  | has (name : Bytes)
  | validate (name : Bytes)
  | chunkSize (name : Bytes)
  | references (name : Bytes)
  | size
  | count
  | capacity
  | isEmpty
  | setCapacity (capacity : Nat)
  | clear
deriving Repr, DecidableEq

inductive Answer where
  | bytes (bs : Bytes)
  | number (n : Nat)
  | truth (b : Bool)
  /-- A call that has no answer has been made. -/
  | done
deriving Repr, DecidableEq

namespace Call

variable {σ : Type} [ChunkStore σ]

/-- Asks something that leaves the store as it is. -/
def asking {α : Type} (answer : α → Answer) (s : σ) (a : Action α) : Action (Answer × σ) :=
  return (answer (← a), s)

/-- Asks for a change of the store that may be refused. -/
def changing (a : Action (Bool × σ)) : Action (Answer × σ) := do
  let (b, s) ← a
  return (.truth b, s)

def run (s : σ) : Call → Action (Answer × σ)
  | get name => asking .bytes s (ChunkStore.get s name)
  | getToFile name target => asking .truth s (ChunkStore.getToFile s name target)
  | store name content => changing (Sink.store s name content)
  | storeFile name source deleteSource => changing (Sink.storeFile s name source deleteSource)
  | delete name => changing (ChunkStore.delete s name)
  | has name => asking .truth s (ChunkStore.has s name)
  | validate name => asking .truth s (ChunkStore.validate s name)
  | chunkSize name => asking .number s (ChunkStore.chunkSize s name)
  | references name => asking .number s (ChunkStore.references s name)
  | size => return (.number (ChunkStore.size s), s)
  | count => return (.number (ChunkStore.count s), s)
  | capacity => return (.number (ChunkStore.capacity s), s)
  | isEmpty => return (.truth (ChunkStore.isEmpty s), s)
  | setCapacity n => return (.done, ChunkStore.setCapacity s n)
  | clear => return (.done, ← ChunkStore.clear s)

def runAll (s : σ) : List Call → Action (List Answer × σ)
  | [] => return ([], s)
  | call :: calls => do
    let (answer, s) ← call.run s
    let (answers, s) ← runAll s calls
    return (answer :: answers, s)

end Call

end ContentStore
