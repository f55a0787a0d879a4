import ContentStore.Workspace

/-!
# What a chunk store can do

Every operation is safe to call at any time: what cannot be done answers with `false`, zero or no
bytes, and is reported.  A store that takes chunks from another one is a sink; the move of a chunk
needs no more of the receiving side.
-/

namespace ContentStore

/-- What can take chunks. -/
class Sink (σ : Type) where
  /-- Takes a content under a name.  The answer is whether the chunk is there afterwards. -/
  store : σ → Bytes → Bytes → Action (Bool × σ)
  /-- Takes the content of a file, and removes the file if asked to. -/
  storeFile : σ → Bytes → Path → Bool → Action (Bool × σ)

/-- What holds chunks. -/
class ChunkStore (σ : Type) extends Sink σ where
  /-- The content of a chunk, or no bytes. -/
  get : σ → Bytes → Action Bytes
  /-- Writes the content of a chunk to a file. -/
  getToFile : σ → Bytes → Path → Action Bool
  /-- Drops one reference to a chunk. -/
  delete : σ → Bytes → Action (Bool × σ)
  /-- Hands a chunk over to another store. -/
  moveTo : {τ : Type} → [Sink τ] → σ → Bytes → τ → Action (Bool × σ × τ)
  /-- Hands a chunk over to the store that holds it. -/
  moveToSelf : σ → Bytes → Action Bool
  /-- Whether there is a chunk with that name. -/
  has : σ → Bytes → Action Bool
  /-- Whether the content of a chunk has its name for a digest. -/
  validate : σ → Bytes → Action Bool
  /-- The number of bytes of a chunk. -/
  chunkSize : σ → Bytes → Action Nat
  /-- The number of references to a chunk. -/
  references : σ → Bytes → Action Nat
  /-- The number of bytes of all chunks. -/
  size : σ → Nat
  /-- The number of chunks. -/
  count : σ → Nat
  /-- The number of bytes that the store may hold; zero means no limit. -/
  capacity : σ → Nat
  /-- Takes another capacity and keeps all chunks. -/
  setCapacity : σ → Nat → σ
  /-- Removes all chunks. -/
  clear : σ → Action σ
  /-- Whether there are no chunks. -/
  isEmpty : σ → Bool := fun s => count s = 0

end ContentStore
