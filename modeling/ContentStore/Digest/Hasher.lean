import ContentStore.Digest.Blake3
import ContentStore.Digest.Sha512

/-!
# Hashers

A hasher names a content.  It digests a content given whole and a content that arrives piece by
piece, as a file does when it is read; a store relies on the two being the same.

An engine is a hash function that takes its message in parts.  `Engine.blake3` may be set to a
domain, which is absorbed before the content.
-/

namespace ContentStore

/-- A hash function that takes its message in parts. -/
structure Engine where
  State : Type
  start : State
  absorb : State → Bytes → State
  finish : State → Bytes

namespace Engine

/-- An engine that keeps what it has absorbed and hashes it at the end. -/
def ofHash (hash : Bytes → Bytes) : Engine := ⟨Bytes, [], (· ++ ·), hash⟩

def sha512 : Engine := ofHash Sha512.hash

def blake3 : Engine := ofHash Blake3.hash

/-- The state after the domain, which a colon ends. -/
def startIn (e : Engine) : Option String → e.State
  | none => e.start
  | some domain => e.absorb (e.absorb e.start (Bytes.ofText domain)) [58]

end Engine

/-- What names a content. -/
structure Hasher where
  /-- What is absorbed before the content, for a hasher that has a domain. -/
  domain : Option String
  /-- The digest of a content. -/
  digest : Bytes → Bytes
  /-- The digest of a content that arrives piece by piece. -/
  digestPieces : List Bytes → Bytes

namespace Hasher

/-- The hasher that feeds an engine, set to a domain, with each piece as it arrives. -/
def ofEngine (e : Engine) (domain : Option String) : Hasher where
  domain := domain
  digest content := e.finish (e.absorb (e.startIn domain) content)
  digestPieces pieces := e.finish (pieces.foldl e.absorb (e.startIn domain))

/-- The hasher that puts the pieces together before it digests them. -/
def ofDigest (digest : Bytes → Bytes) : Hasher where
  domain := none
  digest := digest
  digestPieces pieces := digest pieces.flatten

def sha512 : Hasher := ofEngine .sha512 none

/-- BLAKE3, set to a domain if there is one. -/
def blake3 (domain : Option String) : Hasher := ofEngine .blake3 domain

def verify (h : Hasher) (content expected : Bytes) : Bool := h.digest content = expected

def digestFile (h : Hasher) (content : Bytes) : Bytes :=
  h.digestPieces (content.inPieces Bytes.pieceSize)

/-- What an engine set to the domain absorbs for a content. -/
def absorbed (domain : Option String) (content : Bytes) : Bytes :=
  match domain with
  | none => content
  | some d => Bytes.ofText d ++ 58 :: content

end Hasher

end ContentStore
