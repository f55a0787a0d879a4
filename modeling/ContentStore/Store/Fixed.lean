import ContentStore.Store.Interface

/-!
# Stores that do nothing

A fixed store gives every yes-or-no question the same answer and holds no chunks.  Other stores are
tried against it: a move to it is taken or refused as it is told, and nothing else happens.
-/

namespace ContentStore

structure FixedStore where
  answer : Bool
deriving Repr, DecidableEq

instance : ChunkStore FixedStore where
  store s _ _ := return (s.answer, s)
  storeFile s _ _ _ := return (s.answer, s)
  get _ _ := return []
  getToFile s _ _ := return s.answer
  delete s _ := return (s.answer, s)
  moveTo s _ sink := return (s.answer, s, sink)
  moveToSelf s _ := return s.answer
  has s _ := return s.answer
  validate s _ := return s.answer
  chunkSize _ _ := return 0
  references _ _ := return 0
  size _ := 0
  count _ := 0
  capacity _ := 0
  setCapacity s _ := s
  clear s := return s

end ContentStore
