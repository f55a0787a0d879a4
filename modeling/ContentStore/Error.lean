import ContentStore.Path
import ContentStore.Text.Decimal
import ContentStore.Text.Hex
import ContentStore.Text.Quoted
import ContentStore.Tree.Fault

/-!
# Why a store does not do as asked

A refusal is expected of a store: a chunk is missing, there is no room, a name is blank.  A fault
comes from outside it: from the file system or from a configuration that cannot be read.
-/

namespace ContentStore

/-- Why a store does not do as asked. -/
inductive StoreError where
  | notInitialized
  | emptyName
  | emptyContent
  /-- No chunk has this name, given in hexadecimal. -/
  | notFound (name : String)
  /-- A new chunk would take the store above its capacity. -/
  | capacityExceeded (needed available : Nat)
  /-- The store that a chunk was to be moved to did not take it. -/
  | sinkRefused (name : String)
  /-- There is no file to store a chunk from. -/
  | sourceMissing (path : Path)
  | invalidRoot (path : Path)
  /-- A configuration cannot be read. -/
  | config
  /-- The file system refused a request. -/
  | file (fault : Fault)
  /-- The file system refused to give a finished file its name. -/
  | persist (fault : Fault)
deriving Repr, DecidableEq

namespace StoreError

/-- No chunk has the given name. -/
def missing (name : Bytes) : StoreError := .notFound (Hex.text name)

/-- Another store did not take the chunk with the given name. -/
def refused (name : Bytes) : StoreError := .sinkRefused (Hex.text name)

/-- Whether the cause lies outside the store. -/
def isFault : StoreError → Bool
  | .file _ | .persist _ | .config => true
  | _ => false

/-- The text of a refusal; a fault has none of its own. -/
def message? : StoreError → Option String
  | .notInitialized => some "chunk store is not initialized"
  | .emptyName => some "chunk name is empty"
  | .emptyContent => some "chunk content is empty"
  | .notFound name => some ("chunk not found: " ++ name)
  | .capacityExceeded needed available =>
    some ("capacity exceeded: need " ++ toString needed ++ " bytes, only " ++ toString available
      ++ " available")
  | .sinkRefused name => some ("sink store refused chunk " ++ name)
  | .sourceMissing path => some ("source file not found: " ++ path.shown)
  | .invalidRoot path => some ("invalid root directory: " ++ Quoted.quote path.bytes)
  | .config | .file _ | .persist _ => none

end StoreError

end ContentStore
