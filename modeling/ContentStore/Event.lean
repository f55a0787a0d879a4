import ContentStore.Accounting.Tracker

/-!
# Events

What a store reports while it works.  An event has a level, a message and named fields, all of which
follow from what happened.
-/

namespace ContentStore

inductive Operation where
  | get | getToFile | store | storeFile | delete | moveTo | has | validate | sizeOf | refCount
  | chunkPath | clear
deriving Repr, DecidableEq

def Operation.label : Operation → String
  | .get => "get"
  | .getToFile => "get_to_file"
  | .store => "store"
  | .storeFile => "store_file"
  | .delete => "delete"
  | .moveTo => "move_to"
  | .has => "has"
  | .validate => "validate"
  | .sizeOf => "size_of"
  | .refCount => "ref_count"
  | .chunkPath => "chunk_path"
  | .clear => "clear"

inductive Level where
  | debug
  | info
  | warn
deriving Repr, DecidableEq

def Level.label : Level → String
  | .debug => "DEBUG"
  | .info => "INFO"
  | .warn => "WARN"

inductive Event where
  | failed (op : Operation) (name : Bytes)
  | refused (op : Operation) (name : Bytes) (reason : String)
  | initialized (root : Path) (depth : Nat) (counting : Bool) (found : Totals)
  | initFailed (root : Path)
  | stored (name : Bytes) (size : Nat)
  | storedFromFile (name : Bytes) (size : Nat) (renamed : Bool)
  | sourceKept (name : Bytes) (source : Path)
  | deleted (name : Bytes) (size : Nat)
  | moved (name : Bytes) (lastReference : Bool)
  | cleared (root : Path)
  | acquired (stem : Bytes) (count : Nat)
  | released (stem : Bytes) (count : Nat)
  | fileRemoved (stem : Bytes)
  | rootUnreadable (root : Path)
  | entrySkipped (root : Path)
  | sizeUnknown (path : Path)
  | recovered (root : Path) (found : Totals)
deriving Repr, DecidableEq

namespace Event

/-- An operation did not come to its end: for a fault it failed, for a refusal it was refused. -/
def ofError (op : Operation) (name : Bytes) (e : StoreError) : Event :=
  match e.message? with
  | some reason => .refused op name reason
  | none => .failed op name

def level : Event → Level
  | .failed .. | .initFailed _ | .sourceKept .. | .entrySkipped _ | .sizeUnknown _ => .warn
  | .initialized .. | .cleared _ => .info
  | _ => .debug

def message : Event → String
  | .failed .. => "chunk operation failed"
  | .refused .. => "chunk operation refused"
  | .initialized .. => "chunk store initialized"
  | .initFailed _ => "chunk store init failed"
  | .stored .. => "chunk stored"
  | .storedFromFile .. => "chunk stored from file"
  | .sourceKept .. => "chunk stored but source file not removed"
  | .deleted .. => "chunk deleted"
  | .moved .. => "chunk moved"
  | .cleared _ => "chunk store cleared"
  | .acquired .. => "chunk reference acquired"
  | .released .. => "chunk reference released"
  | .fileRemoved _ => "chunk file removed"
  | .rootUnreadable _ => "chunk root not readable, nothing recovered"
  | .entrySkipped _ => "skipping unreadable entry during recovery"
  | .sizeUnknown _ => "skipping chunk without metadata"
  | .recovered .. => "recovered chunk accounting"

def shortName (name : Bytes) : String := Hex.text (name.take 8)

def truth (b : Bool) : String := if b then "true" else "false"

def fields : Event → List (String × String)
  | .failed op name => [("op", op.label), ("name", shortName name)]
  | .refused op name reason => [("op", op.label), ("name", shortName name), ("reason", reason)]
  | .initialized root depth counting found =>
    [("root", root.shown), ("shard_depth", toString depth), ("reference_counting", truth counting),
      ("chunks", toString found.count), ("bytes", toString found.size)]
  | .initFailed root => [("root", root.shown)]
  | .stored name size => [("name", shortName name), ("size", toString size)]
  | .storedFromFile name size renamed =>
    [("name", shortName name), ("size", toString size), ("renamed", truth renamed)]
  | .sourceKept name source => [("name", shortName name), ("source", source.shown)]
  | .deleted name size => [("name", shortName name), ("size", toString size)]
  | .moved name lastReference =>
    [("name", shortName name), ("last_reference", truth lastReference)]
  | .cleared root => [("root", root.shown)]
  | .acquired stem count => [("stem", Utf8.shown stem), ("count", toString count)]
  | .released stem count => [("stem", Utf8.shown stem), ("count", toString count)]
  | .fileRemoved stem => [("stem", Utf8.shown stem)]
  | .rootUnreadable root => [("root", root.shown)]
  | .entrySkipped root => [("root", root.shown)]
  | .sizeUnknown path => [("path", path.shown)]
  | .recovered root found =>
    [("root", root.shown), ("chunks", toString found.count), ("bytes", toString found.size)]

end Event

end ContentStore
