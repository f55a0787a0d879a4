/-!
# Faults

Why the file system refuses a request.
-/

namespace ContentStore

/-- What holds an entry. -/
inductive Obstacle where
  /-- It is named by dots, or another volume begins there. -/
  | inUse
  /-- Its directory is shut, or the entry can only be read. -/
  | shut
  /-- The way leads to another volume. -/
  | volume
deriving Repr, DecidableEq

inductive Fault where
  /-- Nothing is there. -/
  | notFound
  /-- A file stands where a directory is needed. -/
  | notADirectory
  /-- A directory stands where a file is needed. -/
  | isADirectory
  /-- Something is there already. -/
  | alreadyExists
  /-- A name or a whole path has too many bytes. -/
  | invalidFilename
  /-- The path holds a zero byte, or a directory would be moved below itself. -/
  | invalidInput
  /-- The entry cannot be made, written, moved or removed where it is.  No store asks what holds it. -/
  | resourceBusy {obstacle : Obstacle}
  /-- The directory has entries. -/
  | directoryNotEmpty
deriving Repr, DecidableEq

namespace Fault

def inUse : Fault := @resourceBusy .inUse

def permissionDenied : Fault := @resourceBusy .shut

def crossesDevices : Fault := @resourceBusy .volume

end Fault

end ContentStore
