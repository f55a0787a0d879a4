import ContentStore.Error

/-!
# Where a chunk lives

The hexadecimal form of a name is spread over directories: each of its first digits is a directory
of its own, and the rest is the stem of the file name.  The stem keeps at least one digit.
-/

namespace ContentStore

/-- The directory and the file stem of a chunk. -/
structure Location where
  dir : Path
  stem : Bytes
deriving Repr, DecidableEq

namespace Location

def plainPath (l : Location) : Path := l.dir.join l.stem

def countedName (l : Location) (count : Nat) : Bytes :=
  l.stem ++ Bytes.dot :: Decimal.render count

def countedPath (l : Location) (count : Nat) : Path := l.dir.join (l.countedName count)

end Location

/-- The root of a store and the number of directory levels below it. -/
structure Layout where
  root : Path
  depth : Nat
deriving Repr, DecidableEq

namespace Layout

/-- The number of levels of a store that is given none. -/
def defaultDepth : Nat := 5

/-- The number of levels that the given digits are spread over. -/
def levels (l : Layout) (digits : Bytes) : Nat := min l.depth (digits.length - 1)

/-- Where the chunk with a name that is not blank lives. -/
def place (l : Layout) (name : Bytes) : Location :=
  let digits := Hex.encode name
  let depth := l.levels digits
  ⟨(digits.take depth).foldl (fun dir digit => dir.join [digit]) l.root, digits.drop depth⟩

/-- Where a chunk lives; a blank name has no place. -/
def locate (l : Layout) (name : Bytes) : Except StoreError Location :=
  if name = [] then .error .emptyName else .ok (l.place name)

end Layout

end ContentStore
