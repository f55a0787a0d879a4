import ContentStore.Path
import ContentStore.Tree.Basic
import ContentStore.Tree.Fault

/-!
# Where a path leads

A path is followed piece by piece from the top of the tree, and the first piece that cannot be
followed gives the fault.  `Tree.resolve` follows all of a path; `Tree.spot` stops before the last
piece, which need not exist.
-/

namespace ContentStore

namespace Path

/-- The faults of a path that no tree can mend. -/
def check (p : Path) : Except Fault Unit :=
  if p.bytes.contains 0 then .error .invalidInput
  else if p.bytes = [] then .error .notFound
  else if p.isTooLong then .error .invalidFilename
  else .ok ()

end Path

/-- The names on a way and what they stand for, the innermost first. -/
abbrev Trail := List (Bytes × Node)

namespace Trail

def key (trail : Trail) : Key := trail.map Prod.fst

/-- What a trail from the given top leads to. -/
def node (top : Listing) : Trail → Node
  | [] => .dir top
  | (_, n) :: _ => n

end Trail

inductive Last where
  | here
  | up
  | name (bytes : Bytes)
deriving Repr, DecidableEq

/-- Where the last piece of a path would go. -/
structure Spot where
  /-- The key and the listing of the directory. -/
  dir : Key
  inner : Listing
  last : Last
  /-- Whether a slash follows the last piece. -/
  slash : Bool
deriving Repr, DecidableEq

open Bytes (dot)

/-- The piece that leads one directory up. -/
def upPiece : Bytes := [dot, dot]

def nameLimit : Nat := 255

/-- What a name stands for in a listing, if it has a length that can be looked up. -/
def Listing.lookup (l : Listing) (name : Bytes) : Except Fault (Option Node) :=
  if nameLimit < name.length then .error .invalidFilename else .ok (l.find? name)

def Spot.lookup (s : Spot) (name : Bytes) : Except Fault (Option Node) := s.inner.lookup name

namespace Tree

/-- Follows one piece.  The top is its own parent. -/
def follow (t : Tree) (trail : Trail) (piece : Bytes) : Except Fault Trail :=
  match trail.node t.top with
  | .file _ => .error .notADirectory
  | .dir inner =>
    if Path.isIdle piece then .ok trail
    else if piece = upPiece then .ok trail.tail
    else
      match inner.lookup piece with
      | .error fault => .error fault
      | .ok none => .error .notFound
      | .ok (some node) => .ok ((piece, node) :: trail)

def followAll (t : Tree) (pieces : List Bytes) : Except Fault Trail := pieces.foldlM t.follow []

def resolve (t : Tree) (p : Path) : Except Fault Trail := do
  p.check
  t.followAll p.pieces

/-- The key that a path leads to, however long the path is spelled. -/
def canonical? (t : Tree) (p : Path) : Option Key :=
  if p.bytes = [] then none else ((t.followAll p.pieces).map Trail.key).toOption

def sameFile (t : Tree) (p q : Path) : Bool :=
  match t.canonical? p, t.canonical? q with
  | some k, some l => k = l
  | _, _ => false

/-- What is before the last piece of a path, what that piece is, and whether a slash follows it. -/
def lastOf (reversed : List Bytes) : List Bytes × Last × Bool :=
  match reversed.dropWhile (· = []) with
  | [] => ([], .here, false)
  | piece :: before =>
    let last := if piece = [dot] then .here else if piece = upPiece then .up else .name piece
    (before.reverse, last, reversed.head? = some [])

def spot (t : Tree) (p : Path) : Except Fault Spot := do
  p.check
  let (before, last, slash) := lastOf p.pieces.reverse
  let trail ← t.followAll before
  match trail.node t.top with
  | .dir inner => return ⟨trail.key, inner, last, slash⟩
  | .file _ => throw .notADirectory

def stat (t : Tree) (p : Path) : Except Fault Node := return (← t.resolve p).node t.top

def leadsToDir (t : Tree) (p : Path) : Bool :=
  match t.stat p with
  | .ok (.dir _) => true
  | _ => false

def read (t : Tree) (p : Path) : Except Fault Bytes := do
  match ← t.stat p with
  | .file content => return content
  | .dir _ => throw .isADirectory

def list (t : Tree) (p : Path) : Except Fault Listing := do
  match ← t.stat p with
  | .dir inner => return inner
  | .file _ => throw .notADirectory

end Tree

end ContentStore
