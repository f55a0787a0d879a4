import ContentStore.Text.Utf8

/-!
# Paths

A path is kept exactly as it was spelled.  Its pieces are what stands between the slashes; a blank
piece or a single dot leads nowhere, and two dots lead one directory up.  A path that begins with a
slash starts at the top of the tree, as any other does.
-/

namespace ContentStore

/-- A path, as it was spelled. -/
structure Path where
  bytes : Bytes
deriving Repr, DecidableEq

namespace Path

open Bytes (slash dot splitOn joinWith)

def ofText (s : String) : Path := ⟨Bytes.ofText s⟩

def blank : Path := ⟨[]⟩

def here : Path := ⟨[dot]⟩

def shown (p : Path) : String := Utf8.shown p.bytes

def isAbsolute (bs : Bytes) : Bool := bs.head? = some slash

/-- A path with one more part: a slash goes between, unless the path is blank or ends in one.  An
absolute part replaces the path. -/
def join (p : Path) (part : Bytes) : Path :=
  if isAbsolute part then ⟨part⟩
  else if p.bytes = [] ∨ p.bytes.getLast? = some slash then ⟨p.bytes ++ part⟩
  else ⟨p.bytes ++ slash :: part⟩

/-- What stands between the slashes. -/
def pieces (p : Path) : List Bytes := splitOn slash p.bytes

/-- Whether a piece leads nowhere. -/
def isIdle (piece : Bytes) : Bool := piece = [] || piece = [dot]

/-- Pieces, the last one first, without the idle ones at the end; the first piece always stays. -/
def trimEnd : List Bytes → List Bytes
  | [] => []
  | [piece] => [piece]
  | piece :: before => if isIdle piece then trimEnd before else piece :: before

/-- The path spelled by pieces of which the last one comes first. -/
def ofReversed (before : List Bytes) : Path :=
  if before = [[]] then ⟨[slash]⟩ else ⟨joinWith slash before.reverse⟩

/-- The paths of the directories above pieces of which the last one comes first, nearest first.  The
directory above a single piece is the blank path; the top has none above it. -/
def above : List Bytes → List Path
  | [] => []
  | [piece] => if piece = [] then [] else [blank]
  | piece :: before =>
    if isIdle piece then above before else ofReversed (trimEnd before) :: above before

def parents (p : Path) : List Path := above p.pieces.reverse

def parent? (p : Path) : Option Path := p.parents.head?

/-- The last piece, if it is a name. -/
def fileName? (p : Path) : Option Bytes :=
  match trimEnd p.pieces.reverse with
  | [] => none
  | piece :: _ => if isIdle piece || piece = [dot, dot] then none else some piece

/-- The path limit: a path has fewer bytes than this. -/
def sizeLimit : Nat := 4096

def isTooLong (p : Path) : Bool := sizeLimit ≤ p.bytes.length

end Path

end ContentStore
