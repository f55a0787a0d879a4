/-!
# Byte sequences

Chunk names, chunk contents, paths and file names are all sequences of bytes.  A text that takes
part in a path is the sequence of bytes of its UTF-8 form.
-/

namespace ContentStore

abbrev Bytes := List UInt8

namespace Bytes

def ofText (s : String) : Bytes := s.toUTF8.data.toList

/-- The byte that separates the steps of a path. -/
def slash : UInt8 := 47

/-- The byte that separates a stem from a count and that begins a hidden file name. -/
def dot : UInt8 := 46

/-- The pieces between the separators `sep`; there is always at least one piece. -/
def splitOn (sep : UInt8) : Bytes → List Bytes
  | [] => [[]]
  | b :: bs =>
    if b = sep then [] :: splitOn sep bs
    else match splitOn sep bs with
      | [] => [[b]]
      | piece :: pieces => (b :: piece) :: pieces

/-- The pieces with `sep` between neighbours. -/
def joinWith (sep : UInt8) : List Bytes → Bytes
  | [] => []
  | [piece] => piece
  | piece :: pieces => piece ++ sep :: joinWith sep pieces

/-- What is before the last `sep` and what is after it. -/
def splitLast (sep : UInt8) : Bytes → Option (Bytes × Bytes)
  | [] => none
  | b :: bs =>
    match splitLast sep bs with
    | some (before, after) => some (b :: before, after)
    | none => if b = sep then some ([], bs) else none

/-- Splits a sequence into pieces of `width` bytes (one, if `width` is zero), the last of which may be
shorter. -/
def inPieces (width : Nat) : Bytes → List Bytes
  | [] => []
  | b :: bs => (b :: bs.take (width - 1)) :: inPieces width (bs.drop (width - 1))
termination_by bs => bs.length
decreasing_by simp only [List.length_drop, List.length_cons]; omega

/-- The number of bytes that a file is read or written in at a time. -/
def pieceSize : Nat := 8192

/-- The order of two sequences: by the first byte that differs, a beginning before the whole. -/
def le : Bytes → Bytes → Bool
  | [], _ => true
  | _ :: _, [] => false
  | a :: as, b :: bs => a < b || (a = b && le as bs)

/-! ### Nothing is lost -/

theorem splitOn_ne_nil (sep : UInt8) (bs : Bytes) : splitOn sep bs ≠ [] := by
  cases bs with
  | nil => simp [splitOn]
  | cons b bs =>
    unfold splitOn
    split
    · simp
    · split <;> simp

theorem joinWith_cons (sep : UInt8) (piece : Bytes) {pieces : List Bytes} (h : pieces ≠ []) :
    joinWith sep (piece :: pieces) = piece ++ sep :: joinWith sep pieces := by
  cases pieces with
  | nil => exact absurd rfl h
  | cons p ps => rfl

theorem joinWith_splitOn (sep : UInt8) (bs : Bytes) : joinWith sep (splitOn sep bs) = bs := by
  induction bs with
  | nil => rfl
  | cons b bs ih =>
    unfold splitOn
    split
    · next hb =>
      rw [joinWith_cons sep [] (splitOn_ne_nil sep bs), ih, hb]
      rfl
    · match hs : splitOn sep bs with
      | [] => exact absurd hs (splitOn_ne_nil sep bs)
      | [piece] =>
        rw [hs] at ih
        simpa [joinWith] using ih
      | piece :: p :: ps =>
        rw [hs] at ih
        simpa [joinWith] using ih

theorem flatten_inPieces (width : Nat) (bs : Bytes) : (inPieces width bs).flatten = bs := by
  fun_induction inPieces width bs with
  | case1 => rfl
  | case2 b bs ih => simp [ih]

end Bytes

end ContentStore
