import ContentStore.Text.Bytes

/-!
# UTF-8

A byte sequence falls into characters and broken pieces.  A broken piece is the longest beginning of
a character that is not carried on, or a single byte that begins none; it is shown as one
replacement character.
-/

namespace ContentStore.Utf8

inductive Piece where
  | char (c : Char)
  | broken (bytes : Bytes)
deriving Repr, DecidableEq

namespace Piece

def size : Piece → Nat
  | char c => c.utf8Size
  | broken bytes => bytes.length

def shown : Piece → Char
  | char c => c
  | broken _ => Char.ofNat 0xfffd

end Piece

/-- What the first byte of a longer character says: its own bits, the bounds of the second byte and
the number of bytes after the second. -/
structure Lead where
  bits : Nat
  low : UInt8
  high : UInt8
  more : Nat

/-- The bounds leave out overlong forms, surrogates and numbers above the last code point. -/
def lead? (b : UInt8) : Option Lead :=
  if b < 0xc2 then none
  else if b < 0xe0 then some ⟨b.toNat - 0xc0, 0x80, 0xbf, 0⟩
  else if b = 0xe0 then some ⟨0, 0xa0, 0xbf, 1⟩
  else if b = 0xed then some ⟨0xd, 0x80, 0x9f, 1⟩
  else if b < 0xf0 then some ⟨b.toNat - 0xe0, 0x80, 0xbf, 1⟩
  else if b = 0xf0 then some ⟨0, 0x90, 0xbf, 2⟩
  else if b < 0xf4 then some ⟨b.toNat - 0xf0, 0x80, 0xbf, 2⟩
  else if b = 0xf4 then some ⟨4, 0x80, 0x8f, 2⟩
  else none

/-- Reads the given number of further bytes of a character whose bits so far are `bits` and whose
bytes so far are `taken`. -/
def carryOn : Nat → Nat → Bytes → Bytes → Piece
  | 0, bits, _, _ => .char (Char.ofNat bits)
  | _ + 1, _, taken, [] => .broken taken
  | more + 1, bits, taken, b :: bs =>
    if 0x80 ≤ b ∧ b ≤ 0xbf then carryOn more (64 * bits + (b.toNat - 0x80)) (taken ++ [b]) bs
    else .broken taken

/-- The piece that the sequence `b :: bs` begins with. -/
def first (b : UInt8) (bs : Bytes) : Piece :=
  if b < 0x80 then .char (Char.ofNat b.toNat)
  else match lead? b, bs with
    | some l, c :: cs =>
      if l.low ≤ c ∧ c ≤ l.high then
        carryOn l.more (64 * l.bits + (c.toNat - 0x80)) [b, c] cs
      else .broken [b]
    | _, _ => .broken [b]

/-- The pieces of a sequence after its first `skip` bytes. -/
def piecesAfter : Nat → Bytes → List Piece
  | _, [] => []
  | skip + 1, _ :: bs => piecesAfter skip bs
  | 0, b :: bs => first b bs :: piecesAfter ((first b bs).size - 1) bs

def pieces (bs : Bytes) : List Piece := piecesAfter 0 bs

/-- The text that a byte sequence is shown as. -/
def shown (bs : Bytes) : String := String.ofList ((pieces bs).map Piece.shown)

end ContentStore.Utf8
