import ContentStore.Text.Bytes

/-!
# BLAKE3

The message is cut into chunks of 1024 bytes, which are the leaves of a binary tree: the left part
of a tree holds the largest power of two of chunks that leaves something for the right part.  A
chunk is a chain of compressions of its blocks of 64 bytes, an inner node one compression of what
its two parts come to.  The digest is the first half of the compression at the top.
-/

namespace ContentStore.Blake3

/-- Sixteen words: a block of a message, or the state of a compression. -/
abbrev Block := Vector UInt32 16

/-- Eight words that stand for all of the message below a node. -/
abbrev Chain := Vector UInt32 8

/-- The chain that every chunk and every inner node starts from. -/
def initialChain : Chain :=
  #v[0x6a09e667, 0xbb67ae85, 0x3c6ef372, 0xa54ff53a, 0x510e527f, 0x9b05688c, 0x1f83d9ab, 0x5be0cd19]

/-- Marks the first block of a chunk. -/
def chunkStart : UInt32 := 1

/-- Marks the last block of a chunk. -/
def chunkEnd : UInt32 := 2

/-- Marks an inner node. -/
def parent : UInt32 := 4

/-- Marks the compression at the top. -/
def top : UInt32 := 8

/-! ### Compression -/

def rotate (w : UInt32) (n : UInt32) : UInt32 := (w >>> n) ||| (w <<< (32 - n))

/-- Mixes two message words into four words of the state. -/
def mix (s : Block) (a b c d : Fin 16) (x y : UInt32) : Block :=
  let wa := s[a] + s[b] + x
  let wd := rotate (s[d] ^^^ wa) 16
  let wc := s[c] + wd
  let wb := rotate (s[b] ^^^ wc) 12
  let wa := wa + wb + y
  let wd := rotate (wd ^^^ wa) 8
  let wc := wc + wd
  let wb := rotate (wb ^^^ wc) 7
  (((s.set a wa).set b wb).set c wc).set d wd

/-- Mixes a block into the columns and then into the diagonals of the state. -/
def round (s m : Block) : Block :=
  let s := mix s 0 4 8 12 m[0] m[1]
  let s := mix s 1 5 9 13 m[2] m[3]
  let s := mix s 2 6 10 14 m[4] m[5]
  let s := mix s 3 7 11 15 m[6] m[7]
  let s := mix s 0 5 10 15 m[8] m[9]
  let s := mix s 1 6 11 12 m[10] m[11]
  let s := mix s 2 7 8 13 m[12] m[13]
  mix s 3 4 9 14 m[14] m[15]

/-- The order in which the next round takes the words of the block. -/
def order : Vector (Fin 16) 16 := #v[2, 6, 3, 10, 7, 0, 4, 13, 1, 11, 12, 5, 9, 14, 15, 8]

def permute (m : Block) : Block := order.map fun i => m[i]

def rounds : Nat → Block → Block → Block
  | 0, s, _ => s
  | n + 1, s, m => rounds n (round s m) (permute m)

/-- One compression, before its result is cut to what is needed. -/
structure Node where
  chain : Chain
  block : Block
  counter : UInt64
  size : UInt32
  flags : UInt32

namespace Node

/-- The first half of the result, combined with the second. -/
def compress (n : Node) (flags : UInt32) : Chain :=
  let chain := n.chain
  let low := n.counter.toUInt32
  let high := (n.counter >>> 32).toUInt32
  let start : Block :=
    #v[chain[0], chain[1], chain[2], chain[3], chain[4], chain[5], chain[6], chain[7],
      initialChain[0], initialChain[1], initialChain[2], initialChain[3],
      low, high, n.size, n.flags ||| flags]
  let s := rounds 7 start n.block
  Vector.ofFn fun i : Fin 8 => s[i.val] ^^^ s[i.val + 8]

/-- What the node comes to inside a tree. -/
def inner (n : Node) : Chain := n.compress 0

def atTop (n : Node) : Chain := n.compress top

end Node

/-! ### Chunks -/

/-- The number with the given bytes, the low one first. -/
def wordOf (bs : Bytes) : UInt32 := bs.foldr (fun b w => (w <<< 8) ||| b.toUInt32) 0

/-- The words of at most 64 bytes, filled up with zeros. -/
def blockOf (bs : Bytes) : Block :=
  let words := ((Bytes.inPieces 4 bs).map wordOf).toArray
  Vector.ofFn fun i : Fin 16 => words.getD i 0

/-- The last compression of a chunk whose blocks so far came to `chain`. -/
def chunkFrom (counter : UInt64) (chain : Chain) (flags : UInt32) : List Bytes → Node
  | [] => ⟨chain, blockOf [], counter, 0, flags ||| chunkEnd⟩
  | [last] => ⟨chain, blockOf last, counter, UInt32.ofNat last.length, flags ||| chunkEnd⟩
  | block :: blocks =>
    let node : Node := ⟨chain, blockOf block, counter, UInt32.ofNat block.length, flags⟩
    chunkFrom counter node.inner 0 blocks

/-- The last compression of the chunk with the given number. -/
def chunk (counter : UInt64) (bs : Bytes) : Node :=
  chunkFrom counter initialChain chunkStart (Bytes.inPieces 64 bs)

/-! ### The tree -/

/-- The number of bytes in the left part of a tree over more than one chunk. -/
def leftSize (size : Nat) : Nat := 1024 * Nat.pow 2 ((size - 1) / 1024).log2

theorem leftSize_pos (size : Nat) : 0 < leftSize size := by
  have : 0 < Nat.pow 2 ((size - 1) / 1024).log2 := Nat.two_pow_pos _
  unfold leftSize
  omega

theorem leftSize_lt {size : Nat} (h : 1024 < size) : leftSize size < size := by
  have hk : (size - 1) / 1024 ≠ 0 := by omega
  have : Nat.pow 2 ((size - 1) / 1024).log2 ≤ (size - 1) / 1024 := Nat.log2_self_le hk
  unfold leftSize
  omega

def join (left right : Chain) : Node :=
  ⟨initialChain, left ++ right, 0, 64, parent⟩

/-- The node over a message whose first chunk has the given number. -/
def tree (counter : Nat) (bs : Bytes) : Node :=
  if h : bs.length ≤ 1024 then chunk (UInt64.ofNat counter) bs
  else
    let left := leftSize bs.length
    join (tree counter (bs.take left)).inner (tree (counter + left / 1024) (bs.drop left)).inner
termination_by bs.length
decreasing_by
  · have : leftSize bs.length < bs.length := leftSize_lt (by omega)
    simp only [List.length_take]
    omega
  · have := leftSize_pos bs.length
    simp only [List.length_drop]
    omega

/-- The bytes of a word, the low one first. -/
def bytesOf (w : UInt32) : Bytes :=
  [w.toUInt8, (w >>> 8).toUInt8, (w >>> 16).toUInt8, (w >>> 24).toUInt8]

def hash (message : Bytes) : Bytes := (tree 0 message).atTop.toList.flatMap bytesOf

end ContentStore.Blake3
