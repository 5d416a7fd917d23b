import GeneGraph.Digest

/-!
# BLAKE3

The hash function BLAKE3 in its plain mode, with an output of thirty-two bytes. The input is cut
into chunks of 1024 bytes and each chunk into blocks of 64 bytes; the chunks are the leaves of a
tree whose left subtrees are as large as a power of two allows.
-/

namespace GeneGraph.Blake3

/-- Eight words that stand for all that was read so far. -/
abbrev Chain := Vector UInt32 8

abbrev Block := Vector UInt32 16

/-- The words that every chain begins with. -/
def start : Chain :=
  #v[0x6A09E667, 0xBB67AE85, 0x3C6EF372, 0xA54FF53A, 0x510E527F, 0x9B05688C, 0x1F83D9AB,
    0x5BE0CD19]

/-- Flags that tell a block's place. -/
def chunkStart : UInt32 := 1

/-- The last block of a chunk. -/
def chunkEnd : UInt32 := 2

/-- A node over two subtrees. -/
def parent : UInt32 := 4

/-- The last compression of all. -/
def root : UInt32 := 8

def rotateRight (w : UInt32) (n : UInt32) : UInt32 := (w >>> n) ||| (w <<< (32 - n))

/-- Mixes two message words into four words of the state. -/
def mix (s : Block) (a b c d : Fin 16) (x y : UInt32) : Block :=
  let s := s.set a (s[a] + s[b] + x)
  let s := s.set d (rotateRight (s[d] ^^^ s[a]) 16)
  let s := s.set c (s[c] + s[d])
  let s := s.set b (rotateRight (s[b] ^^^ s[c]) 12)
  let s := s.set a (s[a] + s[b] + y)
  let s := s.set d (rotateRight (s[d] ^^^ s[a]) 8)
  let s := s.set c (s[c] + s[d])
  s.set b (rotateRight (s[b] ^^^ s[c]) 7)

/-- Mixes a block into the state, first by columns, then by diagonals. -/
def round (s m : Block) : Block :=
  let s := mix s 0 4 8 12 m[0] m[1]
  let s := mix s 1 5 9 13 m[2] m[3]
  let s := mix s 2 6 10 14 m[4] m[5]
  let s := mix s 3 7 11 15 m[6] m[7]
  let s := mix s 0 5 10 15 m[8] m[9]
  let s := mix s 1 6 11 12 m[10] m[11]
  let s := mix s 2 7 8 13 m[12] m[13]
  mix s 3 4 9 14 m[14] m[15]

/-- The order of the message words in the next round. -/
def permute (m : Block) : Block :=
  #v[m[2], m[6], m[3], m[10], m[7], m[0], m[4], m[13], m[1], m[11], m[12], m[5], m[9], m[14],
    m[15], m[8]]

/-- Mixes a block into the state so many times. -/
def rounds : Nat → Block → Block → Block
  | 0, s, _ => s
  | n + 1, s, m => rounds n (round s m) (permute m)

/-- A block with all that its compression depends on. -/
structure Node where
  chain : Chain
  block : Block
  /-- The number of the chunk, for the blocks of a chunk. -/
  counter : UInt64
  /-- The number of bytes in the block. -/
  length : UInt32
  flags : UInt32

/-- The chain after a block. -/
def Node.compress (n : Node) (flags : UInt32) : Chain :=
  let h := n.chain
  let s := rounds 7
    #v[h[0], h[1], h[2], h[3], h[4], h[5], h[6], h[7], start[0], start[1], start[2], start[3],
      n.counter.toUInt32, (n.counter >>> 32).toUInt32, n.length, n.flags ||| flags] n.block
  Vector.ofFn fun i : Fin 8 => s[i.val] ^^^ s[i.val + 8]

/-- The word of four bytes, the least byte first; missing bytes count as zero. -/
def wordOf (bs : List UInt8) : UInt32 :=
  match bs with
  | a :: b :: c :: d :: _ =>
    a.toUInt32 ||| (b.toUInt32 <<< 8) ||| (c.toUInt32 <<< 16) ||| (d.toUInt32 <<< 24)
  | a :: b :: c :: _ => a.toUInt32 ||| (b.toUInt32 <<< 8) ||| (c.toUInt32 <<< 16)
  | a :: b :: _ => a.toUInt32 ||| (b.toUInt32 <<< 8)
  | a :: _ => a.toUInt32
  | [] => 0

/-- The words of at most 64 bytes. -/
def blockOf (bs : List UInt8) : Block := Vector.ofFn fun i : Fin 16 => wordOf (bs.drop (4 * i.val))

/-- The last block of a chunk, after the blocks before it. -/
def chunkNode (counter : UInt64) (chain : Chain) (flags : UInt32) (bs : List UInt8) : Node :=
  if bs.length ≤ 64 then
    ⟨chain, blockOf bs, counter, UInt32.ofNat bs.length, flags ||| chunkEnd⟩
  else
    let node : Node := ⟨chain, blockOf (bs.take 64), counter, 64, flags⟩
    chunkNode counter (node.compress 0) 0 (bs.drop 64)
termination_by bs.length
decreasing_by simp only [List.length_drop]; omega

def parentNode (left right : Chain) : Node :=
  ⟨start, (left ++ right : Vector UInt32 16), 0, 64, parent⟩

/-- The size of the left subtree: the largest power of two of chunks that leaves a byte over. -/
def leftSize (length : Nat) : Nat := 1 <<< (length - 1).log2

theorem leftSize_lt {length : Nat} (h : 1024 < length) : leftSize length < length := by
  have := @Nat.log2_self_le (length - 1) (by omega)
  rw [leftSize, Nat.one_shiftLeft]
  omega

theorem leftSize_pos (length : Nat) : 0 < leftSize length := by
  rw [leftSize, Nat.one_shiftLeft]
  exact Nat.two_pow_pos _

/-- The top node of the tree over some bytes, of which the first is in the given chunk. -/
def treeNode (counter : Nat) (bs : List UInt8) : Node :=
  if h : bs.length ≤ 1024 then chunkNode (UInt64.ofNat counter) start chunkStart bs
  else
    let size := leftSize bs.length
    parentNode ((treeNode counter (bs.take size)).compress 0)
      ((treeNode (counter + size / 1024) (bs.drop size)).compress 0)
termination_by bs.length
decreasing_by
  · have := @leftSize_lt bs.length (by omega)
    simp only [List.length_take]
    omega
  · have := leftSize_pos bs.length
    simp only [List.length_drop]
    omega

/-- The bytes of a word, the least byte first. -/
def bytesOf (w : UInt32) : Vector UInt8 4 :=
  #v[w.toUInt8, (w >>> 8).toUInt8, (w >>> 16).toUInt8, (w >>> 24).toUInt8]

def hash (bs : List UInt8) : Digest :=
  let words := (treeNode 0 bs).compress root
  ⟨(words.map bytesOf).flatten⟩

end GeneGraph.Blake3
