/-!
# BLAKE3

The hash function BLAKE3, without a key, as a function from bytes to 32 bytes. The input is cut into chunks of 1024
bytes and these into blocks of 64, each of which is compressed together with what came before it. The chunks are the
leaves of a binary tree: neighbours are combined from left to right, level by level, and a node without a neighbour
moves up as it is.
-/

namespace SpeechGrammar.Blake3

/-- The state of a compression, and the words of a block. -/
abbrev Block := Vector UInt32 16

/-- The value that is handed on from block to block and from children to parents. -/
abbrev Chaining := Vector UInt32 8

/-- The initial chaining value. -/
def initial : Chaining :=
  #v[0x6A09E667, 0xBB67AE85, 0x3C6EF372, 0xA54FF53A, 0x510E527F, 0x9B05688C, 0x1F83D9AB, 0x5BE0CD19]

/-- How the words of a block are rearranged between rounds. -/
def permutation : Vector (Fin 16) 16 := #v[2, 6, 3, 10, 7, 0, 4, 13, 1, 11, 12, 5, 9, 14, 15, 8]

/-- The flag of the first block of a chunk. -/
def chunkStart : UInt32 := 1

/-- The flag of the last block of a chunk. -/
def chunkEnd : UInt32 := 2

/-- The flag of a block that combines two nodes of the tree. -/
def parentFlag : UInt32 := 4

/-- The flag of the compression at the root of the tree. -/
def rootFlag : UInt32 := 8

/-- Moves the bits to the right; those that fall out come in at the left. -/
def rotateRight (x n : UInt32) : UInt32 := (x >>> n) ||| (x <<< (32 - n))

/-- Mixes two words of the block into four words of the state. -/
def mix (v : Block) (a b c d : Fin 16) (x y : UInt32) : Block :=
  let va := v[a] + v[b] + x
  let vd := rotateRight (v[d] ^^^ va) 16
  let vc := v[c] + vd
  let vb := rotateRight (v[b] ^^^ vc) 12
  let va := va + vb + y
  let vd := rotateRight (vd ^^^ va) 8
  let vc := vc + vd
  let vb := rotateRight (vb ^^^ vc) 7
  (((v.set a va).set b vb).set c vc).set d vd

/-- Mixes the block into the columns of the state, and then into its diagonals. -/
def mixAll (v m : Block) : Block :=
  let v := mix v 0 4 8 12 m[0] m[1]
  let v := mix v 1 5 9 13 m[2] m[3]
  let v := mix v 2 6 10 14 m[4] m[5]
  let v := mix v 3 7 11 15 m[6] m[7]
  let v := mix v 0 5 10 15 m[8] m[9]
  let v := mix v 1 6 11 12 m[10] m[11]
  let v := mix v 2 7 8 13 m[12] m[13]
  mix v 3 4 9 14 m[14] m[15]

/-- So many rounds; between them the words of the block are rearranged. -/
def rounds : Nat → Block → Block → Block
  | 0, v, _ => v
  | n + 1, v, m => rounds n (mixAll v m) (permutation.map fun i => m[i])

/-- All that one compression takes in. -/
structure Input where
  chaining : Chaining
  block : Block
  /-- The number of the chunk. -/
  counter : UInt64
  /-- How many bytes of the block come from the input. -/
  length : UInt32
  flags : UInt32

/-- Compresses a block into a chaining value. -/
def Input.compress (i : Input) : Chaining :=
  let h := i.chaining
  let state : Block :=
    #v[h[0], h[1], h[2], h[3], h[4], h[5], h[6], h[7], initial[0], initial[1], initial[2], initial[3],
      i.counter.toUInt32, (i.counter >>> 32).toUInt32, i.length, i.flags]
  let v := rounds 7 state i.block
  Vector.ofFn fun k : Fin 8 => v[k.val] ^^^ v[k.val + 8]

/-- Four bytes, lowest first, as a word. -/
def wordOf (a b c d : UInt8) : UInt32 :=
  a.toUInt32 ||| (b.toUInt32 <<< 8) ||| (c.toUInt32 <<< 16) ||| (d.toUInt32 <<< 24)

/-- The four bytes of a word, lowest first. -/
def bytesOf (w : UInt32) : List UInt8 :=
  [w.toUInt8, (w >>> 8).toUInt8, (w >>> 16).toUInt8, (w >>> 24).toUInt8]

/-- The words of a block that is filled up with zeros. -/
def blockOf (bytes : List UInt8) : Block :=
  let bs := bytes.toArray
  Vector.ofFn fun k : Fin 16 =>
    let byte (i : Nat) := (bs[4 * k.val + i]?).getD 0
    wordOf (byte 0) (byte 1) (byte 2) (byte 3)

/-- Cuts a list into pieces of so many elements, the last of which may be shorter. An empty list has no pieces. -/
def pieces (size : Nat) : (fuel : Nat) → List UInt8 → List (List UInt8)
  | 0, _ => []
  | fuel + 1, bytes =>
    if bytes.isEmpty then [] else bytes.take size :: pieces size fuel (bytes.drop size)

/-- The pieces of a list, of which there is at least one. -/
def piecesOf (size : Nat) (bytes : List UInt8) : List (List UInt8) :=
  match pieces size (bytes.length + 1) bytes with
  | [] => [[]]
  | ps => ps

/-- The last compression of a chunk, after the blocks before it have been compressed. -/
def chunkBlocks (counter : UInt64) (chaining : Chaining) (flags : UInt32) : List (List UInt8) → Input
  | [] => ⟨chaining, blockOf [], counter, 0, flags ||| chunkEnd⟩
  | [b] => ⟨chaining, blockOf b, counter, b.length.toUInt32, flags ||| chunkEnd⟩
  | b :: bs => chunkBlocks counter (Input.compress ⟨chaining, blockOf b, counter, 64, flags⟩) 0 bs

/-- The last compression of a chunk. -/
def chunk (counter : UInt64) (bytes : List UInt8) : Input :=
  chunkBlocks counter initial chunkStart (piecesOf 64 bytes)

/-- The compression of two neighbours of the tree. -/
def parent (l r : Input) : Input :=
  let h := l.compress
  let k := r.compress
  ⟨initial, Vector.ofFn fun i : Fin 16 => if hi : i.val < 8 then h[i.val] else k[i.val - 8], 0, 64, parentFlag⟩

/-- Combines neighbours from left to right. -/
def combine : List Input → List Input
  | l :: r :: is => parent l r :: combine is
  | is => is

/-- The root of the tree over the nodes, of which there are at most `2 ^ levels`. -/
def tree : (levels : Nat) → List Input → Input
  | 0, is => is.headD (chunk 0 [])
  | levels + 1, is => tree levels (combine is)

/-- The last compression of the input, which is that at the root of the tree. -/
def rootInput (bytes : List UInt8) : Input :=
  let chunks := (piecesOf 1024 bytes).zipIdx.map fun (c, i) => chunk i.toUInt64 c
  let root := tree chunks.length chunks
  { root with flags := root.flags ||| rootFlag }

/-- The hash of the bytes. -/
def hash (bytes : List UInt8) : List UInt8 := (rootInput bytes).compress.toList.flatMap bytesOf

/-- The hash has 32 bytes. -/
theorem length_hash (bytes : List UInt8) : (hash bytes).length = 32 := by
  simp [hash, List.length_flatMap, bytesOf, List.map_const']

end SpeechGrammar.Blake3
