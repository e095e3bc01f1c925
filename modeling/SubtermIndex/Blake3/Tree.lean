/-
# `SubtermIndex.Blake3.Tree` — chunks, the tree over them, and the two modes

The input is cut into chunks of 1024 bytes, each a chain of 64-byte blocks.  Chunks are the leaves
of a binary tree whose left sub-trees hold the largest power of two of chunks that leaves
something to the right.  The last compression carries the root flag and gives the 32 bytes of the
digest.

Which compression is the last one is not known before the end of the message.  So the definitions
for chunks and sub-trees give the input of their last compression and do not perform it: whoever
is above them either compresses it into a chaining value, or adds the root flag and takes the
digest.

A mode is a key and a set of flags.  The two modes in use differ in nothing else.
-/
import SubtermIndex.Blake3.Compression

namespace SubtermIndex.Blake3

/-- The marks that keep the kinds of compression apart. -/
def chunkStart : UInt32 := 1
def chunkEnd : UInt32 := 2
def parent : UInt32 := 4
def root : UInt32 := 8
def keyed : UInt32 := 16

/-- How a whole message is digested: the key words and the flags of every compression. -/
structure Mode where
  key : ChainingValue
  flags : UInt32

def words (size : Nat) (bs : Bytes) : Vector UInt32 size :=
  let a := bs.toArray
  Vector.ofFn fun i : Fin size =>
    (a.getD (4 * i) 0).toUInt32 ||| ((a.getD (4 * i + 1) 0).toUInt32 <<< 8) |||
      ((a.getD (4 * i + 2) 0).toUInt32 <<< 16) ||| ((a.getD (4 * i + 3) 0).toUInt32 <<< 24)

def ChainingValue.bytes (v : ChainingValue) : Bytes :=
  v.toList.flatMap fun w => Bytes.littleEndian 4 w.toNat

/-- The pieces of `size` bytes of a byte string, the last one possibly shorter;
the empty string has one empty piece. -/
def pieces (size : Nat) (bs : Bytes) (done : List Bytes) : List Bytes :=
  let rest := bs.drop size
  if _h : size = 0 ∨ rest = [] then (bs :: done).reverse
  else pieces size rest (bs.take size :: done)
termination_by bs.length
decreasing_by
  have := List.length_pos_iff.2 (not_or.1 _h).2
  simp only [rest, List.length_drop] at *
  omega

/-- The last compression of a chunk, the earlier blocks being chained already. -/
def chunkBlocks (mode : Mode) (counter : UInt64) :
    List Bytes → ChainingValue → (extra : UInt32) → Input
  | [], v, extra => ⟨v, words 16 [], counter, 0, mode.flags ||| extra ||| chunkEnd⟩
  | [b], v, extra =>
      ⟨v, words 16 b, counter, UInt32.ofNat b.length, mode.flags ||| extra ||| chunkEnd⟩
  | b :: rest, v, extra =>
      let link : Input := ⟨v, words 16 b, counter, UInt32.ofNat b.length, mode.flags ||| extra⟩
      chunkBlocks mode counter rest link.compress 0

def chunkInput (mode : Mode) (counter : UInt64) (chunk : Bytes) : Input :=
  chunkBlocks mode counter (pieces 64 chunk []) mode.key chunkStart

def parentInput (mode : Mode) (left right : ChainingValue) : Input :=
  ⟨mode.key, left ++ right, 0, 64, mode.flags ||| parent⟩

/-- The largest power of two below `n`, for `1 < n`. -/
def leftCount (n : Nat) : Nat :=
  1 <<< (n - 1).log2

theorem leftCount_pos (n : Nat) : 0 < leftCount n := by
  rw [leftCount, Nat.one_shiftLeft]
  exact Nat.two_pow_pos _

theorem leftCount_lt {n : Nat} (h : 1 < n) : leftCount n < n := by
  have := Nat.log2_self_le (n := n - 1) (by omega)
  rw [leftCount, Nat.one_shiftLeft]
  omega

/-- The last compression of the tree over `chunks`, the first of which stands at `counter`. -/
def treeInput (mode : Mode) (counter : Nat) (chunks : List Bytes) : Input :=
  if _h : 1 < chunks.length then
    let left := leftCount chunks.length
    parentInput mode
      (treeInput mode counter (chunks.take left)).compress
      (treeInput mode (counter + left) (chunks.drop left)).compress
  else chunkInput mode (UInt64.ofNat counter) chunks.flatten
termination_by chunks.length
decreasing_by
  · have := leftCount_lt _h; simp only [List.length_take]; omega
  · have := leftCount_pos chunks.length; simp only [List.length_drop]; omega

/-- The 32 bytes that a mode gives a message. -/
def Mode.digest (mode : Mode) (message : Bytes) : Bytes :=
  let last := treeInput mode 0 (pieces 1024 message [])
  ChainingValue.bytes { last with flags := last.flags ||| root }.compress

def plainMode : Mode := ⟨initialValue, 0⟩

/-- The mode under a key of 32 bytes. -/
def keyedMode (key : Bytes) : Mode := ⟨words 8 key, keyed⟩

@[simp] theorem ChainingValue.length_bytes (v : ChainingValue) :
    (ChainingValue.bytes v).length = 32 := by
  simp [ChainingValue.bytes, List.length_flatMap, List.map_const']

theorem Mode.length_digest (mode : Mode) (message : Bytes) :
    (mode.digest message).length = 32 := by
  simp [Mode.digest]

end SubtermIndex.Blake3
