/-
# `SubtermIndex.Bytes` — byte strings and the numbers written into them

A byte string is a list of bytes, so that `++` is concatenation and every fact about lists is a
fact about byte strings.  Numbers are written with a fixed count of bytes, either end first, or
with as few bytes as they need.

A number that does not fit into its count of bytes loses what stands above them, as it does when
it is cut down to a machine word.  Byte strings are ordered byte by byte, and where one of two
begins with the other, the shorter one comes first.  That is the order of keys in a record.
-/
namespace SubtermIndex

/-- A byte string. -/
abbrev Bytes := List UInt8

namespace Bytes

def littleEndian : Nat → Nat → Bytes
  | 0, _ => []
  | count + 1, n => UInt8.ofNat n :: littleEndian count (n / 256)

/-- The `count` low bytes of `n`, most significant first. -/
def bigEndian (count n : Nat) : Bytes :=
  (littleEndian count n).reverse

def littleEndianValue : Bytes → Nat
  | [] => 0
  | b :: bs => b.toNat + 256 * littleEndianValue bs

/-- The number that `bs` writes, most significant byte first. -/
def bigEndianValue (bs : Bytes) : Nat :=
  littleEndianValue bs.reverse

/-- `n` in as few bytes as it needs, most significant first; nothing for 0. -/
def minimalBigEndian (n : Nat) : Bytes :=
  bigEndian (if n = 0 then 0 else n.log2 / 8 + 1) n

def ofText (s : String) : Bytes :=
  s.toUTF8.data.toList

@[simp] theorem length_littleEndian (count n : Nat) :
    (littleEndian count n).length = count := by
  induction count generalizing n with
  | zero => rfl
  | succ count ih => simp [littleEndian, ih]

@[simp] theorem length_bigEndian (count n : Nat) : (bigEndian count n).length = count := by
  simp [bigEndian]

end Bytes

end SubtermIndex
