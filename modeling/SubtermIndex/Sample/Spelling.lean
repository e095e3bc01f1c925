/-
# `SubtermIndex.Sample.Spelling` — a number that is spelled in two ways

Records that hold a number as a float and as an integer are written alike, so either may stand for
the other in an index.

The digest that goes with them is taken of the lengths of messages.  Two spellings of a record
have one hash anyway, but here also a record with another field has it.  So a node can come again
in another spelling, which is no collision, and a different node can come with its hash, which is
one.
-/
import SubtermIndex.Indexer.Basic

namespace SubtermIndex

/-- Tells messages apart by their lengths alone. -/
def Hasher.byLength : Hasher := fun _ message =>
  ⟨UInt8.ofNat message.length :: List.replicate 31 0, rfl⟩

namespace Sample.Spelling

open Cbor

/-- The four nodes go by their numbers. -/
instance four_ne_zero : @NeZero Nat Zero.ofOfNat0 4 := Nat.instNeZeroSucc

/-- The nodes 1 and 2 hold one number in two spellings.  The node 3 has another field, and a
record of the same length. -/
def payload : Fin 4 → Payload
  | 0 => ⟨[(.text "v", .int (.ofUInt64 1))]⟩
  | 1 => ⟨[(.text "v", .float 0x4000000000000000)]⟩
  | 2 => ⟨[(.text "v", .int (.ofUInt64 2))]⟩
  | 3 => ⟨[(.text "w", .int (.ofUInt64 2))]⟩

/-- The node 0 stands over the nodes 1 and 2, which are leaves like the node 3. -/
def reader : NodeReader (Fin 4) where
  payload i := .ok (payload i)
  children i := .ok (if i = 0 then [1, 2] else [])

def indexer : Indexer (Fin 4) :=
  { reader, hasher := .byLength, maxDepth := 3, splitDepth := 1 }

end Sample.Spelling

end SubtermIndex
