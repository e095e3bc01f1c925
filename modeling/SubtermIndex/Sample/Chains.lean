/-
# `SubtermIndex.Sample.Chains` — trees that differ at the bottom only

Three trees with one number on each level: 300 at the root, 30 below it, and 2 at the leaf.  The
root has the same child twice.  The trees differ in how the leaf is written.  In two of them its
number is spelled as an integer and as a float, so that these two are structurally equal.  In the
third one another field holds it.

The digest is taken of the lengths of messages.  Numbers on different levels have encodings of
different lengths, so that no tree collides with itself.  The three kinds of leaf have records of
one length, and therefore the trees have one hash on every level, though the third of them is
different.  Comparing two roots, their payloads and their child hashes, shows nothing of that.
-/
import SubtermIndex.Sample.Spelling

namespace SubtermIndex.Sample.Chains

open Cbor

inductive Ending
  | asInteger
  | asFloat
  | otherField
deriving DecidableEq, Repr

inductive Level
  | top
  | middle
  | bottom
deriving DecidableEq, Repr

structure Place where
  ending : Ending
  level : Level
deriving DecidableEq, Repr

def payload : Place → Payload
  | ⟨_, .top⟩ => ⟨[(.text "v", .int (.ofUInt64 300))]⟩
  | ⟨_, .middle⟩ => ⟨[(.text "v", .int (.ofUInt64 30))]⟩
  | ⟨.asInteger, .bottom⟩ => ⟨[(.text "v", .int (.ofUInt64 2))]⟩
  | ⟨.asFloat, .bottom⟩ => ⟨[(.text "v", .float 0x4000000000000000)]⟩
  | ⟨.otherField, .bottom⟩ => ⟨[(.text "w", .int (.ofUInt64 2))]⟩

def children : Place → List Place
  | ⟨ending, .top⟩ => [⟨ending, .middle⟩, ⟨ending, .middle⟩]
  | ⟨ending, .middle⟩ => [⟨ending, .bottom⟩]
  | ⟨_, .bottom⟩ => []

def indexer : Indexer Place where
  reader := { payload := fun place => .ok (payload place)
              children := fun place => .ok (children place) }
  hasher := .byLength
  maxDepth := 2
  splitDepth := 1

/-- The root of the tree with a leaf of the given kind. -/
def root (ending : Ending) : Place := ⟨ending, .top⟩

end SubtermIndex.Sample.Chains
