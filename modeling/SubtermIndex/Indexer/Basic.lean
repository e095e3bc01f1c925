/-
# `SubtermIndex.Indexer.Basic` — how trees are indexed, and one node of one

An indexer is a reader of nodes, a digest and two limits.  A node whose children have all been
hashed is closed: its shape and its record are encoded, and the node, its edges and its shape go
into a staging index.

A failure is either an error of the tree, or a collision in one of two places.  A reader and an
encoder do not know where in a tree they are, and report at the root; the position is put in here,
where both are called (`ofReading`, `ofEncoding`).

Of several errors at one node the first is reported that a walk comes to: whether the node lies too
deep is looked at before anything is read, its children are read when it is entered, and its payload
not before all children have been closed.
-/
import SubtermIndex.NodeReader
import SubtermIndex.Hasher
import SubtermIndex.Event
import SubtermIndex.Index.Merge

namespace SubtermIndex

open Cbor

/-- The greatest number of edges between the root and any node, unless another one is chosen. -/
def usualMaxDepth : Nat := 65536

/-- How trees of nodes `N` are indexed. -/
structure Indexer (N : Type) where
  reader : NodeReader N
  hasher : Hasher
  maxDepth : Nat := usualMaxDepth
  /-- Where a parallel call splits the tree: every node at this depth roots a sub-tree
  that is walked on its own. -/
  splitDepth : Nat := 0

/-- Why a call stops.  The two places at which a collision is noticed are told
apart, because they are reported differently. -/
inductive Failure where
  | rejected (error : TreeError)
  | storeConflict (hash : NodeHash)
  | mergeConflict (hash : NodeHash)
  deriving DecidableEq

namespace Failure

def toError : Failure → TreeError
  | rejected error => error
  | storeConflict hash => .collision hash
  | mergeConflict hash => .collision hash

/-- The warning that goes with a collision. -/
def warning? : Failure → Option Event
  | rejected _ => none
  | storeConflict hash => some (.collision hash)
  | mergeConflict hash => some (.mergeCollision hash)

def ofMerge {α : Type} : Except NodeHash α → Except Failure α
  | .ok a => .ok a
  | .error hash => .error (.mergeConflict hash)

/-- The failure of reading a node: the reader's error, moved to where the node stands. -/
def ofReading {α : Type} (pos : Position) : Except TreeError α → Except Failure α
  | .ok a => .ok a
  | .error error => .error (.rejected (error.moveTo pos))

/-- The failure of encoding what stands at `pos`. -/
def ofEncoding {α : Type} (pos : Position) : Except EncodeError α → Except Failure α
  | .ok a => .ok a
  | .error cause => .error (.rejected (.malformed pos (.notEncodable cause)))

def tooDeep (pos : Position) (limit : Nat) : Failure :=
  .rejected (.malformed pos (.tooDeep limit))

end Failure

/-- A node that has been given its hash, and the staging index it was added to. -/
structure Closed where
  hash : NodeHash
  shape : Shape
  isNew : Bool
  staging : Index

/-- The report about a closed node, if it was not there before. -/
def Closed.event? (d : Closed) (pos : Position) : Option Event :=
  if d.isNew then some (.stored d.hash d.shape pos) else none

namespace Indexer

variable {N : Type} (ix : Indexer N)

def childrenAt (node : N) (pos : Position) : Except Failure (List N) :=
  Failure.ofReading pos (ix.reader.children node)

def payloadAt (node : N) (pos : Position) : Except Failure Payload :=
  Failure.ofReading pos (ix.reader.payload node)

/-- Gives a node its hash, once those of its children are known. -/
def close (payload : Payload) (arity : Nat) (hashes : List NodeHash) (staging : Index)
    (pos : Position) : Except Failure Closed := do
  let shape ← Failure.ofEncoding pos (ix.hasher.shapeOf payload)
  let node ← (Node.ofHashes payload arity hashes).mapError .rejected
  let record ← Failure.ofEncoding pos node.encodedRecord
  let hash := ix.hasher.nodeHash record
  match (staging.addEdges hash node.children).store? hash node with
  | none => .error (.storeConflict hash)
  | some (isNew, staging) => .ok ⟨hash, shape, isNew, staging.addShape shape hash⟩

/-- Visits children from `next` on, each in the state that the one before has left;
`hashes` holds the hashes of the earlier ones, last first. -/
def visitChildren {σ : Type} (visit : N → Position → σ → Except Failure (NodeHash × σ))
    (pos : Position) :
    List N → (next : Nat) → List NodeHash → σ → Except Failure (List NodeHash × σ)
  | [], _, hashes, state => .ok (hashes.reverse, state)
  | child :: rest, next, hashes, state =>
      match visit child (pos.child next) state with
      | .error failure => .error failure
      | .ok (hash, state) => visitChildren visit pos rest (next + 1) (hash :: hashes) state

/-- The shape of a node, whatever its children are. -/
def shape (node : N) : Except TreeError Shape := do
  let payload ← ix.reader.payload node
  match ix.hasher.shapeOf payload with
  | .ok shape => .ok shape
  | .error cause => .error (.malformed .root (.notEncodable cause))

end Indexer

end SubtermIndex
