/-
# `SubtermIndex.Event` — what a call reports while it runs

A call may report what it does: that a node was stored, that a tree was put into an index, that a
hash collided.  Reports have a level, a message and named fields, and in the fields hashes are cut
down to their first eight bytes.

Reports are data here.  Those of a call are given by a function beside it (`walkReports`,
`insertReports`), in the order in which they are made, and the call itself does not know of them.
-/
import SubtermIndex.Position
import SubtermIndex.Digest

namespace SubtermIndex

/-- A report.  Hashes are shown by their first eight bytes. -/
inductive Event where
  | stored (hash : NodeHash) (shape : Shape) (pos : Position)
  | inserted (root : NodeHash) (staged newNodes newEdges : Nat)
  | insertedSplit (root : NodeHash) (subtrees newNodes newEdges : Nat)
  | insertedShared (root : NodeHash) (newNodes : Nat)
  | collision (hash : NodeHash)
  | mergeCollision (hash : NodeHash)
  deriving DecidableEq

namespace Event

/-- How much a report matters. -/
inductive Level where
  | trace | debug | warn
  deriving DecidableEq, Repr

def Level.name : Level → String
  | trace => "TRACE"
  | debug => "DEBUG"
  | warn => "WARN"

def level : Event → Level
  | stored .. => .trace
  | inserted .. | insertedSplit .. | insertedShared .. => .debug
  | collision _ | mergeCollision _ => .warn

def message : Event → String
  | stored .. => "interned"
  | inserted .. => "indexed tree"
  | insertedSplit .. => "indexed tree in parallel"
  | insertedShared .. => "indexed tree into shared maps"
  | collision _ => "canonical hash collision"
  | mergeCollision _ => "canonical hash collision on merge"

inductive Field where
  | text (s : String)
  | count (n : Nat)
  deriving DecidableEq, Repr

def fields : Event → List (String × Field)
  | stored hash shape pos =>
      [("hash", .text hash.shortHex), ("shape", .text shape.shortHex), ("path", .text pos.render)]
  | inserted root staged newNodes newEdges =>
      [("root", .text root.shortHex), ("staged", .count staged),
       ("new_nodes", .count newNodes), ("new_edges", .count newEdges)]
  | insertedSplit root subtrees newNodes newEdges =>
      [("root", .text root.shortHex), ("subtrees", .count subtrees),
       ("new_nodes", .count newNodes), ("new_edges", .count newEdges)]
  | insertedShared root newNodes =>
      [("root", .text root.shortHex), ("new_nodes", .count newNodes)]
  | collision hash => [("hash", .text hash.shortHex)]
  | mergeCollision hash => [("hash", .text hash.shortHex)]

end Event

end SubtermIndex
