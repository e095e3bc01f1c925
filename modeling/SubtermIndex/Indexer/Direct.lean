/-
# `SubtermIndex.Indexer.Direct` — the walk as a recursion

What a walk computes is easier to say by recursion: read the children, visit them from left to
right, read the payload, and close the node.  The stack of `Indexer.walk` is there only because a
tree may be deeper than a recursion.

The recursion is on the levels that the depth limit leaves, so that it ends also where the nodes
that a reader gives never do.
-/
import SubtermIndex.Indexer.Basic

namespace SubtermIndex.Indexer

variable {N : Type} (ix : Indexer N)

/-- Visits the sub-tree that stands at `pos`, adding it to `staging`.  The depth
limit leaves `levels` levels for it, its own included. -/
def visit : (levels : Nat) → N → Position → Index → Except Failure (NodeHash × Index)
  | 0, _, pos, _ => .error (.tooDeep pos ix.maxDepth)
  | levels + 1, node, pos, staging => do
      let children ← ix.childrenAt node pos
      let (hashes, staging) ← visitChildren (visit levels) pos children 0 [] staging
      let payload ← ix.payloadAt node pos
      let done ← ix.close payload children.length hashes staging pos
      return (done.hash, done.staging)

/-- The sub-tree that stands at `origin`: its hash, and an index of it alone. -/
def walkDirect (root : N) (origin : Position) : Except Failure (NodeHash × Index) :=
  ix.visit (ix.maxDepth + 1 - origin.depth) root origin ∅

end SubtermIndex.Indexer
