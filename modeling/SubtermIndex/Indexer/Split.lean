/-
# `SubtermIndex.Indexer.Split` — walking the sub-trees at one depth separately

A parallel call splits the tree at `splitDepth`.  The nodes at that depth, in pre-order, form the
frontier; a crew walks the sub-tree of each on its own, and since a walk depends on nothing else,
it does not matter which worker does which.  The levels above are then closed in one pass, which
takes the results of the frontier in order and merges each where it is reached.

Collecting the frontier stops at the first node that cannot be read or lies too deep.  Joining
stops at that node at the latest, so it never lacks a result.

What is not as in a whole walk is when a collision is noticed.  Two nodes of different sub-trees
that collide meet when these are merged, and by then another error of the second one may have been
found.
-/
import SubtermIndex.Indexer.Insert
import SubtermIndex.Crew

namespace SubtermIndex.Indexer

variable {N : Type} (ix : Indexer N)

/-! ## The frontier -/

/-- Visits children from `next` on for as long as the visits are complete. -/
def collectEach (visit : N → Position → List (N × Position) → Bool × List (N × Position))
    (pos : Position) : List N → (next : Nat) → List (N × Position) → Bool × List (N × Position)
  | [], _, found => (true, found)
  | child :: rest, next, found =>
      match visit child (pos.child next) found with
      | (true, found) => collectEach visit pos rest (next + 1) found
      | (false, found) => (false, found)

/-- Adds the nodes that lie `levels` below `node` to those found, last first, and
says whether there was no obstacle. -/
def collect : (levels : Nat) → N → Position → List (N × Position) → Bool × List (N × Position)
  | 0, node, pos, found => (true, (node, pos) :: found)
  | levels + 1, node, pos, found =>
      if ix.maxDepth < pos.depth then (false, found)
      else
        match ix.reader.children node with
        | .error _ => (false, found)
        | .ok children => collectEach (collect levels) pos children 0 found

/-- The roots of the sub-trees that are walked separately, in pre-order. -/
def frontier (root : N) : List (N × Position) :=
  (ix.collect ix.splitDepth root .root []).2.reverse

/-! ## The levels above -/

/-- What joining works on: the results of the frontier that are still to come,
and the index so far. -/
structure Join where
  results : List (Except Failure (NodeHash × Index))
  staging : Index

def takeResult (pos : Position) (j : Join) : Except Failure (NodeHash × Join) :=
  match j.results with
  | [] => .error (.rejected (.malformed pos (.other "sub-tree result missing")))
  | .error failure :: _ => .error failure
  | .ok (hash, sub) :: rest =>
      (Failure.ofMerge (j.staging.merge sub)).map fun staging => (hash, ⟨rest, staging⟩)

/-- Closes the node at `pos`, the frontier lying `levels` below it. -/
def join : (levels : Nat) → N → Position → Join → Except Failure (NodeHash × Join)
  | 0, _, pos, j => takeResult pos j
  | levels + 1, node, pos, j =>
      if ix.maxDepth < pos.depth then .error (.tooDeep pos ix.maxDepth)
      else do
        let children ← ix.childrenAt node pos
        let (hashes, j) ← visitChildren (join levels) pos children 0 [] j
        let payload ← ix.payloadAt node pos
        let done ← ix.close payload children.length hashes j.staging pos
        return (done.hash, { j with staging := done.staging })

def walkEntry (entry : N × Position) : Except Failure (NodeHash × Index) :=
  ix.walk entry.1 entry.2

def joinAll (root : N) (results : List (Except Failure (NodeHash × Index))) :
    Except Failure (NodeHash × Index) :=
  (ix.join ix.splitDepth root .root ⟨results, ∅⟩).map fun (hash, j) => (hash, j.staging)

def walkSplit (root : N) : Except Failure (NodeHash × Index) :=
  ix.joinAll root ((ix.frontier root).map ix.walkEntry)

/-- The same walk with the frontier left to a crew, under a schedule. -/
def walkByCrew (root : N) (size : Nat) (schedule : List Nat) : Except Failure (NodeHash × Index) :=
  let crew := Crew.run (ix.frontier root) ix.walkEntry schedule (.ofSize size)
  ix.joinAll root crew.answers

/-! ## The call -/

/-- Puts a tree into `m`, its sub-trees at `splitDepth` being walked separately. -/
def insertSplit (root : N) (m : Index) : Except Failure Inserted :=
  (ix.walkSplit root).bind fun walked => mergeWalked walked m

def singletonSplit (root : N) : Except Failure Index :=
  (ix.insertSplit root ∅).map (·.index)

/-- What the call reports about merging.  What happens while nodes are stored
is left out: it comes from the workers, in no fixed order. -/
def insertSplitReports (root : N) (m : Index) : List Event :=
  match ix.insertSplit root m with
  | .error (.mergeConflict hash) => [.mergeCollision hash]
  | .error _ => []
  | .ok d =>
      [.insertedSplit d.root (ix.frontier root).length d.gain.nodes d.gain.edges]

end SubtermIndex.Indexer
