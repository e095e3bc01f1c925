/-
# `SubtermIndex.Indexer.Insert` — putting a tree into an index

A tree is walked into an index of its own, which is merged only when the whole tree is done.  A
failed call therefore leaves nothing behind.  The price is that a collision can be noticed in two
places: among the nodes of the tree itself while it is walked, and between the tree and the index
when the two are merged.  The caller gets one error for both, and a warning that tells them apart.
-/
import SubtermIndex.Indexer.Walk

namespace SubtermIndex

/-- A tree that has been put into an index. -/
structure Inserted where
  root : NodeHash
  /-- The index with the tree in it. -/
  index : Index
  /-- How many nodes the tree has, equal ones counted once. -/
  staged : Nat
  /-- What the tree has added. -/
  gain : Index.Gain

namespace Indexer

variable {N : Type} (ix : Indexer N)

def mergeWalked (walked : NodeHash × Index) (m : Index) : Except Failure Inserted :=
  (Failure.ofMerge (m.merge walked.2)).map fun merged =>
    { root := walked.1, index := merged, staged := walked.2.size, gain := .between m merged }

def insert (root : N) (m : Index) : Except Failure Inserted :=
  (ix.walk root .root).bind fun walked => mergeWalked walked m

/-- What the call reports: the walk's reports, then success or the warning of a conflict. -/
def insertReports (root : N) (m : Index) : List Event :=
  ix.walkReports root .root ++
    match ix.walk root .root with
    | .error _ => []
    | .ok walked =>
        match mergeWalked walked m with
        | .error failure => failure.warning?.toList
        | .ok d => [.inserted d.root d.staged d.gain.nodes d.gain.edges]

def singleton (root : N) : Except Failure Index :=
  (ix.insert root ∅).map (·.index)

def withUsualLimits : Indexer N :=
  { reader := ix.reader, hasher := ix.hasher }

end Indexer

end SubtermIndex
