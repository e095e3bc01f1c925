/-
# `SubtermIndex.Indexer.SharedIndex` — one index shared by several callers

Callers walk their trees on their own and hold the lock only for the merge.  A caller that panics
while it holds the lock poisons it.  Since a merge happens as a whole or not at all, the contents
are sound even then, and the lock goes on serving them.

Here one call is made at a time.  How the steps of several callers may come between one another is
the subject of `Indexer.Callers`.
-/
import SubtermIndex.Indexer.Insert

namespace SubtermIndex

/-- What lies behind the lock. -/
structure SharedIndex where
  contents : Index
  poisoned : Bool := false

namespace SharedIndex

def empty : SharedIndex := { contents := ∅ }

def ofIndex (m : Index) : SharedIndex := { contents := m }

def snapshot (s : SharedIndex) : Index := s.contents

def stats (s : SharedIndex) : Index.Stats := s.contents.stats

/-- A caller panics under the lock. -/
def poison (s : SharedIndex) : SharedIndex := { s with poisoned := true }

def mergeWalked (walked : NodeHash × Index) (s : SharedIndex) :
    Except Failure (Inserted × SharedIndex) :=
  (Indexer.mergeWalked walked s.contents).map fun d => (d, { s with contents := d.index })

variable {N : Type}

/-- Walks a tree, then merges it under the lock. -/
def insert (ix : Indexer N) (root : N) (s : SharedIndex) :
    Except Failure (Inserted × SharedIndex) :=
  (ix.walk root .root).bind fun walked => s.mergeWalked walked

/-- A lock changes nothing, whether it is poisoned or not. -/
theorem insert_eq (ix : Indexer N) (root : N) (s : SharedIndex) :
    s.insert ix root =
      (ix.insert root s.contents).map fun d => (d, { s with contents := d.index }) := by
  rw [insert, Indexer.insert]
  cases ix.walk root .root <;> rfl

def insertReports (ix : Indexer N) (root : N) (s : SharedIndex) : List Event :=
  ix.walkReports root .root ++
    match ix.walk root .root with
    | .error _ => []
    | .ok walked =>
        match s.mergeWalked walked with
        | .error failure => failure.warning?.toList
        | .ok (d, _) => [.insertedShared d.root d.gain.nodes]

end SharedIndex

end SubtermIndex
