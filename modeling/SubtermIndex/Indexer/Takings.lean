/-
# `SubtermIndex.Indexer.Takings` — an account of the results that joining takes

Closing the levels above a frontier takes the results of the frontier off a list, and nothing in
a result tells which node it belongs to.  Here is the same program with an account of every result
that it asks for: the node that it has reached and its position, and the result that it gets,
unless none is left.  The account is kept when the program fails.

Results are of an arbitrary type of work, so that what is proved of the account does not depend on
what the workers do.
-/
import SubtermIndex.Indexer.InPlace

namespace SubtermIndex.Indexer

/-- A node of the frontier that joining has reached, and the result that it gets for it. -/
structure Taking (N : Type) where
  node : N
  pos : Position
  result? : Option (Except Failure (NodeHash × Index))

structure AccountedJoin (N : Type) where
  join : Join
  takings : List (Taking N)

namespace AccountedJoin

variable {N : Type}

def onJoin {α : Type} : Routine Join α → Routine (AccountedJoin N) α :=
  Routine.on AccountedJoin.join fun j s => { s with join := j }

/-- Enters what the node at `pos` gets. -/
def enter (node : N) (pos : Position) : Routine (AccountedJoin N) PUnit :=
  modify fun s => { s with takings := s.takings ++ [⟨node, pos, s.join.results.head?⟩] }

end AccountedJoin

variable {N : Type} (ix : Indexer N)

def joinAccounted : (levels : Nat) → N → Position → Routine (AccountedJoin N) NodeHash
  | 0, node, pos => do
      AccountedJoin.enter node pos
      AccountedJoin.onJoin (takeResultInPlace pos)
  | levels + 1, node, pos =>
      if ix.maxDepth < pos.depth then throw (.tooDeep pos ix.maxDepth)
      else do
        let children ← Routine.ofExcept (ix.childrenAt node pos)
        let hashes ← visitChildrenInPlace (joinAccounted levels) pos children 0 []
        let payload ← Routine.ofExcept (ix.payloadAt node pos)
        AccountedJoin.onJoin
          (Join.onStaging (ix.closeInPlace payload children.length hashes pos))

/-- Closes the levels above the frontier, given the results of its walks, and accounts for them. -/
def joinAllAccounted (root : N) (results : List (Except Failure (NodeHash × Index))) :
    EStateM.Result Failure (AccountedJoin N) NodeHash :=
  (ix.joinAccounted ix.splitDepth root .root).run ⟨⟨results, ∅⟩, []⟩

def AccountedJoin.final {α : Type} : EStateM.Result Failure (AccountedJoin N) α → AccountedJoin N
  | .ok _ s => s
  | .error _ s => s

end SubtermIndex.Indexer
