/-
# `SubtermIndex.Indexer.Attempts` — calls on one index, one after another

Calls are made on one memory, and each of them may fail.  The next call then goes on from whatever
the failed one has left.  An attempt is an entry of the log: the call, the index as the call found
it, what it answered, and the index as the call left it.

A call has two readings.  `perform` is a function of the index and gives nothing but an error if it
fails; `routine` is a program on the memory, which keeps what it wrote before it failed.  Runs are
made of programs.
-/
import SubtermIndex.Indexer.InPlace
import SubtermIndex.Indexer.SharedIndex

namespace SubtermIndex

inductive Change : Type 1 where
  | insert {N : Type} (ix : Indexer N) (root : N)
  | insertSplit {N : Type} (ix : Indexer N) (root : N)
  /-- The index lies behind a lock, which a caller may have poisoned. -/
  | insertShared {N : Type} (ix : Indexer N) (root : N) (poisoned : Bool)
  | merge (incoming : Index)

namespace Change

/-- What a call answers and makes of an index, if it succeeds. -/
def perform : Change → Index → Except Failure (Success × Index)
  | insert ix root, m =>
      (ix.insert root m).map fun d => (.inserted d.root d.staged d.gain, d.index)
  | insertSplit ix root, m =>
      (ix.insertSplit root m).map fun d => (.inserted d.root d.staged d.gain, d.index)
  | insertShared ix root poisoned, m =>
      (SharedIndex.insert ix root { contents := m, poisoned }).map fun (d, s) =>
        (.inserted d.root d.staged d.gain, s.contents)
  | merge incoming, m =>
      (Failure.ofMerge (m.merge incoming)).map fun merged => (.merged (.between m merged), merged)

/-- The call as a program.  To hold a lock, poisoned or not, writes nothing. -/
def routine : Change → Routine Memory Success
  | insert ix root => ix.insertInPlace root
  | insertSplit ix root => ix.insertSplitInPlace root
  | insertShared ix root _ => ix.insertInPlace root
  | merge incoming => do return .merged (← Memory.onIndex (Index.mergeInPlace incoming))

end Change

/-- A call that has been made. -/
structure Attempt : Type 1 where
  change : Change
  before : Index
  answer : Except Failure Success
  after : Index

namespace Attempt

def succeeded (a : Attempt) : Bool := a.answer.toBool

end Attempt

namespace Memory

def attempt (mem : Memory) (change : Change) : Attempt × Memory :=
  match change.routine.run mem with
  | .ok answer mem' => (⟨change, mem.index, .ok answer, mem'.index⟩, mem')
  | .error failure mem' => (⟨change, mem.index, .error failure, mem'.index⟩, mem')

/-- Makes calls one after another, and logs them. -/
def attemptAll (mem : Memory) : List Change → List Attempt × Memory
  | [] => ([], mem)
  | change :: rest =>
      let first := mem.attempt change
      let others := first.2.attemptAll rest
      (first.1 :: others.1, others.2)

end Memory

end SubtermIndex
