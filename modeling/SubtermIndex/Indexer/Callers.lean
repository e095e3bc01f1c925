/-
# `SubtermIndex.Indexer.Callers` — callers of one shared index, step by step

Every caller has a handle of the shared index and makes its calls in order; all
handles lead to the same contents and the same lock.  To insert a tree takes two
steps: the walk, which needs no lock, and the merge, which does.  Every other call is one
step under the lock.  A schedule says whose step is the next one.

Answered calls are logged in the order in which they were answered.  Nothing
else is shared between callers than what lies behind the lock, and that is
changed only by the step that answers a call; so the log, read as calls made
one at a time (`SharedIndex.perform`), explains every answer.

A call may bring an indexer of its own, for nodes of its own kind, so that the callers need not
agree on anything.  A look at the contents may panic, and then poisons the lock.
-/
import SubtermIndex.Indexer.SharedIndex

namespace SubtermIndex

/-- A call on a shared index.  Every call may come with an indexer, a kind of nodes or a kind
of result of its own. -/
inductive Call : Type 1 where
  | insert {N : Type} (ix : Indexer N) (root : N)
  /-- Looks at the contents under the lock.  Where `look` has no result, it panics. -/
  | look {α : Type} (look : Index → Option α)
  | snapshot
  | stats

/-- What a call gives. -/
inductive Answer : Type 1 where
  | inserted (outcome : Except TreeError NodeHash)
  | looked {α : Type} (result : α)
  /-- The caller panicked while it held the lock. -/
  | panicked
  | snapshot (contents : Index)
  | stats (stats : Index.Stats)

/-- The answer of a merge, and what lies behind the lock afterwards. -/
def SharedIndex.afterMerge (s : SharedIndex) :
    Except Failure (Inserted × SharedIndex) → Answer × SharedIndex
  | .ok (d, s) => (.inserted (.ok d.root), s)
  | .error failure => (.inserted (.error failure.toError), s)

def SharedIndex.look {α : Type} (look : Index → Option α) (s : SharedIndex) :
    Answer × SharedIndex :=
  match look s.contents with
  | some result => (.looked result, s)
  | none => (.panicked, s.poison)

/-- Makes a call that no other caller interrupts. -/
def SharedIndex.perform (s : SharedIndex) : Call → Answer × SharedIndex
  | .insert ix root => s.afterMerge (s.insert ix root)
  | .look look => s.look look
  | .snapshot => (.snapshot s.snapshot, s)
  | .stats => (.stats s.stats, s)

structure Caller where
  /-- The calls not answered yet. -/
  calls : List Call
  /-- What has been walked of the first call, if that inserts a tree. -/
  walked? : Option (NodeHash × Index) := none

/-- An answered call, and the place of its caller. -/
structure Answered where
  caller : Nat
  call : Call
  answer : Answer

/-- Callers, what they share, and the answered calls, last first. -/
structure Callers where
  shared : SharedIndex
  callers : List Caller
  log : List Answered := []

namespace Callers

def ofCalls (shared : SharedIndex) (calls : List (List Call)) : Callers :=
  { shared, callers := calls.map fun calls => { calls } }

/-- Answers the first call of the caller at place `i`, of whose calls `rest` remain. -/
def reply (c : Callers) (i : Nat) (call : Call) (rest : List Call)
    (done : Answer × SharedIndex) : Callers :=
  { shared := done.2
    callers := c.callers.set i { calls := rest }
    log := ⟨i, call, done.1⟩ :: c.log }

/-- The next step of the caller at place `i`. -/
def act (c : Callers) (i : Nat) : Callers :=
  match c.callers[i]? with
  | none => c
  | some caller =>
      match caller.calls with
      | [] => c
      | .insert ix root :: rest =>
          match caller.walked? with
          | some walked =>
              c.reply i (.insert ix root) rest (c.shared.afterMerge (c.shared.mergeWalked walked))
          | none =>
              match ix.walk root .root with
              | .ok walked =>
                  { c with callers := c.callers.set i { caller with walked? := some walked } }
              | .error failure =>
                  c.reply i (.insert ix root) rest (.inserted (.error failure.toError), c.shared)
      | call :: rest => c.reply i call rest (c.shared.perform call)

def run (schedule : List Nat) (c : Callers) : Callers :=
  schedule.foldl act c

def history (c : Callers) : List Answered := c.log.reverse

end Callers

end SubtermIndex
