/-
# `SubtermIndex.Crew` — workers that share a row of jobs

The jobs are numbered from 0.  A worker that has nothing to do draws the next
number from a counter that all workers share; it does the job of that number,
and keeps the answer together with the number.  Who draws a number for which
there is no job retires.  A schedule says whose turn it is to act, so that every
way in which the workers can get ahead of one another is a schedule.

A worker that has retired lets its turns pass, and so does a place at which there is no worker.
The answers are kept by those who found them, and only the numbers say in which order they belong;
they are put in order when all workers have retired.
-/
namespace SubtermIndex

inductive Activity (α : Type) where
  | idle
  | busy (number : Nat) (job : α)
  | retired
  deriving DecidableEq, Repr

def Activity.isRetired {α : Type} : Activity α → Bool
  | retired => true
  | _ => false

structure Worker (α β : Type) where
  activity : Activity α := .idle
  /-- The answers so far, each behind the number of its job, last first. -/
  answers : List (Nat × β) := []
  deriving DecidableEq, Repr

/-- Workers on jobs of type `α` with answers of type `β`. -/
structure Crew (α β : Type) where
  /-- The number that is drawn next. -/
  counter : Nat
  workers : List (Worker α β)
  deriving DecidableEq, Repr

namespace Crew

variable {α β : Type} (jobs : List α) (work : α → β)

/-- A crew of the given size that has not begun. -/
def ofSize (size : Nat) : Crew α β := ⟨0, List.replicate size {}⟩

/-- The turn of the worker at place `i`: it draws a number, or is done with its job. -/
def act (crew : Crew α β) (i : Nat) : Crew α β :=
  match crew.workers[i]? with
  | none => crew
  | some worker =>
      match worker.activity with
      | .retired => crew
      | .idle =>
          let activity := match jobs[crew.counter]? with
            | some job => .busy crew.counter job
            | none => .retired
          { counter := crew.counter + 1
            workers := crew.workers.set i { worker with activity } }
      | .busy number job =>
          let answers := (number, work job) :: worker.answers
          { crew with workers := crew.workers.set i { activity := .idle, answers } }

def run (schedule : List Nat) (crew : Crew α β) : Crew α β :=
  schedule.foldl (act jobs work) crew

def isDone (crew : Crew α β) : Bool :=
  crew.workers.all fun worker => worker.activity.isRetired

def numbered (crew : Crew α β) : List (Nat × β) :=
  crew.workers.flatMap fun worker => worker.answers.reverse

/-- All answers so far, in the order of the jobs. -/
def answers (crew : Crew α β) : List β :=
  (crew.numbered.mergeSort fun a b => a.1 ≤ b.1).map (·.2)

end Crew

end SubtermIndex
