/-
# `SubtermIndex.Indexer.Rounds` — an account of the rounds of a walk

The loop of a walk, with an account of every round: which node has been entered, that is
whose children have been read, or which node has been closed, with the hashes that it
was given and the one that it has got.

The account is of the loop itself and not of another program: without it, the rounds are those of
the loop (`round_eq`).
-/
import SubtermIndex.Indexer.Loop
import SubtermIndex.Outline

namespace SubtermIndex

namespace Indexer

/-- A node that has been closed, with the hashes of its children and its own. -/
structure Closing (N : Type) where
  place : Occurrence N
  hashes : List NodeHash
  hash : NodeHash

/-- What a round of the loop has done. -/
inductive Round (N : Type) where
  | entered (place : Occurrence N)
  | left (closing : Closing N)
  | failed (failure : Failure)

namespace Round

variable {N : Type}

def entered? : Round N → Option (Occurrence N)
  | entered place => some place
  | _ => none

def closing? : Round N → Option (Closing N)
  | left closing => some closing
  | _ => none

end Round

variable {N : Type} (ix : Indexer N)

/-! ## One round -/

def closeFrame (s : Loop N) (top : Frame N) : Except Failure Closed := do
  let payload ← ix.payloadAt top.node s.path
  ix.close payload top.children.length top.hashes s.staging s.path

/-- The loop without its last frame, whose node has been closed. -/
def Loop.unwind (s : Loop N) (done : Closed) : (below : List (Frame N)) → Loop N
  | [] => { s with stack := [], staging := done.staging, rootHash := some done.hash }
  | parent :: below =>
      { s with
        stack := { parent with hashes := parent.hashes ++ [done.hash] } :: below
        path := s.path.parent
        staging := done.staging }

/-- One round of the loop, and what it has done. -/
def accountedRound (s : Loop N) (top : Frame N) (below : List (Frame N)) :
    Except Failure (Round N × Loop N) :=
  match top.children[top.next]? with
  | some child => do
      let path := s.path.child top.next
      ix.checkDepth path
      let frame ← ix.openFrame child path
      return (.entered ⟨child, path, frame.children.length⟩,
        { s with stack := frame :: { top with next := top.next + 1 } :: below, path })
  | none => do
      let done ← ix.closeFrame s top
      return (.left ⟨⟨top.node, s.path, top.children.length⟩, top.hashes, done.hash⟩,
        s.unwind done below)

/-- The account changes nothing. -/
theorem round_eq (s : Loop N) (top : Frame N) (below : List (Frame N)) :
    ix.round s top below = (ix.accountedRound s top below).map Prod.snd := by
  rw [round, accountedRound]
  cases top.children[top.next]? with
  | some child =>
      simp only [enter]
      cases ix.checkDepth (s.path.child top.next) with
      | error failure => rfl
      | ok _ => cases ix.openFrame child (s.path.child top.next) <;> rfl
  | none =>
      simp only [leave, closeFrame]
      cases ix.payloadAt top.node s.path with
      | error failure => rfl
      | ok payload =>
          simp only [bind, Except.bind]
          cases ix.close payload top.children.length top.hashes s.staging s.path with
          | error failure => rfl
          | ok done => cases below <;> rfl

theorem work_accountedRound {s next : Loop N} {top : Frame N} {below : List (Frame N)}
    {round : Round N} (stack : s.stack = top :: below)
    (done : ix.accountedRound s top below = .ok (round, next)) :
    Loop.work ix next < Loop.work ix s := by
  refine ix.work_round stack ?_
  rw [round_eq, done]
  rfl

/-! ## All rounds -/

/-- The rounds of the loop from a state on, up to the one that fails or to the end. -/
def history (s : Loop N) : List (Round N) :=
  match _hs : s.stack with
  | [] => []
  | top :: below =>
      match _hr : ix.accountedRound s top below with
      | .error failure => [.failed failure]
      | .ok (round, next) => round :: history next
termination_by Loop.work ix s
decreasing_by exact work_accountedRound ix _hs _hr

def beginLoop (root : N) (origin : Position) : Except Failure (Loop N) := do
  ix.checkDepth origin
  let frame ← ix.openFrame root origin
  return { stack := [frame], path := origin, staging := ∅, rootHash := none }

/-- The rounds of the loop in a walk.  There are none if the root cannot be entered. -/
def rounds (root : N) (origin : Position) : List (Round N) :=
  match ix.beginLoop root origin with
  | .error _ => []
  | .ok s => ix.history s

/-- The nodes whose children a walk has read, in this order: the root before the loop begins,
and one node in every round that enters one. -/
def readings (root : N) (origin : Position) : List (Occurrence N) :=
  match ix.beginLoop root origin with
  | .error _ => []
  | .ok s =>
      s.stack.map (fun frame => ⟨frame.node, s.path, frame.children.length⟩) ++
        (ix.history s).filterMap Round.entered?

def closings (root : N) (origin : Position) : List (Closing N) :=
  (ix.rounds root origin).filterMap Round.closing?

end Indexer

end SubtermIndex
