/-
# `SubtermIndex.Proofs.Indexer.Walk` — the stack of a walk stands for a recursion

An open node is a recursive visit in the middle of its children, and the nodes below it on the
stack are the visits that wait for its hash.  What a state of the walk stands for
(`State.meaning`) is what these visits give when all of them go on to their ends.

Every step keeps the meaning (`step_meaning`), so that a run gives the meaning of the state it
began in (`run_eq_meaning`), and the walk is the recursion (`walk_eq_walkDirect`).  The induction
is that of the run, on the work that is left; the recursion comes in only through the meaning of
states, and nothing has to be said about how deep a tree is.
-/
import SubtermIndex.Indexer.Walk
import SubtermIndex.Indexer.Direct

namespace SubtermIndex.Indexer

variable {N : Type} (ix : Indexer N)

def finish (f : OpenNode N) (pos : Position) (staging : Index) :
    Except Failure (NodeHash × Index) := do
  let (hashes, staging) ← visitChildren (ix.visit f.room) pos f.pending f.next f.hashes staging
  let payload ← ix.payloadAt f.node pos
  let done ← ix.close payload f.arity hashes staging pos
  return (done.hash, done.staging)

def resume : List (OpenNode N) → Position → NodeHash × Index → Except Failure (NodeHash × Index)
  | [], _, done => .ok done
  | f :: below, pos, (hash, staging) =>
      (ix.finish { f with hashes := hash :: f.hashes } pos staging).bind (resume below pos.parent)

/-- What the visits on the stack give when all of them go on to their ends. -/
def State.meaning (s : State N) : Except Failure (NodeHash × Index) :=
  (ix.finish s.top s.pos s.staging).bind (resume ix s.below s.pos.parent)

theorem visit_succ (levels : Nat) (node : N) (pos : Position) (staging : Index) :
    ix.visit (levels + 1) node pos staging =
      (ix.openNode node pos levels).bind fun f => ix.finish f pos staging := by
  rw [visit, openNode]
  cases ix.childrenAt node pos with
  | error failure => rfl
  | ok children => rfl

theorem finish_cons {f : OpenNode N} {child : N} {rest : List N} (h : f.pending = child :: rest)
    (pos : Position) (staging : Index) :
    ix.finish f pos staging =
      (ix.visit f.room child (pos.child f.next) staging).bind fun done =>
        ix.finish { f with pending := rest, next := f.next + 1, hashes := done.1 :: f.hashes } pos
          done.2 := by
  rw [finish]
  rw [h, visitChildren]
  cases ix.visit f.room child (pos.child f.next) staging with
  | error failure => rfl
  | ok done => rfl

theorem finish_nil {f : OpenNode N} (h : f.pending = []) (pos : Position) (staging : Index) :
    ix.finish f pos staging =
      (ix.payloadAt f.node pos).bind fun payload =>
        (ix.close payload f.arity f.hashes.reverse staging pos).map fun done =>
          (done.hash, done.staging) := by
  rw [finish]
  rw [h, visitChildren]
  rfl

theorem bind_map {ε α β γ : Type} (x : Except ε α) (f : α → β) (g : β → Except ε γ) :
    (x.map f).bind g = x.bind fun a => g (f a) := by
  cases x <;> rfl

theorem bind_bind {ε α β γ : Type} (x : Except ε α) (f : α → Except ε β) (g : β → Except ε γ) :
    (x.bind f).bind g = x.bind fun a => (f a).bind g := by
  cases x <;> rfl

/-- What a move leads to: the meaning of the next state, or the result. -/
def Move.meaning : Move N → Except Failure (NodeHash × Index)
  | .descend next => next.meaning ix
  | .ascend next _ _ => next.meaning ix
  | .finish done _ => .ok (done.hash, done.staging)

theorem descend_meaning {s : State N} {child : N} {rest : List N}
    (h : s.top.pending = child :: rest) :
    (ix.descend s child rest).bind (Move.meaning ix) = s.meaning ix := by
  obtain ⟨⟨node, pending, next, arity, hashes, room⟩, below, pos, staging⟩ := s
  obtain rfl : pending = child :: rest := h
  rw [State.meaning, finish_cons ix rfl]
  cases room with
  | zero => rfl
  | succ levels =>
      rw [visit_succ, bind_bind, bind_bind]
      show ((ix.openNode child (pos.child next) levels).map _).bind _ = _
      rw [bind_map]
      cases ix.openNode child (pos.child next) levels with
      | error failure => rfl
      | ok opened => rfl

theorem ascend_meaning {s : State N} (h : s.top.pending = []) :
    (ix.ascend s).bind (Move.meaning ix) = s.meaning ix := by
  rw [State.meaning, finish_nil ix h, ascend]
  cases ix.payloadAt s.top.node s.pos with
  | error failure => rfl
  | ok payload =>
      show (Except.bind (ix.close payload _ _ _ _) _).bind _
        = ((ix.close payload _ _ _ _).map _).bind _
      rw [bind_bind, bind_map]
      cases ix.close payload s.top.arity s.top.hashes.reverse s.staging s.pos with
      | error failure => rfl
      | ok done =>
          cases below : s.below with
          | nil => rfl
          | cons above below => rfl

theorem step_meaning (s : State N) : (ix.step s).bind (Move.meaning ix) = s.meaning ix := by
  rw [step]
  split
  case h_1 child rest h => exact descend_meaning ix h
  case h_2 h => exact ascend_meaning ix h

theorem run_eq_step (s : State N) :
    ix.run s = (ix.step s).bind fun
      | .descend next => ix.run next
      | .ascend next _ _ => ix.run next
      | .finish done _ => .ok (done.hash, done.staging) := by
  rw [run]
  split
  case h_1 h => rw [h]; rfl
  case h_2 h => rw [h]; rfl
  case h_3 h => rw [h]; rfl
  case h_4 h => rw [h]; rfl

theorem run_eq_meaning (s : State N) : ix.run s = s.meaning ix := by
  induction s using run.induct ix with
  | case1 s failure h =>
      rw [run_eq_step, ← step_meaning ix s, h]
      rfl
  | case2 s next h ih =>
      rw [run_eq_step, ← step_meaning ix s, h]
      exact ih
  | case3 s next done pos h ih =>
      rw [run_eq_step, ← step_meaning ix s, h]
      exact ih
  | case4 s done pos h =>
      rw [run_eq_step, ← step_meaning ix s, h]
      rfl

/-- The walk over the stack is the recursion. -/
theorem walk_eq_walkDirect (root : N) (origin : Position) :
    ix.walk root origin = ix.walkDirect root origin := by
  rw [walk, start, walkDirect]
  split
  case isTrue deep =>
    have none : ix.maxDepth + 1 - origin.depth = 0 := by omega
    rw [none]
    rfl
  case isFalse shallow =>
    have some : ix.maxDepth + 1 - origin.depth = ix.maxDepth - origin.depth + 1 := by omega
    rw [some, visit_succ, bind_map]
    refine congrArg _ ?_
    funext f
    rw [run_eq_meaning, State.meaning]
    show (ix.finish f origin ∅).bind .ok = ix.finish f origin ∅
    cases ix.finish f origin ∅ <;> rfl

end SubtermIndex.Indexer
