/-
# `SubtermIndex.Indexer.Walk` — the walk over a tree, one step at a time

The walk keeps a stack of the nodes between the root and where it stands, so
that the depth of a tree costs no recursion.  A step either goes down to the
next child of the top node or, when there is none left, closes that node and
hands its hash to the parent.

A tree need not be finite for the walk to end.  Every open node knows how many
levels the depth limit leaves below it, and `OpenNode.work` counts the steps that
its unvisited children can still take; each step takes one of them away.

The count looks ahead into nodes that have not been read.  One that cannot be read counts as a leaf:
the walk ends there with an error, so that nothing below it matters.
-/
import SubtermIndex.Indexer.Basic

namespace SubtermIndex.Indexer

variable {N : Type}

/-- A node whose children are being walked. -/
structure OpenNode (N : Type) where
  node : N
  /-- The children not yet entered. -/
  pending : List N
  /-- The index of the first pending child. -/
  next : Nat
  arity : Nat
  /-- The hashes of the children that are done, last first. -/
  hashes : List NodeHash
  /-- How many levels the depth limit leaves below the node. -/
  room : Nat

/-- Where the walk stands: in `top`, at `pos`, under the nodes of `below`. -/
structure State (N : Type) where
  top : OpenNode N
  below : List (OpenNode N)
  pos : Position
  staging : Index

inductive Move (N : Type) where
  | descend (next : State N)
  | ascend (next : State N) (done : Closed) (pos : Position)
  | finish (done : Closed) (pos : Position)

variable (ix : Indexer N)

/-- The children of a node, or none where they cannot be read. -/
def childrenOrNone (node : N) : List N :=
  match ix.reader.children node with
  | .ok children => children
  | .error _ => []

/-- The number of steps that a walk of the node takes, with the given room below it. -/
def work : Nat → N → Nat
  | 0, _ => 1
  | room + 1, node => 1 + (ix.childrenOrNone node).foldr (fun child n => 1 + work room child + n) 0

def pendingWork (pending : List N) : Nat → Nat
  | 0 => 0
  | room + 1 => pending.foldr (fun child n => 1 + ix.work room child + n) 0

def OpenNode.work (f : OpenNode N) : Nat := 1 + ix.pendingWork f.pending f.room

def State.work (s : State N) : Nat :=
  OpenNode.work ix s.top + s.below.foldr (fun f n => OpenNode.work ix f + n) 0

theorem work_eq (room : Nat) (node : N) :
    ix.work room node = 1 + ix.pendingWork (ix.childrenOrNone node) room := by
  cases room <;> rfl

/-- Begins the node at `pos`. -/
def openNode (node : N) (pos : Position) (room : Nat) : Except Failure (OpenNode N) :=
  (ix.childrenAt node pos).map fun children =>
    { node, pending := children, next := 0, arity := children.length, hashes := [], room }

/-- Goes down to `child`, the first pending one of the top node. -/
def descend (s : State N) (child : N) (rest : List N) : Except Failure (Move N) :=
  let pos := s.pos.child s.top.next
  match s.top.room with
  | 0 => .error (.tooDeep pos ix.maxDepth)
  | room + 1 =>
      (ix.openNode child pos room).map fun opened =>
        .descend
          { top := opened
            below := { s.top with pending := rest, next := s.top.next + 1 } :: s.below
            pos
            staging := s.staging }

def ascend (s : State N) : Except Failure (Move N) := do
  let payload ← ix.payloadAt s.top.node s.pos
  let done ← ix.close payload s.top.arity s.top.hashes.reverse s.staging s.pos
  match s.below with
  | [] => return .finish done s.pos
  | above :: below =>
      return .ascend
        { top := { above with hashes := done.hash :: above.hashes }
          below
          pos := s.pos.parent
          staging := done.staging }
        done s.pos

def step (s : State N) : Except Failure (Move N) :=
  match s.top.pending with
  | child :: rest => ix.descend s child rest
  | [] => ix.ascend s

/-! ## Every step takes work away -/

theorem work_openNode {node : N} {pos : Position} {room : Nat} {f : OpenNode N}
    (h : ix.openNode node pos room = .ok f) : OpenNode.work ix f = ix.work room node := by
  unfold openNode childrenAt at h
  cases hc : ix.reader.children node with
  | error e => simp [hc, Failure.ofReading, Except.map] at h
  | ok children =>
      simp only [hc, Failure.ofReading, Except.map, Except.ok.injEq] at h
      subst h
      simp [OpenNode.work, work_eq, childrenOrNone, hc]

theorem work_descend {s next : State N} (h : ix.step s = .ok (.descend next)) :
    State.work ix next < State.work ix s := by
  unfold step at h
  split at h
  case h_1 child rest hp =>
    unfold descend at h
    split at h
    case h_1 => simp at h
    case h_2 room hr =>
      cases hf : ix.openNode child (s.pos.child s.top.next) room with
      | error e => simp [hf, Except.map] at h
      | ok f =>
          simp only [hf, Except.map, Except.ok.injEq, Move.descend.injEq] at h
          subst h
          simp only [State.work, List.foldr_cons, work_openNode ix hf]
          simp only [OpenNode.work, hp, hr, pendingWork, List.foldr_cons]
          omega
  case h_2 hp =>
    unfold ascend at h
    cases hq : ix.payloadAt s.top.node s.pos with
    | error e => simp [hq, bind, Except.bind] at h
    | ok payload =>
        cases hd : ix.close payload s.top.arity s.top.hashes.reverse s.staging s.pos with
        | error e => simp [hq, hd, bind, Except.bind] at h
        | ok done =>
            cases hb : s.below <;> simp [hq, hd, hb, bind, Except.bind, pure, Except.pure] at h

theorem work_ascend {s next : State N} {done : Closed} {pos : Position}
    (h : ix.step s = .ok (.ascend next done pos)) : State.work ix next < State.work ix s := by
  unfold step at h
  split at h
  case h_1 child rest hp =>
    unfold descend at h
    split at h
    case h_1 => simp at h
    case h_2 room hr =>
      cases hf : ix.openNode child (s.pos.child s.top.next) room <;> simp [hf, Except.map] at h
  case h_2 hp =>
    unfold ascend at h
    cases hq : ix.payloadAt s.top.node s.pos with
    | error e => simp [hq, bind, Except.bind] at h
    | ok payload =>
        cases hd : ix.close payload s.top.arity s.top.hashes.reverse s.staging s.pos with
        | error e => simp [hq, hd, bind, Except.bind] at h
        | ok d =>
            cases hb : s.below with
            | nil => simp [hq, hd, hb, bind, Except.bind, pure, Except.pure] at h
            | cons above below =>
                simp only [hq, hd, hb, bind, Except.bind, pure, Except.pure, Except.ok.injEq,
                  Move.ascend.injEq] at h
                obtain ⟨rfl, -, -⟩ := h
                simp only [State.work, hb, List.foldr_cons, OpenNode.work]
                omega

/-! ## The walk -/

/-- Steps on until the root is closed or a step fails. -/
def run (s : State N) : Except Failure (NodeHash × Index) :=
  match _h : ix.step s with
  | .error failure => .error failure
  | .ok (.descend next) => run next
  | .ok (.ascend next _ _) => run next
  | .ok (.finish done _) => .ok (done.hash, done.staging)
termination_by State.work ix s
decreasing_by
  · exact work_descend ix _h
  · exact work_ascend ix _h

/-- What the walk reports on the way; `seen` holds the earlier reports, last first. -/
def reports (s : State N) (seen : List Event) : List Event :=
  match _h : ix.step s with
  | .error failure => (failure.warning?.toList ++ seen).reverse
  | .ok (.descend next) => reports next seen
  | .ok (.ascend next done pos) => reports next ((done.event? pos).toList ++ seen)
  | .ok (.finish done pos) => ((done.event? pos).toList ++ seen).reverse
termination_by State.work ix s
decreasing_by
  · exact work_descend ix _h
  · exact work_ascend ix _h

/-- The walk before its first step, at the node that stands at `origin`. -/
def start (root : N) (origin : Position) : Except Failure (State N) :=
  if ix.maxDepth < origin.depth then .error (.tooDeep origin ix.maxDepth)
  else
    (ix.openNode root origin (ix.maxDepth - origin.depth)).map fun opened =>
      { top := opened, below := [], pos := origin, staging := ∅ }

/-- Walks the sub-tree that stands at `origin`: its hash, and an index of it alone. -/
def walk (root : N) (origin : Position) : Except Failure (NodeHash × Index) :=
  (ix.start root origin).bind ix.run

def walkReports (root : N) (origin : Position) : List Event :=
  match ix.start root origin with
  | .error _ => []
  | .ok s => ix.reports s []

/-- The hash of a tree, without keeping any index. -/
def hashTree (root : N) : Except TreeError NodeHash :=
  match ix.walk root .root with
  | .ok (hash, _) => .ok hash
  | .error failure => .error failure.toError

end SubtermIndex.Indexer
