/-
# `SubtermIndex.Outline` — the nodes of a finite tree, one for every place

One node may stand at many places of a tree.  An outline has an occurrence of it for each of them,
and lists all occurrences in the two usual orders: a node before its children, as they are read,
and a node behind them, as they are closed.

Positions are not kept in an outline.  They follow from where its root stands.
-/
import SubtermIndex.Position

namespace SubtermIndex

/-- A node at one of its places, and how many children it has. -/
structure Occurrence (N : Type) where
  node : N
  pos : Position
  arity : Nat

/-- A finite tree of nodes. -/
inductive Outline (N : Type) where
  | node (a : N) (children : List (Outline N))

namespace Outline

variable {N : Type}

mutual
def size : Outline N → Nat
  | node _ children => 1 + sizeOfAll children
termination_by structural t => t

def sizeOfAll : List (Outline N) → Nat
  | [] => 0
  | t :: rest => t.size + sizeOfAll rest
termination_by structural ts => ts
end

mutual
/-- Every occurrence before its children, if the root stands at the given position. -/
def preorder : Outline N → Position → List (Occurrence N)
  | node a children, pos => ⟨a, pos, children.length⟩ :: preorderFrom children pos 0
termination_by structural t => t

def preorderFrom : List (Outline N) → Position → (next : Nat) → List (Occurrence N)
  | [], _, _ => []
  | t :: rest, pos, next => t.preorder (pos.child next) ++ preorderFrom rest pos (next + 1)
termination_by structural ts => ts
end

mutual
/-- Every occurrence behind its children, if the root stands at the given position. -/
def postorder : Outline N → Position → List (Occurrence N)
  | node a children, pos => postorderFrom children pos 0 ++ [⟨a, pos, children.length⟩]
termination_by structural t => t

def postorderFrom : List (Outline N) → Position → (next : Nat) → List (Occurrence N)
  | [], _, _ => []
  | t :: rest, pos, next => t.postorder (pos.child next) ++ postorderFrom rest pos (next + 1)
termination_by structural ts => ts
end

/-- What holds of all outlines and of all lists of them, by recursion on both together. -/
theorem all_of_children {P : Outline N → Prop} {Q : List (Outline N) → Prop}
    (node : ∀ a children, Q children → P (.node a children)) (nil : Q [])
    (cons : ∀ t rest, P t → Q rest → Q (t :: rest)) : (∀ t, P t) ∧ ∀ ts, Q ts :=
  ⟨@Outline.rec N P Q node nil cons, @Outline.rec_1 N P Q node nil cons⟩

end Outline

end SubtermIndex
