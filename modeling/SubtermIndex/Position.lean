/-
# `SubtermIndex.Position` — where a node stands below the root

A position is a path of child indices from the root of the tree that a call is about.  Errors and
reports say by it where something happened.

The path is kept upwards, the last index first, so that going down and going up one level are one
step each at the head of a list, whatever the depth.
-/
namespace SubtermIndex

/-- The way from a node up to the root: the index of the node among its
siblings, that of its parent, and so on.  The root has the empty path, and
going down or up one level is one step at the head of the list. -/
structure Position where
  steps : List Nat
  deriving DecidableEq, Repr

namespace Position

def root : Position := ⟨[]⟩

instance : Inhabited Position := ⟨root⟩

/-- The path with the given child indices from the root down. -/
def ofIndices (indices : List Nat) : Position := ⟨indices.reverse⟩

def indices (p : Position) : List Nat := p.steps.reverse

def depth (p : Position) : Nat := p.steps.length

def child (p : Position) (index : Nat) : Position := ⟨index :: p.steps⟩

/-- One level up; the root stays where it is. -/
def parent (p : Position) : Position := ⟨p.steps.tail⟩

def isRoot (p : Position) : Bool := p.steps.isEmpty

/-- `root/0/2` and the like. -/
def render (p : Position) : String :=
  p.indices.foldl (fun text index => text ++ "/" ++ toString index) "root"

@[simp] theorem depth_root : root.depth = 0 := rfl

@[simp] theorem depth_child (p : Position) (i : Nat) : (p.child i).depth = p.depth + 1 := rfl

@[simp] theorem parent_child (p : Position) (i : Nat) : (p.child i).parent = p := rfl

end Position

end SubtermIndex
