/-
# `SubtermIndex.Index.Basic` — nodes by hash, hashes by shape, and edges

An index holds the node that stands under each hash, the hashes of each shape, and the edges
between hashes.  A node keeps its place for good: the first one stored under a hash represents every
node of the same structure, and it is the spelling of that one which the index gives back.

Adding a node takes three steps that do not know of each other: the node goes under its hash, its
hash among those of its shape, and an edge to each of its children.  Only the first of them can
fail.  That the three maps fit together is not part of the type; it is proved of whatever the calls
build.
-/
import SubtermIndex.Node
import SubtermIndex.PairSet

namespace SubtermIndex

open Std

/-- Nodes by hash, hashes by shape, and the edges from parents to children. -/
structure Index where
  nodes : ExtTreeMap NodeHash Node
  shapes : Groups Shape NodeHash
  edges : PairSet NodeHash NodeHash

namespace Index

def empty : Index := ⟨∅, ∅, ∅⟩

instance : EmptyCollection Index := ⟨empty⟩

instance : Inhabited Index := ⟨∅⟩

def node? (m : Index) (h : NodeHash) : Option Node := m.nodes[h]?

def contains (m : Index) (h : NodeHash) : Bool := m.nodes.contains h

/-- The hashes of all nodes with the given shape. -/
def withShape (m : Index) (s : Shape) : ExtTreeSet NodeHash := Groups.members m.shapes s

/-- The children of a hash, each once. -/
def childSet (m : Index) (h : NodeHash) : ExtTreeSet NodeHash := (m.edges.image? h).getD ∅

def parentSet (m : Index) (h : NodeHash) : ExtTreeSet NodeHash := (m.edges.preimage? h).getD ∅

def size (m : Index) : Nat := m.nodes.size

def isEmpty (m : Index) : Bool := m.nodes.isEmpty

/-- How much an index holds. -/
structure Stats where
  nodes : Nat
  shapes : Nat
  edges : Nat
  deriving DecidableEq, Repr

def stats (m : Index) : Stats := ⟨m.nodes.size, m.shapes.size, m.edges.size⟩

/-! ## Adding one node -/

/-- Puts a node under a hash that is free.  Where a node of the same structure
stands already, it stays and the answer is `false`; where another one does, the
hash collides and there is no answer. -/
def store? (m : Index) (h : NodeHash) (n : Node) : Option (Bool × Index) :=
  match m.nodes[h]? with
  | some there => if there.sameStructure n then some (false, m) else none
  | none => some (true, { m with nodes := m.nodes.insert h n })

def addShape (m : Index) (s : Shape) (h : NodeHash) : Index :=
  { m with shapes := Groups.addMember m.shapes s h }

def addEdges (m : Index) (parent : NodeHash) (children : List NodeHash) : Index :=
  { m with edges := children.foldl (fun edges child => edges.insert parent child) m.edges }

@[simp] theorem node?_empty (h : NodeHash) : (∅ : Index).node? h = none :=
  ExtTreeMap.getElem?_empty

@[simp] theorem node?_addShape (m : Index) (s : Shape) (h k : NodeHash) :
    (m.addShape s h).node? k = m.node? k := rfl

@[simp] theorem node?_addEdges (m : Index) (parent : NodeHash) (children : List NodeHash)
    (k : NodeHash) : (m.addEdges parent children).node? k = m.node? k := rfl

/-- Storing a node changes nothing but what stands under its hash, and not even
that if the hash was taken. -/
theorem node?_of_store? {m m' : Index} {h : NodeHash} {n : Node} {isNew : Bool}
    (stored : m.store? h n = some (isNew, m')) (k : NodeHash) :
    m'.node? k = if h = k then some ((m.node? h).getD n) else m.node? k := by
  unfold store? at stored
  unfold node?
  cases there : m.nodes[h]? with
  | none =>
      simp only [there, Option.some.injEq, Prod.mk.injEq] at stored
      obtain ⟨-, rfl⟩ := stored
      simp [ExtTreeMap.getElem?_insert]
  | some old =>
      simp only [there] at stored
      split at stored
      · simp only [Option.some.injEq, Prod.mk.injEq] at stored
        obtain ⟨-, rfl⟩ := stored
        split <;> simp_all
      · simp at stored

end Index

end SubtermIndex
