/-
# `SubtermIndex.Index.Merge` — the checked union of two indexes

Merging compares the nodes under every common hash before anything is written.  If all agree, the
left index keeps its nodes and takes in whatever it lacks; if not, the least hash with different
nodes is reported, and there is no union.

What a merge has added is the difference of the sizes before and after.  The counters are counted
up while the right index is gone through (`Index.Tally`), and come to the same.
-/
import SubtermIndex.Index.Basic

namespace SubtermIndex.Index

open Std

/-- What has been added to an index. -/
structure Gain where
  nodes : Nat
  shapeMembers : Nat
  edges : Nat
  deriving DecidableEq, Repr

namespace Gain

def between (before after : Index) : Gain :=
  { nodes := after.nodes.size - before.nodes.size
    shapeMembers := Groups.memberCount after.shapes - Groups.memberCount before.shapes
    edges := after.edges.size - before.edges.size }

def isNone (g : Gain) : Bool := g.nodes == 0 && g.shapeMembers == 0 && g.edges == 0

end Gain

/-- Whether the hash of an entry stands for another node in `m`. -/
def conflictsWith (m : Index) (entry : NodeHash × Node) : Bool :=
  match m.nodes[entry.1]? with
  | some there => !there.sameStructure entry.2
  | none => false

/-- The least hash that stands for different nodes on the two sides. -/
def firstConflict? (m incoming : Index) : Option NodeHash :=
  (incoming.nodes.toList.find? m.conflictsWith).map (·.1)

/-- All three maps united.  Under a common hash stands the node of `m`. -/
def union (m incoming : Index) : Index :=
  { nodes := incoming.nodes ∪ m.nodes
    shapes := Groups.merge m.shapes incoming.shapes
    edges := m.edges ∪ incoming.edges }

/-- The union of two indexes, or the least hash on which they conflict. -/
def merge (m incoming : Index) : Except NodeHash Index :=
  match m.firstConflict? incoming with
  | some h => .error h
  | none => .ok (m.union incoming)

theorem node?_union (m incoming : Index) (h : NodeHash) :
    (m.union incoming).node? h = (m.node? h).or (incoming.node? h) :=
  ExtTreeMap.getElem?_union

theorem eq_union_of_merge {m incoming merged : Index} (h : m.merge incoming = .ok merged) :
    merged = m.union incoming := by
  unfold merge at h
  split at h
  · simp at h
  · exact (Except.ok.inj h).symm

end SubtermIndex.Index
