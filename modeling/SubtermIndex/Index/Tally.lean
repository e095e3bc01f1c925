/-
# `SubtermIndex.Index.Tally` — merging with counters

Here merging goes entry by entry: nodes, then the members of every shape, then edges.  Whatever was
not there before is written and counted at once, so that no sizes need to be compared afterwards.

A shape is given an empty set of members before any of them is added.  If the right index held a
shape without members, the union would hold one too; of the indexes that calls build, none does.
-/
import SubtermIndex.Index.Merge

namespace SubtermIndex

open Std

namespace Index

/-- An index that is being filled, and what has been added to it so far. -/
structure Tally where
  index : Index
  gain : Gain

namespace Tally

def start (m : Index) : Tally := ⟨m, ⟨0, 0, 0⟩⟩

def addNode (t : Tally) (entry : NodeHash × Node) : Tally :=
  if t.index.contains entry.1 then t
  else
    { index := { t.index with nodes := t.index.nodes.insert entry.1 entry.2 }
      gain := { t.gain with nodes := t.gain.nodes + 1 } }

/-- Gives a shape a set of members, unless it has one. -/
def openShape (t : Tally) (s : Shape) : Tally :=
  { t with index :=
      { t.index with shapes := t.index.shapes.alter s fun there => some (there.getD ∅) } }

def addMember (s : Shape) (t : Tally) (h : NodeHash) : Tally :=
  if Groups.hasMember t.index.shapes s h then t
  else
    { index := t.index.addShape s h
      gain := { t.gain with shapeMembers := t.gain.shapeMembers + 1 } }

def addGroup (t : Tally) (group : Shape × ExtTreeSet NodeHash) : Tally :=
  group.2.toList.foldl (addMember group.1) (t.openShape group.1)

def addEdge (t : Tally) (edge : NodeHash × NodeHash) : Tally :=
  match t.index.edges.containsThenInsert edge.1 edge.2 with
  | (true, _) => t
  | (false, edges) =>
      { index := { t.index with edges }
        gain := { t.gain with edges := t.gain.edges + 1 } }

def addAll (t : Tally) (incoming : Index) : Tally :=
  let t := incoming.nodes.toList.foldl addNode t
  let t := incoming.shapes.toList.foldl addGroup t
  incoming.edges.toList.foldl addEdge t

end Tally

/-- The union of two indexes and the count of what it has beside the left one, or the first
hash on which they conflict. -/
def mergeCounting (m incoming : Index) : Except NodeHash (Gain × Index) :=
  match incoming.nodes.toList.find? m.conflictsWith with
  | some entry => .error entry.1
  | none =>
      let t := (Tally.start m).addAll incoming
      .ok (t.gain, t.index)

end Index

end SubtermIndex
