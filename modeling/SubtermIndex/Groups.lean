/-
# `SubtermIndex.Groups` — sets of members, grouped by key

A grouping keeps for every key the set of its members.  Only keys that have members are kept, so
that groupings with the same members under every key are equal; this is what lets the order of
insertions be forgotten.

Shapes group the hashes of nodes in this way, and the edges of an index are two groupings, by
parent and by child.
-/
import Std.Data.ExtTreeMap
import Std.Data.ExtTreeSet

namespace SubtermIndex

open Std

/-- The members of every key that has any. -/
abbrev Groups (α β : Type) [Ord α] [Ord β] := ExtTreeMap α (ExtTreeSet β)

namespace Groups

variable {α β : Type} [Ord α] [Ord β] [TransOrd α] [TransOrd β]

def members (g : Groups α β) (a : α) : ExtTreeSet β := g[a]?.getD ∅

def hasMember (g : Groups α β) (a : α) (b : β) : Bool := (members g a).contains b

/-- Adds members to what a key has so far. -/
def extend (more : ExtTreeSet β) (there : Option (ExtTreeSet β)) : Option (ExtTreeSet β) :=
  some (there.getD ∅ ∪ more)

def addMember (g : Groups α β) (a : α) (b : β) : Groups α β :=
  g.alter a fun there => some ((there.getD ∅).insert b)

/-- The members that either grouping has. -/
def merge (g h : Groups α β) : Groups α β :=
  h.foldl (fun g a more => g.alter a (extend more)) g

/-- Every key with each of its members, in ascending order. -/
def pairs (g : Groups α β) : List (α × β) :=
  g.toList.flatMap fun (a, members) => members.toList.map fun b => (a, b)

def memberCount (g : Groups α β) : Nat := g.foldl (fun n _ members => n + members.size) 0

/-! ## Who is a member afterwards -/

@[simp] theorem hasMember_empty (a : α) (b : β) : hasMember (∅ : Groups α β) a b = false := by
  simp [hasMember, members]

variable [LawfulEqOrd α] [DecidableEq α]

theorem members_addMember (g : Groups α β) (a c : α) (b : β) :
    members (addMember g a b) c = if a = c then (members g a).insert b else members g c := by
  simp only [members, addMember, ExtTreeMap.getElem?_alter, Std.compare_eq_iff_eq]
  split <;> simp

theorem hasMember_addMember [LawfulEqOrd β] [DecidableEq β] (g : Groups α β) (a c : α) (b d : β) :
    hasMember (addMember g a b) c d = (decide (a = c ∧ b = d) || hasMember g c d) := by
  simp only [hasMember, members_addMember]
  by_cases h : a = c
  · subst h
    by_cases h' : b = d
    · simp [h']
    · simp [ExtTreeSet.contains_insert, h']
  · simp [h]

end Groups

end SubtermIndex
