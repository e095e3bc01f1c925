/-
# `SubtermIndex.PairSet` — finite sets of pairs, looked up from both sides

The pairs are kept twice, grouped by either component.  Components without a partner are not kept,
so that two sets with the same pairs are equal.  The number of pairs is kept as well, and is
counted up by a pair that is new.

Of the two groupings one would do to say which pairs there are.  That both list the same pairs,
and that the number is theirs, is the invariant under which these sets are used (`PairSet.Valid`).
-/
import SubtermIndex.Groups

namespace SubtermIndex

open Std

/-- A set of pairs, grouped by either component, and the number of the pairs. -/
structure PairSet (α β : Type) [Ord α] [Ord β] where
  forward : Groups α β
  backward : Groups β α
  size : Nat

namespace PairSet

variable {α β : Type} [Ord α] [Ord β]

def empty : PairSet α β := ⟨∅, ∅, 0⟩

instance : EmptyCollection (PairSet α β) := ⟨empty⟩

instance : Inhabited (PairSet α β) := ⟨∅⟩

def isEmpty (r : PairSet α β) : Bool := r.size == 0

variable [TransOrd α] [TransOrd β]

/-- All `b` with the pair `(a, b)`, if there is one. -/
def image? (r : PairSet α β) (a : α) : Option (ExtTreeSet β) := r.forward[a]?

/-- All `a` with the pair `(a, b)`, if there is one. -/
def preimage? (r : PairSet α β) (b : β) : Option (ExtTreeSet α) := r.backward[b]?

def contains (r : PairSet α β) (a : α) (b : β) : Bool := Groups.hasMember r.forward a b

/-- Whether the pair `(a, b)` is there, and the set with it. -/
def containsThenInsert (r : PairSet α β) (a : α) (b : β) : Bool × PairSet α β :=
  if r.contains a b then (true, r)
  else
    (false,
      { forward := Groups.addMember r.forward a b
        backward := Groups.addMember r.backward b a
        size := r.size + 1 })

def insert (r : PairSet α β) (a : α) (b : β) : PairSet α β := (r.containsThenInsert a b).2

def toList (r : PairSet α β) : List (α × β) := Groups.pairs r.forward

def union (r s : PairSet α β) : PairSet α β :=
  s.toList.foldl (fun r (a, b) => r.insert a b) r

instance : Union (PairSet α β) := ⟨union⟩

/-- How many pairs `r ∪ s` has beside those of `r`. -/
def gain (r s : PairSet α β) : Nat := (r ∪ s).size - r.size

@[simp] theorem contains_empty (a : α) (b : β) : (∅ : PairSet α β).contains a b = false :=
  Groups.hasMember_empty a b

@[simp] theorem containsThenInsert_fst (r : PairSet α β) (a : α) (b : β) :
    (r.containsThenInsert a b).1 = r.contains a b := by
  unfold containsThenInsert
  split <;> simp_all

variable [LawfulEqOrd α] [LawfulEqOrd β] [DecidableEq α] [DecidableEq β]

theorem contains_insert (r : PairSet α β) (a c : α) (b d : β) :
    (r.insert a b).contains c d = (decide (a = c ∧ b = d) || r.contains c d) := by
  unfold insert containsThenInsert
  split
  case isTrue h =>
    by_cases e : a = c ∧ b = d
    · obtain ⟨rfl, rfl⟩ := e
      simp [h]
    · simp [e]
  case isFalse => exact Groups.hasMember_addMember ..

instance : DecidableEq (PairSet α β) := fun r s =>
  decidable_of_iff (r.forward = s.forward ∧ r.backward = s.backward ∧ r.size = s.size) (by
    cases r; cases s; simp)

end PairSet

end SubtermIndex
