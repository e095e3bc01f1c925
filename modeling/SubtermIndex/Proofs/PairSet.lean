/-
# `SubtermIndex.Proofs.PairSet` — a set of pairs agrees with itself from both sides

Both groupings of a valid set list the same pairs, and its size is their number.  The empty set is
valid, and adding pairs and uniting sets keep it so.  A valid set is determined by its pairs
(`Valid.ext`).

A pair that is there already is not added once more, and leaves the set as it is.  So adding a
pair has two cases throughout: nothing is changed, or both groupings and the number are.
-/
import SubtermIndex.PairSet
import SubtermIndex.Proofs.Groups

namespace SubtermIndex.PairSet

open Std

variable {α β : Type} [Ord α] [Ord β] [TransOrd α] [TransOrd β]

/-- Both groupings are of the same pairs, and these have been counted. -/
structure Valid (r : PairSet α β) : Prop where
  forward : Groups.Full r.forward
  backward : Groups.Full r.backward
  converse : ∀ a b, Groups.hasMember r.backward b a = r.contains a b
  size : r.size = r.toList.length

theorem valid_empty : Valid (∅ : PairSet α β) where
  forward := Groups.full_empty
  backward := Groups.full_empty
  converse a b := by rw [contains_empty, show (∅ : PairSet α β).backward = ∅ from rfl,
    Groups.hasMember_empty]
  size := rfl

theorem insert_of_contains {r : PairSet α β} {a : α} {b : β} (h : r.contains a b = true) :
    r.insert a b = r := by
  simp [insert, containsThenInsert, h]

theorem insert_of_not_contains {r : PairSet α β} {a : α} {b : β} (h : r.contains a b = false) :
    r.insert a b
      = ⟨Groups.addMember r.forward a b, Groups.addMember r.backward b a, r.size + 1⟩ := by
  simp [insert, containsThenInsert, h]

def insertAll (r : PairSet α β) (pairs : List (α × β)) : PairSet α β :=
  pairs.foldl (fun r p => r.insert p.1 p.2) r

theorem union_eq_insertAll (r s : PairSet α β) : r ∪ s = r.insertAll s.toList := rfl

/-! ## The pairs of a set -/

variable [LawfulEqOrd α] [LawfulEqOrd β]

theorem mem_toList {r : PairSet α β} {p : α × β} : p ∈ r.toList ↔ r.contains p.1 p.2 = true :=
  Groups.mem_pairs

theorem nodup_toList (r : PairSet α β) : r.toList.Nodup :=
  Groups.nodup_pairs r.forward

/-- A valid set is determined by its pairs. -/
theorem Valid.ext {r s : PairSet α β} (hr : r.Valid) (hs : s.Valid)
    (same : ∀ a b, r.contains a b = s.contains a b) : r = s := by
  have forward : r.forward = s.forward := hr.forward.ext hs.forward same
  have backward : r.backward = s.backward := hr.backward.ext hs.backward fun b a => by
    rw [hr.converse, hs.converse, same]
  have size : r.size = s.size := by
    rw [hr.size, hs.size, toList, toList, forward]
  cases r
  cases s
  simp_all

/-! ## Adding pairs -/

variable [DecidableEq α] [DecidableEq β]

theorem perm_toList_insert {r : PairSet α β} {a : α} {b : β} (h : r.contains a b = false) :
    (r.insert a b).toList.Perm ((a, b) :: r.toList) := by
  rw [insert_of_not_contains h]
  exact Groups.perm_pairs_addMember h

theorem Valid.insert {r : PairSet α β} (hr : r.Valid) (a : α) (b : β) : (r.insert a b).Valid := by
  cases h : r.contains a b with
  | true =>
      rw [insert_of_contains h]
      exact hr
  | false =>
      have size := (perm_toList_insert h).length_eq
      have contains := contains_insert r a (b := b)
      rw [insert_of_not_contains h] at size contains ⊢
      refine ⟨hr.forward.addMember a b, hr.backward.addMember b a, ?_, ?_⟩
      · intro c d
        rw [contains, Groups.hasMember_addMember, hr.converse]
        simp [and_comm]
      · rw [size, List.length_cons, hr.size]

theorem contains_insertAll (r : PairSet α β) (pairs : List (α × β)) (a : α) (b : β) :
    (r.insertAll pairs).contains a b = true ↔ r.contains a b = true ∨ (a, b) ∈ pairs := by
  induction pairs generalizing r with
  | nil => simp [insertAll]
  | cons p rest ih =>
      have := ih (r.insert p.1 p.2)
      rw [insertAll, List.foldl_cons, ← insertAll, this, contains_insert]
      simp only [Bool.or_eq_true, decide_eq_true_eq, List.mem_cons, Prod.ext_iff,
        eq_comm (a := a), eq_comm (a := b)]
      tauto

theorem Valid.insertAll {r : PairSet α β} (hr : r.Valid) (pairs : List (α × β)) :
    (r.insertAll pairs).Valid := by
  induction pairs generalizing r with
  | nil => exact hr
  | cons p rest ih => exact ih (hr.insert p.1 p.2)

/-! ## Union -/

theorem contains_union (r s : PairSet α β) (a : α) (b : β) :
    (r ∪ s).contains a b = (r.contains a b || s.contains a b) := by
  rw [Bool.eq_iff_iff, union_eq_insertAll, contains_insertAll, mem_toList, Bool.or_eq_true]

theorem Valid.union {r s : PairSet α β} (hr : r.Valid) : (r ∪ s).Valid :=
  hr.insertAll s.toList

end SubtermIndex.PairSet
