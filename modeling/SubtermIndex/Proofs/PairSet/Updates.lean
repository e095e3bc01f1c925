/-
# `SubtermIndex.Proofs.PairSet.Updates` — growing sets of pairs are finite sets

What a set of pairs holds is a finite set (`PairSet.contents`).  An update adds to it what the
update is to add, and answers what was not there (`addPair_eq`, `extend_eq`).  A row of updates on
a family of sets is therefore a row of insertions and unions of finite sets (`Holds.performAll`),
and nothing else can be seen of it (`Represents`): the counter, the look-ups on either side, the
order of the list and equality all depend on the pairs alone.

The updates enter a pair on one side first and look there whether it is new.  This is right
because the two sides always agree, which is the invariant of these sets (`PairSet.Valid`).
-/
import SubtermIndex.PairSet.Updates
import SubtermIndex.Proofs.PairSet
import Mathlib.Data.Finset.Card

namespace SubtermIndex

open Std

variable {α β : Type} [Ord α] [Ord β] [TransOrd α] [TransOrd β]

/-! ## What is found under a key -/

/-- Whether a look-up has found what has the property `P`, in ascending order, and nothing at
all only if nothing has it. -/
structure Finds {γ : Type} [Ord γ] [TransOrd γ] (found : Option (ExtTreeSet γ)) (P : γ → Prop) :
    Prop where
  none_iff : found = none ↔ ∀ c, ¬ P c
  mem_iff : ∀ there, found = some there → ∀ c, c ∈ there.toList ↔ P c
  ascending : ∀ there, found = some there → there.toList.Pairwise fun c d => compare c d = .lt

theorem Groups.Full.finds [LawfulEqOrd β] {g : Groups α β} (full : Groups.Full g) (a : α) :
    Finds g[a]? fun b => Groups.hasMember g a b = true where
  none_iff := by
    rw [← not_exists, ← full.mem_iff, ExtTreeMap.mem_iff_isSome_getElem?, Option.isSome_iff_ne_none,
      not_ne_iff]
  mem_iff there found b := by
    rw [Groups.hasMember_of_getElem? found, ExtTreeSet.mem_toList, ExtTreeSet.mem_iff_contains]
  ascending there _ := ExtTreeSet.ordered_toList

namespace PairSet

def Precedes (p q : α × β) : Prop :=
  compare p.1 q.1 = .lt ∨ p.1 = q.1 ∧ compare p.2 q.2 = .lt

theorem ascending_toList (r : PairSet α β) : r.toList.Pairwise Precedes := by
  refine List.pairwise_flatMap.mpr ⟨?_, ?_⟩
  · rintro ⟨a, members⟩ _
    refine List.pairwise_map.mpr (ExtTreeSet.ordered_toList.imp ?_)
    intro b c less
    exact .inr ⟨rfl, less⟩
  · refine ExtTreeMap.ordered_keys_toList.imp ?_
    intro group later less p hp q hq
    obtain ⟨b, -, rfl⟩ := List.mem_map.mp hp
    obtain ⟨c, -, rfl⟩ := List.mem_map.mp hq
    exact .inl less

/-! ## The pairs as a finite set -/

variable [LawfulEqOrd α] [LawfulEqOrd β] [DecidableEq α] [DecidableEq β] {r s : PairSet α β}

def contents (r : PairSet α β) : Finset (α × β) := r.toList.toFinset

@[simp] theorem mem_contents {p : α × β} : p ∈ r.contents ↔ r.contains p.1 p.2 = true := by
  rw [contents, List.mem_toFinset, mem_toList]

theorem Valid.card_contents (hr : r.Valid) : r.contents.card = r.size := by
  rw [contents, List.toFinset_card_of_nodup (nodup_toList r), hr.size]

/-- A valid set is determined by what it holds. -/
theorem Valid.eq_iff_contents_eq (hr : r.Valid) (hs : s.Valid) :
    r = s ↔ r.contents = s.contents := by
  constructor
  · rintro rfl
    rfl
  · intro same
    refine hr.ext hs ?_
    intro a b
    rw [Bool.eq_iff_iff, ← mem_contents (p := (a, b)), same, mem_contents]

@[simp] theorem contents_empty : (∅ : PairSet α β).contents = ∅ := by
  ext p
  simp

@[simp] theorem contents_insert (a : α) (b : β) :
    (r.insert a b).contents = Insert.insert (a, b) r.contents := by
  ext ⟨c, d⟩
  rw [mem_contents, contains_insert, Finset.mem_insert, mem_contents, Bool.or_eq_true,
    decide_eq_true_eq, Prod.mk.injEq, eq_comm (a := a), eq_comm (a := b)]

@[simp] theorem contents_union : (r ∪ s).contents = r.contents ∪ s.contents := by
  ext p
  simp [contains_union]

/-! ## What an update adds and answers -/

theorem addPair_eq (a : α) (b : β) :
    r.addPair a b = (decide ((a, b) ∉ r.contents), r.insert a b) := by
  rw [addPair]
  cases old : r.contains a b with
  | true =>
      rw [insert_of_contains old, Groups.addMember_of_hasMember old]
      simp [old, show Groups.hasMember r.forward a b = true from old]
  | false =>
      rw [insert_of_not_contains old]
      simp [old, show Groups.hasMember r.forward a b = false from old]

/-- Whoever asks and inserts at once learns the opposite. -/
theorem addPair_eq_containsThenInsert (a : α) (b : β) :
    r.addPair a b = ((!(r.containsThenInsert a b).1), (r.containsThenInsert a b).2) := by
  rw [addPair_eq, containsThenInsert_fst]
  simp [insert]

theorem card_insert_sdiff {γ : Type} [DecidableEq γ] {c : γ} {S T : Finset γ} (fresh : c ∉ S)
    (new : c ∉ T) : (Insert.insert c S \ T).card = 1 + (S \ Insert.insert c T).card := by
  have same : S \ T = S \ Insert.insert c T := by
    rw [Finset.sdiff_insert, Finset.erase_eq_of_notMem]
    exact fun mem => fresh (Finset.mem_sdiff.mp mem).1
  rw [Finset.insert_sdiff_of_notMem S new, same, Finset.card_insert_of_notMem (by simp [fresh]),
    Nat.add_comm]

/-- The pairs of a row are inserted, and those are counted that were not there. -/
theorem addEach_eq {pairs : List (α × β)} (nodup : pairs.Nodup) (count : Nat) :
    addEach pairs count r =
      (count + (pairs.toFinset \ r.contents).card, r.insertAll pairs) := by
  induction pairs generalizing count r with
  | nil =>
      rw [addEach, List.toFinset_nil, Finset.empty_sdiff, Finset.card_empty]
      rfl
  | cons p rest ih =>
      obtain ⟨a, b⟩ := p
      obtain ⟨fresh, nodup⟩ := List.nodup_cons.mp nodup
      have later : r.insertAll ((a, b) :: rest) = (r.insert a b).insertAll rest := rfl
      rw [addEach, addPair_eq, later, List.toFinset_cons]
      by_cases old : (a, b) ∈ r.contents
      · have same : r.insert a b = r := insert_of_contains (mem_contents.mp old)
        simp only [old, not_true_eq_false, decide_false, ih nodup, same,
          Finset.insert_sdiff_of_mem _ old]
      · have fresh : (a, b) ∉ rest.toFinset := mt List.mem_toFinset.mp fresh
        simp only [old, not_false_eq_true, decide_true, ih nodup, contents_insert,
          card_insert_sdiff fresh old, Nat.add_assoc]

theorem extend_eq : r.extend s = ((s.contents \ r.contents).card, r ∪ s) := by
  rw [extend, addEach_eq (nodup_toList s), Nat.zero_add, union_eq_insertAll]
  rfl

/-- The number of new pairs is the difference of the sizes. -/
theorem extend_eq_gain (hr : r.Valid) : r.extend s = (r.gain s, r ∪ s) := by
  have new : (r.contents ∪ s.contents).card - r.contents.card = (s.contents \ r.contents).card := by
    rw [Finset.union_comm, ← Finset.card_sdiff_add_card, Nat.add_sub_cancel]
  rw [extend_eq, gain, ← hr.union.card_contents, ← hr.card_contents, contents_union, new]

/-! ## What can be seen of a set -/

/-- Everything that a set of pairs answers when it holds `S`. -/
structure Represents (r : PairSet α β) (S : Finset (α × β)) : Prop where
  size : r.size = S.card
  isEmpty : r.isEmpty = true ↔ S = ∅
  contains : ∀ a b, r.contains a b = true ↔ (a, b) ∈ S
  image? : ∀ a, Finds (r.image? a) fun b => (a, b) ∈ S
  preimage? : ∀ b, Finds (r.preimage? b) fun a => (a, b) ∈ S
  mem_toList : ∀ p, p ∈ r.toList ↔ p ∈ S
  ascending : r.toList.Pairwise Precedes

theorem Valid.represents (hr : r.Valid) : Represents r r.contents where
  size := hr.card_contents.symm
  isEmpty := by
    rw [isEmpty, ← hr.card_contents, beq_iff_eq, Finset.card_eq_zero]
  contains a b := (mem_contents (p := (a, b))).symm
  image? a := by
    simp only [mem_contents]
    exact hr.forward.finds a
  preimage? b := by
    simp only [mem_contents, ← hr.converse]
    exact hr.backward.finds b
  mem_toList p := by rw [PairSet.mem_toList, mem_contents]
  ascending := ascending_toList r

/-! ## Rows of updates -/

/-- An update of a family of finite sets. -/
def Update.performOnSets : Update α β → (Nat → Finset (α × β)) →
    Answer × (Nat → Finset (α × β))
  | .add i a b, sets =>
      (.isNew (decide ((a, b) ∉ sets i)), Function.update sets i (Insert.insert (a, b) (sets i)))
  | .extend i other, sets =>
      (.newPairs (sets other \ sets i).card, Function.update sets i (sets i ∪ sets other))

def Holds (family : Nat → PairSet α β) (sets : Nat → Finset (α × β)) : Prop :=
  ∀ i, (family i).Valid ∧ (family i).contents = sets i

omit [LawfulEqOrd α] [LawfulEqOrd β] in
theorem Holds.update {family : Nat → PairSet α β} {sets : Nat → Finset (α × β)}
    (holds : Holds family sets) {i : Nat} {S : Finset (α × β)} (hr : r.Valid)
    (same : r.contents = S) : Holds (Function.update family i r) (Function.update sets i S) := by
  intro k
  by_cases this : k = i
  · subst this
    rw [Function.update_self, Function.update_self]
    exact ⟨hr, same⟩
  · rw [Function.update_of_ne this, Function.update_of_ne this]
    exact holds k

/-- An update answers what it answers on finite sets, and leaves what it leaves there. -/
theorem Holds.perform {family : Nat → PairSet α β} {sets : Nat → Finset (α × β)}
    (holds : Holds family sets) (update : Update α β) :
    (update.perform family).1 = (update.performOnSets sets).1 ∧
      Holds (update.perform family).2 (update.performOnSets sets).2 := by
  cases update with
  | add i a b =>
      obtain ⟨valid, same⟩ := holds i
      rw [Update.perform, Update.performOnSets, addPair_eq, ← same]
      exact ⟨rfl, holds.update (valid.insert a b) (contents_insert a b)⟩
  | extend i other =>
      obtain ⟨valid, same⟩ := holds i
      rw [Update.perform, Update.performOnSets, extend_eq, ← same, ← (holds other).2]
      exact ⟨rfl, holds.update valid.union contents_union⟩

theorem Holds.performAll {family : Nat → PairSet α β} {sets : Nat → Finset (α × β)}
    (holds : Holds family sets) (updates : List (Update α β)) :
    (Update.all Update.perform updates family).1 =
        (Update.all Update.performOnSets updates sets).1 ∧
      Holds (Update.all Update.perform updates family).2
        (Update.all Update.performOnSets updates sets).2 := by
  induction updates generalizing family sets with
  | nil => exact ⟨rfl, holds⟩
  | cons update rest ih =>
      obtain ⟨answer, after⟩ := holds.perform update
      obtain ⟨answers, last⟩ := ih after
      refine ⟨?_, last⟩
      rw [Update.all, Update.all]
      exact congrArg₂ List.cons answer answers

/-! ## The main statement -/

/-- Whatever updates are performed on empty sets of pairs, every one of them answers what it would
answer on finite sets, and every set shows the pairs that it has got by then.  Sets
are equal exactly if they have the same pairs, whatever updates have made them. -/
theorem represents_updates (updates : List (Update α β)) :
    let built := Update.all Update.perform updates fun _ => ∅
    let sets := Update.all Update.performOnSets updates fun _ => ∅
    built.1 = sets.1 ∧
      (∀ i, Represents (built.2 i) (sets.2 i)) ∧
      ∀ (others : List (Update α β)) (i j : Nat),
        built.2 i = (Update.all Update.perform others fun _ => ∅).2 j ↔
          sets.2 i = (Update.all Update.performOnSets others fun _ => ∅).2 j := by
  have holds (updates : List (Update α β)) :=
    Holds.performAll (fun _ => ⟨valid_empty, contents_empty⟩) updates
  obtain ⟨answers, after⟩ := holds updates
  refine ⟨answers, ?_, ?_⟩
  · intro i
    rw [← (after i).2]
    exact (after i).1.represents
  · intro others i j
    obtain ⟨-, after'⟩ := holds others
    rw [← (after i).2, ← (after' j).2]
    exact (after i).1.eq_iff_contents_eq (after' j).1

/-- Pairs of numbers: the first set takes over the one pair that it does not have, and then equals
the second one. -/
theorem represents_updates_numbers :
    let updates : List (Update Nat Nat) :=
      [.add 0 1 2, .add 0 1 2, .add 1 1 2, .add 1 1 3, .extend 0 1]
    let built := Update.all Update.perform updates fun _ => ∅
    built.1 = [.isNew true, .isNew false, .isNew true, .isNew true, .newPairs 1] ∧
      (built.2 0).size = 2 ∧ built.2 0 = built.2 1 := by
  intro updates built
  obtain ⟨answers, shown, equal⟩ := represents_updates updates
  refine ⟨answers.trans (by decide), (shown 0).size.trans (by decide), ?_⟩
  exact (equal updates 0 1).mpr (by decide)

end PairSet

end SubtermIndex
