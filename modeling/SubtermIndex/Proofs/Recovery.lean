/-
# `SubtermIndex.Proofs.Recovery` — nothing that has been indexed is lost

Whatever calls are made on the indexes of a session, and whichever of them fail, an index gives
back every tree that has been indexed into it or into an index that was merged into it: the hash
of the tree's root unfolds into a tree of the same structure (`restores_performAll`).  Nothing is
assumed of the digest.
-/
import SubtermIndex.Proofs.Session
import SubtermIndex.Proofs.Index.Unfolding

namespace SubtermIndex

variable {H : Hasher}

theorem Reached.restores {calls : List (Input H × NodeHash)} {m : Index}
    (reached : Reached H calls m) {c : Input H × NodeHash} (hc : c ∈ calls) :
    ∃ T, c.1.Reads T ∧ m.Restores c.2 T := by
  obtain ⟨Ts, all, index⟩ := reached.exists_trees
  obtain ⟨T, hT, reads, root⟩ := exists_of_forall₂_left all hc
  rw [root]
  exact ⟨T, reads, index.restores (fits_of_reads all) hT⟩

/-- After any calls, failed ones included, every index gives back the trees that have been
indexed into it, or into an index that was copied or merged into it. -/
theorem restores_performAll (ops : List (Operation H)) :
    (∀ i, ∀ c ∈ (Ledger.empty.performAll ops).trees i,
      ∃ T, c.1.Reads T ∧ ((Session.empty.performAll ops).indexes i).Restores c.2 T) ∧
    ∀ place, ∀ c ∈ (Ledger.empty.performAll ops).sharedTrees place,
      ∃ T, c.1.Reads T ∧ ((Session.empty.performAll ops).shared place).contents.Restores c.2 T := by
  have correct : (Ledger.empty.performAll ops).Correct := Ledger.correct_empty.performAll ops
  have session : (Ledger.empty.performAll ops).session = Session.empty.performAll ops :=
    Ledger.session_performAll _ ops
  rw [← session]
  constructor
  · intro i c hc
    exact (correct.indexes i).restores hc
  · intro place c hc
    exact (correct.shared place).restores hc

/-! ## A leaf in two spellings -/

namespace Sample.Spelling

/-- The second call fails.  The leaf that is stored under the number 1 before the merge is
spelled in the other way. -/
def calls : List (Operation .byLength) :=
  [.insert 0 (input 0), .insert 0 (input 3), .insertSplit 1 (input 2), .merge 1 0]

end Sample.Spelling

open Sample in
theorem restores_performAll_spelling :
    ∃ c d, (Ledger.empty.performAll Spelling.calls).trees 1 = [c, d] ∧
      ∃ T, d.1.Reads T ∧
        ((Session.empty.performAll Spelling.calls).indexes 1).Restores d.2 T := by
  have two : ((Ledger.empty.performAll Spelling.calls).trees 1).length = 2 := by decide +kernel
  obtain ⟨c, d, trees⟩ := List.length_eq_two.mp two
  refine ⟨c, d, trees, (restores_performAll Spelling.calls).1 1 d ?_⟩
  rw [trees]
  exact List.mem_cons_of_mem _ List.mem_cons_self

end SubtermIndex
