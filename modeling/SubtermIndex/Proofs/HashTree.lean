/-
# `SubtermIndex.Proofs.HashTree` — a hash stands for a structure

The hash of a tree can be had without an index, namely exactly when the tree is read within the
depth limit and does not collide with itself (`hashTree_eq_ok_iff`).

Equal structures have equal hashes.  The converse asks nothing of the digest but that it tells the
records apart that occur in the two trees (`Tree.Separated`): then equal hashes come from equal
records, whose payloads and children are equal again, down to the leaves.

This is weaker than to ask for a digest without collisions, which there is none of.  A digest may
confuse as many other messages as it likes.
-/
import SubtermIndex.Proofs.Reached

namespace SubtermIndex

namespace Tree

/-- Whether the digest tells apart all records of sub-trees of `S` and `T` that differ. -/
def Separated (H : Hasher) (S T : Tree) : Prop :=
  ∀ A ∈ S.subtrees, ∀ B ∈ T.subtrees,
    H .node (A.entry H).record = H .node (B.entry H).record →
      (A.entry H).record = (B.entry H).record

theorem Separated.same_of_hash_eq {H : Hasher} {S T : Tree} (separated : Separated H S T)
    (hS : S.Fits) (hT : T.Fits) (h : S.hash H = T.hash H) : S.Same T := by
  refine Tree.same_of_hash_eq hS hT ?_ h
  intro A hA B hB same
  rw [A.hash_eq, B.hash_eq] at same
  exact separated A hA B hB (Hash.mk.inj same)

end Tree

namespace Indexer

variable {N : Type} {ix : Indexer N} {root : N}

theorem hashTree_eq_ok_iff {h : NodeHash} :
    ix.hashTree root = .ok h ↔
      ∃ T, ix.Accepts root T ∧ h = T.hash ix.hasher ∧
        Index.Consistent ix.hasher (T.entries ix.hasher) := by
  rw [hashTree]
  constructor
  · intro hashed
    cases walked : ix.walk root .root with
    | error failure => simp [walked] at hashed
    | ok done =>
        obtain ⟨T, accepts, hash, alone⟩ := walk_eq_ok_iff.mp walked
        simp only [walked, Except.ok.injEq] at hashed
        exact ⟨T, accepts, hashed.symm.trans hash, Index.putAll_empty_isOk_iff.mp ⟨_, alone⟩⟩
  · rintro ⟨T, accepts, rfl, consistent⟩
    obtain ⟨sub, alone⟩ := Index.putAll_empty_isOk_iff.mpr consistent
    rw [walk_eq_ok_iff.mpr ⟨T, accepts, rfl, alone⟩]

end Indexer

variable {H : Hasher}

def Input.hashTree (x : Input H) : Except TreeError NodeHash := x.indexer.hashTree x.root

theorem Input.exists_tree_of_hashTree {x : Input H} {h : NodeHash} (hashed : x.hashTree = .ok h) :
    ∃ T, x.Reads T ∧ T.Fits ∧ h = T.hash H := by
  obtain ⟨T, ⟨reads, -⟩, hash, -⟩ := Indexer.hashTree_eq_ok_iff.mp hashed
  rw [x.digest] at hash
  exact ⟨T, reads, Input.Reads.fits reads, hash⟩

/-- Trees of one structure have one hash, and trees with one hash have one structure, unless the
digest confuses different records of the two. -/
theorem hashTree_identifies {x y : Input H} {h k : NodeHash} (hx : x.hashTree = .ok h)
    (hy : y.hashTree = .ok k) :
    ∃ S T, x.Reads S ∧ y.Reads T ∧ (S.Same T → h = k) ∧
      (Tree.Separated H S T → h = k → S.Same T) := by
  obtain ⟨S, readsS, fitsS, rfl⟩ := x.exists_tree_of_hashTree hx
  obtain ⟨T, readsT, fitsT, rfl⟩ := y.exists_tree_of_hashTree hy
  refine ⟨S, T, readsS, readsT, ?_, ?_⟩
  · intro same
    exact same.hash_eq H
  · intro separated hash
    exact separated.same_of_hash_eq fitsS fitsT hash

open Sample in
theorem hashTree_identifies_spelling :
    ∃ h k, (Spelling.input 1).hashTree = .ok h ∧ (Spelling.input 2).hashTree = .ok k ∧
      ∃ S T, (Spelling.input 1).Reads S ∧ (Spelling.input 2).Reads T ∧ (S.Same T → h = k) ∧
        (Tree.Separated .byLength S T → h = k → S.Same T) := by
  have hashed (i : Fin 4) : ∃ h, (Spelling.input i).hashTree = .ok h := by
    have succeeds : (Spelling.input i).hashTree.toBool = true := by
      revert i
      decide +kernel
    cases hash : (Spelling.input i).hashTree with
    | error e => simp [hash, Except.toBool] at succeeds
    | ok h => exact ⟨h, rfl⟩
  obtain ⟨h, hx⟩ := hashed 1
  obtain ⟨k, hy⟩ := hashed 2
  exact ⟨h, k, hx, hy, hashTree_identifies hx hy⟩

end SubtermIndex
