/-
# `SubtermIndex.Proofs.Indexer.Insert` — to insert a tree is to put its entries

A call on an index succeeds exactly when a tree is read within the depth limit (`Accepts`) and its
entries can be put into the index.  Then it answers the hash of the tree, and the index is the one
with the entries in it (`exists_tree_of_insert`, `exists_insert_of_accepts`).  If a tree is read,
then the only other error is a collision (`eq_collision_of_accepts`).

From here on a call is known by its tree.  Most of what is said later about calls does not mention
walks, staging indexes or merges any more.
-/
import SubtermIndex.Indexer.Insert
import SubtermIndex.Proofs.Indexer.Split

namespace SubtermIndex.Indexer

variable {N : Type} {ix : Indexer N} {root : N} {m : Index}

def Accepts (ix : Indexer N) (root : N) (T : Tree) : Prop :=
  ix.reader.Reads root T ∧ T.Within (ix.levelsAt .root)

theorem mergeWalked_eq_ok_iff {walked : NodeHash × Index} {d : Inserted} :
    mergeWalked walked m = .ok d ↔
      ∃ merged, m.merge walked.2 = .ok merged ∧
        d = { root := walked.1, index := merged, staged := walked.2.size,
              gain := .between m merged } := by
  rw [mergeWalked]
  cases m.merge walked.2 <;> simp [Failure.ofMerge, Except.map, eq_comm]

/-- A walk succeeds exactly when a tree is accepted whose entries can be put into an empty
index. -/
theorem walk_eq_ok_iff {h : NodeHash} {sub : Index} :
    ix.walk root .root = .ok (h, sub) ↔
      ∃ T, ix.Accepts root T ∧ h = T.hash ix.hasher ∧
        (∅ : Index).putAll ix.hasher (T.entries ix.hasher) = .ok sub := by
  rw [walk_eq_commit, Trace.commit_eq_ok]
  constructor
  · rintro ⟨E, trace, alone⟩
    obtain ⟨T, accepts, rfl, rfl⟩ := ix.trace_eq_ok_iff.mp trace
    exact ⟨T, accepts, rfl, alone⟩
  · rintro ⟨T, accepts, rfl, alone⟩
    exact ⟨_, ix.trace_eq_ok_iff.mpr ⟨T, accepts, rfl, rfl⟩, alone⟩

/-- A call that succeeds accepts a tree, answers its hash, and puts its entries into the index. -/
theorem exists_tree_of_insert {d : Inserted} (hm : m.WellFormed)
    (inserted : ix.insert root m = .ok d) :
    ∃ T, ix.Accepts root T ∧ d.root = T.hash ix.hasher ∧
      m.putAll ix.hasher (T.entries ix.hasher) = .ok d.index := by
  obtain ⟨⟨h, sub⟩, walked, merged⟩ := ix.insert_eq_ok_iff.mp inserted
  obtain ⟨T, accepts, rfl, alone⟩ := walk_eq_ok_iff.mp walked
  obtain ⟨m', union, rfl⟩ := mergeWalked_eq_ok_iff.mp merged
  exact ⟨T, accepts, rfl, (Index.merge_eq_ok_iff hm alone).mp union⟩

/-- A call succeeds if a tree is accepted whose entries can be put into the index. -/
theorem exists_insert_of_accepts {T : Tree} {m' : Index} (hm : m.WellFormed)
    (accepts : ix.Accepts root T)
    (all : m.putAll ix.hasher (T.entries ix.hasher) = .ok m') :
    ∃ d, ix.insert root m = .ok d ∧ d.root = T.hash ix.hasher ∧ d.index = m' ∧
      d.gain = .between m m' := by
  have consistent := (Index.putAll_isOk_iff.mp ⟨m', all⟩).2
  obtain ⟨sub, alone⟩ := Index.putAll_empty_isOk_iff.mpr consistent
  have walked := walk_eq_ok_iff.mpr ⟨T, accepts, rfl, alone⟩
  have union := (Index.merge_eq_ok_iff hm alone).mpr all
  have inserted := ix.insert_eq_ok_iff.mpr ⟨_, walked, mergeWalked_eq_ok_iff.mpr ⟨m', union, rfl⟩⟩
  exact ⟨_, inserted, rfl, rfl, rfl⟩

theorem insert_ne_rejected {T : Tree} (accepts : ix.Accepts root T) (e : TreeError) :
    ix.insert root m ≠ .error (.rejected e) := by
  intro rejected
  have stops := ix.insert_eq_rejected_iff.mp rejected
  rw [walk_eq_commit, ix.trace_eq_ok_iff.mpr ⟨T, accepts, rfl, rfl⟩] at stops
  exact absurd (Trace.commit_eq_rejected.mp stops).1 (by simp)

theorem eq_collision_of_accepts {T : Tree} {e : TreeError} (accepts : ix.Accepts root T)
    (fails : (ix.insert root m).mapError Failure.toError = .error e) :
    ∃ h, e = .collision h := by
  by_contra noCollision
  exact insert_ne_rejected accepts e (eq_rejected_of_toError (not_exists.mp noCollision) fails)

end SubtermIndex.Indexer
