/-
# `SubtermIndex.Proofs.Indexer.SplitCollision` — which collision a split call reports

A plain call stops at the first node that collides.  A split call walks the sub-trees of the
frontier apart, so that it sees that two of them collide only when it merges them.  Whatever stops
one of them on its own comes before that, and a merge names the least of the hashes it cannot take
in.  Hence the two calls need not report the same error (`insertSplit_differs`): the split call
may report another collision of the tree, or what the plain call would have rejected if it had
gone on (`insertSplit_of_collision`).

They report the same collision if nothing is split, if it is one with the index and not within the
tree, and if the tree is accepted and collides under no other hash (`insertSplit_collides`).
-/
import SubtermIndex.Proofs.Indexer.Insert

namespace SubtermIndex.Indexer

variable {N : Type} {ix : Indexer N} {root : N} {m : Index} {h : NodeHash}

theorem insertSplit_eq_insert (same : ix.walkSplit root = ix.walk root .root) :
    ix.insertSplit root m = ix.insert root m := by
  rw [insertSplit, insert, same]

theorem walkSplit_of_splitDepth_eq_zero (whole : ix.splitDepth = 0) :
    ix.walkSplit root = ix.walk root .root := by
  cases walked : ix.walk root .root with
  | ok done => exact ix.walkSplit_eq_ok_iff.mpr walked
  | error failure =>
      rw [walkSplit, joinAll, frontier_eq, whole]
      simp [fringe, join, takeResult, walkEntry, walked, Except.map]

/-- Where a plain call reports a collision, a split call fails as well.  It reports the same
collision, or another one of the tree, or the error for which the tree is not accepted. -/
theorem insertSplit_of_collision
    (collides : (ix.insert root m).mapError Failure.toError = .error (.collision h)) :
    ∃ e, (ix.insertSplit root m).mapError Failure.toError = .error e ∧
      (e = .collision h ∨ (ix.trace (ix.levelsAt .root) root .root).outcome = .error e ∨
        ∃ k, e = .collision k ∧
          Index.Clash ix.hasher (ix.trace (ix.levelsAt .root) root .root).closed k) := by
  by_cases conflict : ∃ k, ix.walk root .root = .error (.storeConflict k)
  · obtain ⟨k, conflict⟩ := conflict
    obtain ⟨failure, split, reason⟩ := ix.walkSplit_of_storeConflict conflict
    refine ⟨failure.toError, ?_, .inr ?_⟩
    · rw [insertSplit, split]
      rfl
    · rcases reason with ⟨e, rfl, outcome⟩ | ⟨k, collision, clash⟩
      · exact .inl outcome
      · exact .inr ⟨k, collision, clash⟩
  · refine ⟨.collision h, ?_, .inl rfl⟩
    rw [insertSplit_eq_insert (ix.walkSplit_eq_walk (not_exists.mp conflict)), collides]

/-- A split call reports the collision that the plain call reports, if the tree is walked in one
piece, if it does not collide with itself, or if it is accepted and collides with itself under
one hash only. -/
theorem insertSplit_collides
    (collides : (ix.insert root m).mapError Failure.toError = .error (.collision h))
    (only : ix.splitDepth = 0 ∨ (∀ k, ix.walk root .root ≠ .error (.storeConflict k)) ∨
      ∃ T, ix.Accepts root T ∧ ∀ k, Index.Clash ix.hasher (T.entries ix.hasher) k → k = h) :
    (ix.insertSplit root m).mapError Failure.toError = .error (.collision h) := by
  rcases only with whole | noConflict | ⟨T, accepts, only⟩
  · rw [insertSplit_eq_insert (walkSplit_of_splitDepth_eq_zero whole), collides]
  · rw [insertSplit_eq_insert (ix.walkSplit_eq_walk noConflict), collides]
  · have trace : ix.trace (ix.levelsAt .root) root .root = ⟨_, .ok _⟩ :=
      ix.trace_eq_ok_iff.mpr ⟨T, accepts, rfl, rfl⟩
    obtain ⟨e, split, reason⟩ := insertSplit_of_collision collides
    rw [trace] at reason
    rcases reason with rfl | failed | ⟨k, rfl, clash⟩
    · exact split
    · cases failed
    · rw [split, only k clash]

def leafSample (truth : Bool) : Cbor.Value :=
  .record [(.text "children", .list []), (.text "v", .bool truth)]

def twinSample : Cbor.Value :=
  .record [(.text "children", .list [leafSample true, leafSample false])]

theorem insertSplit_collides_twins :
    (splitSample.insert twinSample ∅).mapError Failure.toError = .error (.collision ⟨.zero⟩) ∧
      (splitSample.insertSplit twinSample ∅).mapError Failure.toError =
        .error (.collision ⟨.zero⟩) := by
  have collides : (splitSample.insert twinSample ∅).mapError Failure.toError =
      .error (.collision ⟨.zero⟩) := by
    rw [insert, walk_eq_walkDirect]
    rfl
  have outcome : (splitSample.trace (splitSample.levelsAt .root) twinSample .root).outcome =
      .ok ⟨.zero⟩ := by
    rfl
  obtain ⟨T, accepts, -, -⟩ := splitSample.trace_eq_ok_iff.mp (Trace.ext rfl outcome)
  refine ⟨collides, insertSplit_collides collides (.inr (.inr ⟨T, accepts, ?_⟩))⟩
  rintro k ⟨e, -, f, -, hash, -⟩
  rw [← hash]
  rfl

/-- A root over a leaf and a node, and below the node another leaf and what is no node. -/
def clashSample : Cbor.Value :=
  .record [(.text "children", .list [leafSample true,
    .record [(.text "children", .list [leafSample false, .null])]])]

/-- The plain call meets the second leaf before it meets what is no node.  To the split call the
leaves lie in different indexes. -/
theorem insertSplit_differs :
    (splitSample.insert clashSample ∅).mapError Failure.toError = .error (.collision ⟨.zero⟩) ∧
      (splitSample.insertSplit clashSample ∅).mapError Failure.toError =
        .error (.malformed (.ofIndices [1, 1]) (.notRecord .null)) := by
  constructor
  · rw [insert, walk_eq_walkDirect]
    rfl
  · have walks : splitSample.walkEntry = fun entry => splitSample.walkDirect entry.1 entry.2 := by
      funext entry
      exact splitSample.walk_eq_walkDirect entry.1 entry.2
    rw [insertSplit, walkSplit, walks]
    rfl

end SubtermIndex.Indexer
