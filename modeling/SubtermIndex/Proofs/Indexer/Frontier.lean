/-
# `SubtermIndex.Proofs.Indexer.Frontier` — a crew walks the frontier

The caller and its helpers, of whom there may be none, share the walks of a frontier.  However
they get ahead of one another, every entry is walked once, and the results come back in the order
of the entries (`walkEntries_byCrew`).  So a split walk does not depend on who walked what
(`walkByCrew_eq_walkSplit`).

What is said of crews in general is applied here to one kind of jobs.  A walk of a sub-tree does
not depend on any other one, which is why it may be taken for a function of its entry.
-/
import SubtermIndex.Proofs.Crew
import SubtermIndex.Proofs.Indexer.Split

namespace SubtermIndex.Indexer

variable {N : Type} (ix : Indexer N)

theorem walkByCrew_eq_walkSplit {root : N} {helpers : Nat} {schedule : List Nat}
    (done : (Crew.run (ix.frontier root) ix.walkEntry schedule
      (.ofSize (helpers + 1))).isDone = true) :
    ix.walkByCrew root (helpers + 1) schedule = ix.walkSplit root := by
  rw [walkByCrew, walkSplit, (Crew.answers_of_isDone helpers.succ_pos done).2]

/-- Under every schedule of the caller and its helpers, the entries are walked in their order of
the frontier, none of them twice.  Once all have retired, which they do if each of them gets turns
enough, all entries have been walked, every worker has asked once in vain for another one, and the
results are those of the entries, in the order of the entries. -/
theorem walkEntries_byCrew (entries : List (N × Position)) (helpers : Nat) (schedule : List Nat) :
    let crew := Crew.run entries ix.walkEntry schedule (.ofSize (helpers + 1))
    let begun := Crew.begun entries ix.walkEntry (.ofSize (helpers + 1)) schedule
    begun = List.range (min crew.counter entries.length) ∧
      (crew.isDone = true →
        begun = List.range entries.length ∧ crew.counter = entries.length + (helpers + 1) ∧
          crew.answers = entries.map fun entry => ix.walk entry.1 entry.2) ∧
      ((∀ i ≤ helpers, 2 * entries.length + 1 ≤ schedule.count i) → crew.isDone = true) := by
  intro crew begun
  have inOrder : begun = List.range (min crew.counter entries.length) :=
    Crew.begun_ofSize (helpers + 1) schedule
  refine ⟨inOrder, ?_, ?_⟩
  · intro done
    obtain ⟨counter, answers⟩ := Crew.answers_of_isDone helpers.succ_pos done
    refine ⟨?_, counter, answers⟩
    rw [inOrder, counter, Nat.min_eq_right (Nat.le_add_right _ _)]
  · intro turns
    refine Crew.isDone_of_turns fun i inside => ?_
    exact turns i (Nat.le_of_lt_succ inside)

def sampleEntries : List (Cbor.Value × Position) := splitSample.frontier brokenSample

/-- The helper overtakes the caller; and a caller that is left alone does all walks itself. -/
theorem walkEntries_byCrew_sample :
    (Crew.run sampleEntries splitSample.walkEntry [0, 1, 1, 1, 0, 0] (.ofSize 2)).answers =
        sampleEntries.map (fun entry => splitSample.walk entry.1 entry.2) ∧
      (Crew.run sampleEntries splitSample.walkEntry [0, 0, 0, 0, 0] (.ofSize 1)).answers =
        sampleEntries.map fun entry => splitSample.walk entry.1 entry.2 := by
  obtain ⟨-, shared, -⟩ := splitSample.walkEntries_byCrew sampleEntries 1 [0, 1, 1, 1, 0, 0]
  obtain ⟨-, alone, turns⟩ := splitSample.walkEntries_byCrew sampleEntries 0 [0, 0, 0, 0, 0]
  refine ⟨(shared (by decide +kernel)).2.2, (alone (turns ?_)).2.2⟩
  decide +kernel

end SubtermIndex.Indexer
