/-
# `SubtermIndex.Proofs.Attempts` — calls that fail leave no trace

Calls are programs that write to one memory, and nothing takes back what a failed one has written.
Yet each of them performs its function of the index as if it were one step (`Change.attempted`): a
call that fails has written only to the draft, which the next call throws away.

A run of calls therefore depends on the index it begins with and not on the draft
(`attemptAll_sublist`), and any failed calls may be left out of it: all other calls answer the
same and leave the same index (`attemptAll_without_failures`).  Which of the failed calls are left
out does not matter, since one that is kept fails again and changes nothing again.
-/
import SubtermIndex.Indexer.Attempts
import SubtermIndex.Sample.Spelling
import SubtermIndex.Proofs.Indexer.InPlace

namespace SubtermIndex

/-! ## One call -/

namespace Change

/-- A call as one step on an index. -/
def attempted (change : Change) (m : Index) : Attempt :=
  match change.perform m with
  | .ok (answer, m') => ⟨change, m, .ok answer, m'⟩
  | .error failure => ⟨change, m, .error failure, m⟩

theorem perform_insertShared {N : Type} (ix : Indexer N) (root : N) (poisoned : Bool) :
    (insertShared ix root poisoned).perform = (insert ix root).perform := by
  funext m
  rw [perform, perform, SharedIndex.insert_eq]
  cases ix.insert root m <;> rfl

theorem performs_routine (change : Change) : Memory.Performs change.routine change.perform := by
  cases change with
  | insert ix root => exact ix.performs_insertInPlace root
  | insertSplit ix root => exact ix.performs_insertSplitInPlace root
  | insertShared ix root poisoned =>
      rw [perform_insertShared]
      exact ix.performs_insertInPlace root
  | merge incoming =>
      intro mem
      show mem.index.Ends (EStateM.run (Memory.onIndex (Index.mergeInPlace incoming) >>= _) mem) _
      rw [EStateM.run_bind, Memory.run_onIndex_mergeInPlace, perform]
      cases mem.index.merge incoming with
      | error h => exact .error rfl
      | ok merged => exact .ok

end Change

namespace Memory

/-- An attempt is the one step on the index, whatever the draft is. -/
theorem attempt_eq (mem : Memory) (change : Change) :
    (mem.attempt change).1 = change.attempted mem.index ∧
      (mem.attempt change).2.index = (mem.attempt change).1.after := by
  have ends := change.performs_routine mem
  rw [attempt, Change.attempted]
  generalize change.routine.run mem = result at ends ⊢
  generalize change.perform mem.index = performed at ends ⊢
  cases ends with
  | ok => exact ⟨rfl, rfl⟩
  | error same => exact ⟨congrArg (Attempt.mk change mem.index _) same, rfl⟩

end Memory

theorem Change.after_attempted {change : Change} {m : Index}
    (failed : (change.attempted m).succeeded = false) : (change.attempted m).after = m := by
  rw [attempted] at failed ⊢
  cases performed : change.perform m with
  | error failure => rfl
  | ok done => simp [performed, Attempt.succeeded, Except.toBool] at failed

/-! ## A run of calls -/

namespace Memory

theorem change_attempt (mem : Memory) (change : Change) :
    (mem.attempt change).1.change = change := by
  rw [(mem.attempt_eq change).1, Change.attempted]
  cases change.perform mem.index <;> rfl

theorem before_attempt (mem : Memory) (change : Change) :
    (mem.attempt change).1.before = mem.index := by
  rw [(mem.attempt_eq change).1, Change.attempted]
  cases change.perform mem.index <;> rfl

theorem attempted_of_mem {mem : Memory} {calls : List Change} {a : Attempt}
    (ha : a ∈ (mem.attemptAll calls).1) : a = a.change.attempted a.before := by
  induction calls generalizing mem with
  | nil => exact absurd ha List.not_mem_nil
  | cons change rest ih =>
      rcases List.mem_cons.mp ha with rfl | later
      · rw [change_attempt, before_attempt]
        exact (mem.attempt_eq change).1
      · exact ih later

/-- What a run answers and leaves in the index does not depend on the draft it begins with, and
calls that fail may be left out. -/
theorem attemptAll_sublist {mem mem' : Memory} {calls : List Change} {kept : List Attempt}
    (same : mem'.index = mem.index) (sub : kept.Sublist (mem.attemptAll calls).1)
    (all : kept.filter Attempt.succeeded = (mem.attemptAll calls).1.filter Attempt.succeeded) :
    (mem'.attemptAll (kept.map Attempt.change)).1 = kept ∧
      (mem'.attemptAll (kept.map Attempt.change)).2.index = (mem.attemptAll calls).2.index := by
  induction calls generalizing mem mem' kept with
  | nil =>
      obtain rfl := List.sublist_nil.mp sub
      exact ⟨rfl, same⟩
  | cons change rest ih =>
      have first := mem.attempt_eq change
      have first' := mem'.attempt_eq change
      have attempts : (mem'.attempt change).1 = (mem.attempt change).1 := by
        rw [first.1, first'.1, same]
      cases sub with
      | cons _ others =>
          -- the first call is left out, so it has failed
          have failed : (mem.attempt change).1.succeeded = false := by
            by_contra succeeded
            have fewer := (others.filter Attempt.succeeded).length_le
            rw [all, attemptAll, List.filter_cons_of_pos (by simpa using succeeded),
              List.length_cons] at fewer
            omega
          have unchanged : mem'.index = (mem.attempt change).2.index := by
            rw [first.2, first.1, Change.after_attempted (first.1 ▸ failed), same]
          refine ih unchanged others ?_
          rw [all, attemptAll, List.filter_cons_of_neg (by simp [failed])]
      | @cons_cons kept _ _ others =>
          -- the first call is kept, and it answers the same on the same index
          have unchanged : (mem'.attempt change).2.index = (mem.attempt change).2.index := by
            rw [first.2, first'.2, attempts]
          have all : kept.filter Attempt.succeeded =
              ((mem.attempt change).2.attemptAll rest).1.filter Attempt.succeeded := by
            rw [attemptAll, List.filter_cons, List.filter_cons] at all
            split at all
            · exact (List.cons.inj all).2
            · exact all
          have rest := ih unchanged others all
          rw [List.map_cons, change_attempt, attemptAll]
          exact ⟨congrArg₂ List.cons attempts rest.1, rest.2⟩

/-- Calls that fail leave no trace.  Every call of a run does what its function says of the index
that it finds; if it fails, it leaves all three maps as they were; and whichever of the failed
calls are left out of the run, all other calls, those that fail included, find the same index,
answer the same and leave the same index. -/
theorem attemptAll_without_failures (mem : Memory) (calls : List Change) :
    (∀ a ∈ (mem.attemptAll calls).1, a = a.change.attempted a.before) ∧
      (∀ a ∈ (mem.attemptAll calls).1, a.succeeded = false → a.after = a.before) ∧
      ∀ kept : List Attempt, kept.Sublist (mem.attemptAll calls).1 →
        kept.filter Attempt.succeeded = (mem.attemptAll calls).1.filter Attempt.succeeded →
        ∀ mem' : Memory, mem'.index = mem.index →
          (mem'.attemptAll (kept.map Attempt.change)).1 = kept ∧
            (mem'.attemptAll (kept.map Attempt.change)).2.index =
              (mem.attemptAll calls).2.index := by
  refine ⟨?_, ?_, ?_⟩
  · intro a ha
    exact attempted_of_mem ha
  · intro a ha failed
    have performed := attempted_of_mem ha
    have unchanged : (a.change.attempted a.before).after = a.before :=
      Change.after_attempted (by rwa [← performed])
    rwa [← performed] at unchanged
  · intro kept sub all mem' same
    exact attemptAll_sublist same sub all

/-! ## Four calls, of which two fail -/

end Memory

namespace Sample.Spelling

def changes : List Change :=
  [.insert indexer 0, .insertShared indexer 3 true, .insertSplit { indexer with maxDepth := 0 } 0,
    .insertSplit indexer 2]

end Sample.Spelling

namespace Memory

open Sample in
/-- The second call is left out, and the third one is not. -/
theorem attemptAll_without_failures_spelling :
    ∃ a b c d, ((ofIndex ∅).attemptAll Spelling.changes).1 = [a, b, c, d] ∧
      [a, b, c, d].map Attempt.succeeded = [true, false, false, true] ∧
      b.after = b.before ∧
      ((ofIndex ∅).attemptAll ([a, c, d].map Attempt.change)).1 = [a, c, d] ∧
      ((ofIndex ∅).attemptAll ([a, c, d].map Attempt.change)).2.index =
        ((ofIndex ∅).attemptAll Spelling.changes).2.index := by
  have pattern : ((ofIndex ∅).attemptAll Spelling.changes).1.map Attempt.succeeded =
      [true, false, false, true] := by decide +kernel
  obtain ⟨a, _, log, ha, pattern'⟩ := List.map_eq_cons_iff.mp pattern
  obtain ⟨b, _, rfl, hb, pattern'⟩ := List.map_eq_cons_iff.mp pattern'
  obtain ⟨c, _, rfl, hc, pattern'⟩ := List.map_eq_cons_iff.mp pattern'
  obtain ⟨d, _, rfl, hd, pattern'⟩ := List.map_eq_cons_iff.mp pattern'
  obtain rfl := List.map_eq_nil_iff.mp pattern'
  obtain ⟨-, unchanged, skips⟩ := attemptAll_without_failures (ofIndex ∅) Spelling.changes
  rw [log] at unchanged skips pattern
  refine ⟨a, b, c, d, log, pattern, ?_, ?_⟩
  · exact unchanged b (by simp) hb
  · refine skips [a, c, d] ?_ ?_ (ofIndex ∅) rfl
    · exact .cons_cons _ (.cons _ (List.Sublist.refl _))
    · simp [ha, hb, hc, hd]

end Memory

end SubtermIndex
