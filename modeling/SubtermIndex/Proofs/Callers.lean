/-
# `SubtermIndex.Proofs.Callers` — concurrent calls are answered as if made one at a time

Whatever the schedule, the log of the answered calls explains all answers and the contents: every
call has been answered as an index of one's own would have answered it after the calls that stand
before it in the log (`Callers.linearized_run`).

An insertion takes two steps, between which others may merge.  It counts for one at the time of
its last step, because the walk reads nothing of what is shared: what a caller has walked is what
it would walk now (`Caller.Honest`).  A walk that fails never comes to the lock, and could as well
have failed at any other time.

The proof is by one step.  A step does nothing, walks a tree, or answers a call as if nobody else
were there (`Turn`), and each of these keeps what the log explains (`Linearized.turn`).  It also
brings the end of its caller nearer and no other end farther away (`Turn.pending`), so that a
caller with enough turns is answered whatever the others do.
-/
import SubtermIndex.Indexer.Callers
import SubtermIndex.Sample.Spelling
import SubtermIndex.Proofs.Lists
import Mathlib.Data.List.Basic

namespace SubtermIndex

/-! ## Calls one at a time -/

def Answer.isPanic : Answer → Bool
  | .panicked => true
  | _ => false

namespace Index

/-- Makes a call on an index that is not shared.  Only an insertion that succeeds changes it. -/
def perform (m : Index) : Call → Answer × Index
  | .insert ix root =>
      match ix.insert root m with
      | .ok d => (.inserted (.ok d.root), d.index)
      | .error failure => (.inserted (.error failure.toError), m)
  | .look look =>
      match look m with
      | some result => (.looked result, m)
      | none => (.panicked, m)
  | .snapshot => (.snapshot m, m)
  | .stats => (.stats m.stats, m)

def after (m : Index) (calls : List Call) : Index :=
  calls.foldl (fun m call => (m.perform call).2) m

theorem after_append (m : Index) (calls : List Call) (call : Call) :
    m.after (calls ++ [call]) = ((m.after calls).perform call).2 := by
  rw [after, List.foldl_append]
  rfl

end Index

namespace SharedIndex

variable {N : Type} {ix : Indexer N} {root : N} {s : SharedIndex}

/-- Once the tree is walked, the call is the merge. -/
theorem perform_of_walk_ok {walked : NodeHash × Index} (h : ix.walk root .root = .ok walked) :
    s.perform (.insert ix root) = s.afterMerge (s.mergeWalked walked) := by
  rw [perform, insert, h]
  rfl

/-- A walk that fails is the whole call. -/
theorem perform_of_walk_error {failure : Failure} (h : ix.walk root .root = .error failure) :
    s.perform (.insert ix root) = (.inserted (.error failure.toError), s) := by
  rw [perform, insert, h]
  rfl

/-- A call on what is shared is the call on the contents, and a panic poisons the lock. -/
theorem perform_eq (s : SharedIndex) (call : Call) :
    s.perform call = ((s.contents.perform call).1,
      { contents := (s.contents.perform call).2
        poisoned := s.poisoned || (s.contents.perform call).1.isPanic }) := by
  cases call with
  | insert ix root =>
      rw [perform, insert_eq, Index.perform]
      cases ix.insert root s.contents with
      | error failure => simp [Except.map, afterMerge, Answer.isPanic]
      | ok d => simp [Except.map, afterMerge, Answer.isPanic]
  | look look =>
      rw [perform, SharedIndex.look, Index.perform]
      cases look s.contents with
      | none => simp [poison, Answer.isPanic]
      | some result => simp [Answer.isPanic]
  | snapshot => simp [perform, snapshot, Index.perform, Answer.isPanic]
  | stats => simp [perform, stats, Index.perform, Answer.isPanic]

end SharedIndex

/-! ## One step -/

def Caller.Honest (caller : Caller) : Prop :=
  ∀ walked, caller.walked? = some walked → ∃ (N : Type) (ix : Indexer N) (root : N)
    (rest : List Call), caller.calls = .insert ix root :: rest ∧ ix.walk root .root = .ok walked

namespace Callers

def Honest (c : Callers) : Prop :=
  ∀ (i : Nat) (caller : Caller), c.callers[i]? = some caller → caller.Honest

def remaining (c : Callers) (i : Nat) : List Call :=
  (c.callers[i]?.map Caller.calls).getD []

/-- What one step of the caller at place `i` can come to. -/
inductive Turn (c : Callers) (i : Nat) : Callers → Prop
  | idle : c.remaining i = [] → Turn c i c
  | walk {N : Type} {ix : Indexer N} {root : N} {rest : List Call} {walked : NodeHash × Index} :
      c.callers[i]? = some { calls := .insert ix root :: rest } →
      ix.walk root .root = .ok walked →
      Turn c i { c with
        callers := c.callers.set i { calls := .insert ix root :: rest, walked? := some walked } }
  | reply {caller : Caller} {call : Call} {rest : List Call} :
      c.callers[i]? = some caller → caller.calls = call :: rest →
      Turn c i (c.reply i call rest (c.shared.perform call))

/-- A step does nothing, walks a tree, or answers a call as if nobody else were there. -/
theorem turn_act {c : Callers} (hc : c.Honest) (i : Nat) : c.Turn i (c.act i) := by
  rw [act]
  cases place : c.callers[i]? with
  | none => exact .idle (by rw [remaining, place]; rfl)
  | some caller =>
      obtain ⟨calls, walked?⟩ := caller
      rcases calls with _ | ⟨call, rest⟩
      · exact .idle (by rw [remaining, place]; rfl)
      · cases call with
        | insert ix root =>
            cases walked? with
            | some walked =>
                -- what was walked is merged now, as if it were walked and merged at once
                obtain ⟨_, _, _, _, same, found⟩ := hc i _ place walked rfl
                cases same
                have turn : c.Turn i (c.reply i _ rest _) := .reply place rfl
                rw [SharedIndex.perform_of_walk_ok found] at turn
                exact turn
            | none =>
                cases found : ix.walk root .root with
                | ok walked =>
                    simp only [found]
                    exact .walk place found
                | error failure =>
                    have turn : c.Turn i (c.reply i (.insert ix root) rest _) := .reply place rfl
                    rw [SharedIndex.perform_of_walk_error found] at turn
                    simp only [found]
                    exact turn
        | look look => exact .reply place rfl
        | snapshot => exact .reply place rfl
        | stats => exact .reply place rfl

section Step

variable {c c' : Callers} {i : Nat}

@[simp] theorem history_reply (call : Call) (rest : List Call) (done : Answer × SharedIndex) :
    (c.reply i call rest done).history = c.history ++ [⟨i, call, done.1⟩] :=
  List.reverse_cons

theorem Turn.honest (h : c.Turn i c') (hc : c.Honest) : c'.Honest := by
  cases h with
  | idle => exact hc
  | walk place found =>
      intro j caller there
      rw [getElem?_set_eq place] at there
      split at there
      · cases there
        intro walked same
        cases same
        exact ⟨_, _, _, _, rfl, found⟩
      · exact hc j caller there
  | reply place _ =>
      intro j caller there
      rw [Callers.reply, getElem?_set_eq place] at there
      split at there
      · cases there
        intro walked same
        cases same
      · exact hc j caller there

/-- A step changes what is shared only by answering a call, and then logs it. -/
theorem Turn.history_cases (h : c.Turn i c') :
    c'.history = c.history ∧ c'.shared = c.shared ∨
      ∃ call, c'.history = c.history ++ [⟨i, call, (c.shared.perform call).1⟩] ∧
        c'.shared = (c.shared.perform call).2 := by
  cases h with
  | idle => exact .inl ⟨rfl, rfl⟩
  | walk => exact .inl ⟨rfl, rfl⟩
  | @reply _ call => exact .inr ⟨call, history_reply .., rfl⟩

end Step

/-! ## What the log explains -/

def answered (c : Callers) (i : Nat) : List Call :=
  (c.history.filter fun a => a.caller = i).map (·.call)

/-- Whether what `calls` have come to is explained by the log of the answered ones, as calls that
are made one at a time on the contents of `s`. -/
structure Linearized (s : SharedIndex) (calls : List (List Call)) (c : Callers) : Prop where
  /-- The contents are those after the answered calls. -/
  contents : c.shared.contents = s.contents.after (c.history.map (·.call))
  /-- Every call has the answer that it gets after the calls that were answered before. -/
  answer : ∀ before a later, c.history = before ++ a :: later →
    a.answer = ((s.contents.after (before.map (·.call))).perform a.call).1
  /-- No call is lost or made twice: every caller's calls are answered in order, and those that
  are not answered remain. -/
  inOrder : ∀ i, c.answered i ++ c.remaining i = (calls[i]?).getD []
  /-- The lock is poisoned by panics and by nothing else. -/
  poisoned : c.shared.poisoned = true ↔
    s.poisoned = true ∨ ∃ a ∈ c.history, a.answer.isPanic = true

theorem linearized_ofCalls (s : SharedIndex) (calls : List (List Call)) :
    Linearized s calls (ofCalls s calls) where
  contents := rfl
  answer before a later none := by
    have : before ++ a :: later = [] := none.symm
    simp at this
  inOrder i := by
    show remaining (ofCalls s calls) i = _
    rw [remaining, ofCalls, List.getElem?_map, Option.map_map]
    cases calls[i]? <;> rfl
  poisoned := by
    constructor
    · exact .inl
    · rintro (before | ⟨a, none, -⟩)
      · exact before
      · cases none

theorem honest_ofCalls (s : SharedIndex) (calls : List (List Call)) :
    (ofCalls s calls).Honest := by
  intro i caller there walked same
  rw [ofCalls, List.getElem?_map, Option.map_eq_some_iff] at there
  obtain ⟨_, -, rfl⟩ := there
  cases same

section Step

variable {c c' : Callers} {i : Nat}

theorem Turn.inOrder (h : c.Turn i c') (j : Nat) :
    c'.answered j ++ c'.remaining j = c.answered j ++ c.remaining j := by
  cases h with
  | idle => rfl
  | walk place =>
      refine congrArg (c.answered j ++ ·) ?_
      rw [remaining, remaining, getElem?_set_eq place]
      split
      case isTrue same =>
        subst same
        rw [place]
        rfl
      case isFalse => rfl
  | @reply caller call rest place first =>
      rw [answered, history_reply, List.filter_append, List.map_append, remaining,
        Callers.reply, getElem?_set_eq place, remaining]
      by_cases same : i = j
      · subst same
        rw [place]
        simp [answered, first]
      · simp [answered, same]

theorem Linearized.turn {s : SharedIndex} {calls : List (List Call)} (hc : Linearized s calls c)
    (h : c.Turn i c') : Linearized s calls c' := by
  have inOrder (j : Nat) := (h.inOrder j).trans (hc.inOrder j)
  rcases h.history_cases with ⟨log, shared⟩ | ⟨call, log, shared⟩
  · refine ⟨?_, ?_, inOrder, ?_⟩
    · rw [shared, log]
      exact hc.contents
    · rw [log]
      exact hc.answer
    · rw [shared, log]
      exact hc.poisoned
  · rw [SharedIndex.perform_eq] at log shared
    refine ⟨?_, ?_, inOrder, ?_⟩
    · rw [shared, log, List.map_append, List.map_singleton, Index.after_append, ← hc.contents]
    · intro before a later split
      rw [log] at split
      rcases List.eq_nil_or_concat later with rfl | ⟨later, last, rfl⟩
      · obtain ⟨rfl, last⟩ := List.append_inj' split rfl
        cases last
        rw [← hc.contents]
      · rw [List.concat_eq_append, ← List.cons_append, ← List.append_assoc] at split
        exact hc.answer before a later (List.append_inj' split rfl).1
    · rw [shared, log, Bool.or_eq_true, hc.poisoned, or_assoc]
      simp only [List.mem_append, List.mem_singleton, or_and_right, exists_or, exists_eq_left]

end Step

/-! ## How many steps are left -/

def pending (c : Callers) (i : Nat) : Nat :=
  match c.callers[i]? with
  | none => 0
  | some caller => 2 * caller.calls.length - if caller.walked?.isSome then 1 else 0

theorem remaining_eq_nil {c : Callers} {i : Nat} (h : c.pending i = 0) : c.remaining i = [] := by
  rw [pending] at h
  rw [remaining]
  cases place : c.callers[i]? with
  | none => rfl
  | some caller =>
      simp only [place] at h
      show caller.calls = []
      rw [← List.length_eq_zero_iff]
      split at h <;> omega

/-- A step of a caller that has something to do brings its end nearer, and no other's farther
away. -/
theorem Turn.pending {c c' : Callers} {i : Nat} (h : c.Turn i c') (j : Nat) :
    c'.pending j ≤ c.pending j - if i = j then 1 else 0 := by
  cases h with
  | idle nothing =>
      split
      case isFalse => exact Nat.le_refl _
      case isTrue same =>
        subst same
        rw [Callers.pending]
        rw [remaining] at nothing
        cases place : c.callers[i]? with
        | none => exact Nat.zero_le _
        | some caller =>
            have none : caller.calls = [] := by simpa [place] using nothing
            simp [none]
  | walk place =>
      -- an insertion takes two steps, and this is the first one
      rw [Callers.pending, Callers.pending, getElem?_set_eq place]
      by_cases same : i = j
      · subst same
        simp [place]
      · simp [same]
  | @reply caller call rest place first =>
      rw [Callers.pending, Callers.pending, Callers.reply, getElem?_set_eq place]
      by_cases same : i = j
      · subst same
        have one : (if caller.walked?.isSome then 1 else 0) ≤ 1 := by split <;> decide
        simp only [if_true, place, first, List.length_cons, Option.isSome_none,
          Bool.false_eq_true, if_false]
        omega
      · simp [same]

/-! ## Schedules -/

theorem run_append (c : Callers) (earlier later : List Nat) :
    c.run (earlier ++ later) = (c.run earlier).run later :=
  List.foldl_append

theorem Honest.run {c : Callers} (hc : c.Honest) (schedule : List Nat) :
    (c.run schedule).Honest := by
  induction schedule generalizing c with
  | nil => exact hc
  | cons i rest ih => exact ih ((turn_act hc i).honest hc)

theorem Linearized.run {s : SharedIndex} {calls : List (List Call)} {c : Callers}
    (hc : Linearized s calls c) (honest : c.Honest) (schedule : List Nat) :
    Linearized s calls (c.run schedule) := by
  induction schedule generalizing c with
  | nil => exact hc
  | cons i rest ih =>
      have turn := turn_act honest i
      exact ih (hc.turn turn) (turn.honest honest)

theorem history_prefix_run {c : Callers} (honest : c.Honest) (schedule : List Nat) :
    c.history <+: (c.run schedule).history := by
  induction schedule generalizing c with
  | nil => exact List.prefix_refl _
  | cons i rest ih =>
      have turn := turn_act honest i
      refine List.IsPrefix.trans ?_ (ih (turn.honest honest))
      rcases turn.history_cases with ⟨log, -⟩ | ⟨call, log, -⟩
      · exact log ▸ List.prefix_rfl
      · rw [log]
        exact List.prefix_append _ _

theorem pending_run {c : Callers} (honest : c.Honest) (schedule : List Nat) (i : Nat) :
    (c.run schedule).pending i ≤ c.pending i - schedule.count i := by
  induction schedule generalizing c with
  | nil => exact Nat.le_refl _
  | cons j rest ih =>
      have turn := turn_act honest j
      have later := ih (turn.honest honest)
      have first := turn.pending i
      rw [List.count_cons]
      simp only [beq_iff_eq]
      show ((c.act j).run rest).pending i ≤ _
      omega

theorem pending_ofCalls (s : SharedIndex) (calls : List (List Call)) (i : Nat) :
    (ofCalls s calls).pending i = 2 * ((calls[i]?).getD []).length := by
  rw [pending, ofCalls, List.getElem?_map]
  cases calls[i]? <;> rfl

/-- Under every schedule, the log explains what the calls have come to.  What is answered at some
time stays answered.  And a caller that gets two turns for each of its calls has all of them
answered, whoever panics or fails. -/
theorem linearized_run (s : SharedIndex) (calls : List (List Call)) (schedule : List Nat) :
    Linearized s calls ((ofCalls s calls).run schedule) ∧
      (∀ earlier later, schedule = earlier ++ later →
        ((ofCalls s calls).run earlier).history <+: ((ofCalls s calls).run schedule).history) ∧
      ∀ i, 2 * ((calls[i]?).getD []).length ≤ schedule.count i →
        ((ofCalls s calls).run schedule).remaining i = [] := by
  have honest := honest_ofCalls s calls
  refine ⟨(linearized_ofCalls s calls).run honest schedule, ?_, ?_⟩
  · rintro earlier later rfl
    rw [run_append]
    exact history_prefix_run (honest.run earlier) later
  · intro i turns
    have fewer := pending_run honest schedule i
    rw [pending_ofCalls] at fewer
    exact remaining_eq_nil (by omega)

open Sample in
/-- Two callers that insert trees which collide.  One of them takes a snapshot next, the other one
panics. -/
def rivals : List (List Call) :=
  [[.insert Spelling.indexer 0, .snapshot],
    [.insert Spelling.indexer 3, .look fun _ => (none : Option Unit)]]

/-- The tree that was walked first may lose: it is merged second, and fails. -/
theorem linearized_run_rivals :
    Linearized .empty rivals ((ofCalls .empty rivals).run [0, 1, 1, 0, 1, 0, 0, 1]) ∧
      ((ofCalls .empty rivals).run [0, 1, 1, 0, 1, 0, 0, 1]).history.map (·.caller) =
        [1, 0, 1, 0] ∧
      ∀ i < 2, ((ofCalls .empty rivals).run [0, 1, 1, 0, 1, 0, 0, 1]).remaining i = [] := by
  obtain ⟨explained, -, done⟩ := linearized_run .empty rivals [0, 1, 1, 0, 1, 0, 0, 1]
  refine ⟨explained, by decide +kernel, ?_⟩
  intro i hi
  refine done i ?_
  revert i
  decide

end Callers

end SubtermIndex
