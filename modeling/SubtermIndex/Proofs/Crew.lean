/-
# `SubtermIndex.Proofs.Crew` — who does which job, and when, does not matter

Whatever the schedule, the jobs are begun one by one in their order, each by one worker and once
(`Crew.begun_ofSize`).  When all workers have retired, the answers are those of the jobs, in the
order of the jobs (`Crew.answers_of_isDone`).  And every worker retires if it gets turns enough
(`Crew.isDone_of_turns`).

What carries the answers is that a job counts from the moment its number is drawn: the answers
that the workers hold, together with those that they will give to what they have in hand, are the
answers of the first jobs, as many as have been drawn (`Crew.OnTrack`).  Beyond the last job a
number is drawn only by a worker that retires, so that the counter tells how many have retired.

The answers come in some order, by worker and not by job.  They are put in order by their numbers,
which are all different, and that leaves only one order (`mergeSort_eq_of_perm`).
-/
import SubtermIndex.Crew
import SubtermIndex.Proofs.Lists
import Mathlib.Data.List.Perm.Basic
import Mathlib.Data.List.Nodup

namespace SubtermIndex

def Activity.number? {α : Type} : Activity α → Option Nat
  | busy number _ => some number
  | _ => none

/-- The most turns that whoever is at this still needs when there are `left` jobs that nobody has
begun: two for every job, and one to retire. -/
def Activity.turnsLeft {α : Type} (left : Nat) : Activity α → Nat
  | idle => 2 * left + 1
  | busy _ _ => 2 * left + 2
  | retired => 0

theorem Activity.turnsLeft_mono {α : Type} (activity : Activity α) {left left' : Nat}
    (le : left ≤ left') : activity.turnsLeft left ≤ activity.turnsLeft left' := by
  cases activity with
  | idle =>
      simp only [turnsLeft]
      omega
  | busy number job =>
      simp only [turnsLeft]
      omega
  | retired => exact Nat.le_refl _

namespace Worker

variable {α β : Type}

/-- The answers of a worker, with the one that it will give to the job in hand. -/
def claimed (work : α → β) (worker : Worker α β) : List (Nat × β) :=
  match worker.activity with
  | .busy number job => (number, work job) :: worker.answers
  | _ => worker.answers

end Worker

namespace Crew

variable {α β : Type} {jobs : List α} {work : α → β}

/-! ## One turn

A turn does one of four things (`Turn`), and everything below is proved of each of them. -/

inductive Turn (jobs : List α) (work : α → β) (crew : Crew α β) (i : Nat) : Crew α β → Prop
  | nothing : (∀ worker, crew.workers[i]? = some worker → worker.activity = .retired) →
      Turn jobs work crew i crew
  | begins {answers : List (Nat × β)} {job : α} :
      crew.workers[i]? = some ⟨.idle, answers⟩ → jobs[crew.counter]? = some job →
      Turn jobs work crew i
        ⟨crew.counter + 1, crew.workers.set i ⟨.busy crew.counter job, answers⟩⟩
  | retires {answers : List (Nat × β)} :
      crew.workers[i]? = some ⟨.idle, answers⟩ → jobs.length ≤ crew.counter →
      Turn jobs work crew i ⟨crew.counter + 1, crew.workers.set i ⟨.retired, answers⟩⟩
  | answers {number : Nat} {job : α} {answers : List (Nat × β)} :
      crew.workers[i]? = some ⟨.busy number job, answers⟩ →
      Turn jobs work crew i
        ⟨crew.counter, crew.workers.set i ⟨.idle, (number, work job) :: answers⟩⟩

theorem turn_act (crew : Crew α β) (i : Nat) : Turn jobs work crew i (act jobs work crew i) := by
  rw [act]
  cases place : crew.workers[i]? with
  | none => exact .nothing (by simp [place])
  | some worker =>
      obtain ⟨activity, answers⟩ := worker
      cases activity with
      | retired => exact .nothing (by simp [place])
      | busy number job => exact .answers place
      | idle =>
          cases next : jobs[crew.counter]? with
          | none => exact .retires place (List.getElem?_eq_none_iff.mp next)
          | some job => exact .begins place next

/-! ## The jobs in the order of time -/

def inHand? (crew : Crew α β) (i : Nat) : Option Nat :=
  crew.workers[i]?.bind fun worker => worker.activity.number?

/-- The jobs that are begun under a schedule, by their numbers and in order of time.  What a worker
has in hand after its turn it has begun in that turn, for what it had in hand before is done. -/
def begun (jobs : List α) (work : α → β) (crew : Crew α β) : (schedule : List Nat) → List Nat
  | [] => []
  | i :: rest =>
      let next := act jobs work crew i
      (next.inHand? i).toList ++ begun jobs work next rest

variable {crew next : Crew α β} {i : Nat}

theorem inHand?_set {worker : Worker α β} {counter : Nat} {workers : List (Worker α β)}
    (inside : i < workers.length) :
    (Crew.mk counter (workers.set i worker)).inHand? i = worker.activity.number? := by
  rw [inHand?, List.getElem?_set_self inside]
  rfl

theorem Turn.range_append (turn : Turn jobs work crew i next) :
    List.range (min crew.counter jobs.length) ++ (next.inHand? i).toList =
      List.range (min next.counter jobs.length) := by
  cases turn with
  | nothing retired =>
      have none : crew.inHand? i = none := by
        rw [inHand?]
        cases place : crew.workers[i]? with
        | none => rfl
        | some worker =>
            rw [Option.bind_some, retired worker place]
            rfl
      rw [none, Option.toList_none, List.append_nil]
  | begins place job =>
      have counted := (List.getElem?_eq_some_iff.mp job).1
      have counted' : crew.counter + 1 ≤ jobs.length := counted
      rw [inHand?_set (List.getElem?_eq_some_iff.mp place).1,
        Nat.min_eq_left (Nat.le_of_lt counted), Nat.min_eq_left counted', List.range_succ]
      rfl
  | retires place beyond =>
      rw [inHand?_set (List.getElem?_eq_some_iff.mp place).1, Nat.min_eq_right beyond,
        Nat.min_eq_right (Nat.le_succ_of_le beyond)]
      exact List.append_nil _
  | answers place =>
      rw [inHand?_set (List.getElem?_eq_some_iff.mp place).1]
      exact List.append_nil _

theorem range_append_begun (crew : Crew α β) (schedule : List Nat) :
    List.range (min crew.counter jobs.length) ++ begun jobs work crew schedule =
      List.range (min (run jobs work schedule crew).counter jobs.length) := by
  induction schedule generalizing crew with
  | nil => exact List.append_nil _
  | cons i rest ih =>
      rw [begun, ← List.append_assoc, (turn_act crew i).range_append]
      exact ih (act jobs work crew i)

/-- The jobs are begun in their order, each of them once. -/
theorem begun_ofSize (size : Nat) (schedule : List Nat) :
    begun jobs work (ofSize size) schedule =
      List.range (min (run jobs work schedule (ofSize size)).counter jobs.length) := by
  rw [← range_append_begun]
  show _ = List.range (min 0 jobs.length) ++ _
  rw [Nat.zero_min]
  rfl

/-! ## The answers -/

def expected (jobs : List α) (work : α → β) : List (Nat × β) :=
  (List.range jobs.length).zip (jobs.map work)

@[simp] theorem length_expected : (expected jobs work).length = jobs.length := by
  simp [expected]

theorem expected_getElem? {n : Nat} {job : α} (place : jobs[n]? = some job) :
    (expected jobs work)[n]? = some (n, work job) := by
  have inside := (List.getElem?_eq_some_iff.mp place).1
  simp [expected, List.getElem?_zip_eq_some, List.getElem?_range inside, place]

theorem map_fst_expected : (expected jobs work).map Prod.fst = List.range jobs.length :=
  List.map_fst_zip (by simp)

theorem map_snd_expected : (expected jobs work).map Prod.snd = jobs.map work :=
  List.map_snd_zip (by simp)

/-- Whether a crew has drawn the numbers up to its counter, and has lost or changed nothing. -/
structure OnTrack (jobs : List α) (work : α → β) (crew : Crew α β) : Prop where
  /-- Every number drawn so far is with one worker, which has answered it or will. -/
  claimed : (crew.workers.flatMap (Worker.claimed work)).Perm
    ((expected jobs work).take crew.counter)
  /-- Every worker that has retired has drawn one number too many. -/
  retired : crew.workers.countP (fun worker => worker.activity.isRetired) =
    crew.counter - jobs.length

theorem onTrack_ofSize (size : Nat) : OnTrack jobs work (ofSize size) where
  claimed := by
    have idle : ∀ worker ∈ List.replicate size ({} : Worker α β), worker.claimed work = [] := by
      intro worker mem
      rw [List.eq_of_mem_replicate mem]
      rfl
    rw [ofSize, List.flatMap_eq_nil_iff.mpr idle]
    rfl
  retired := by
    rw [ofSize, Nat.zero_sub, List.countP_eq_zero]
    intro worker mem
    rw [List.eq_of_mem_replicate mem]
    exact Bool.false_ne_true

theorem perm_flatMap_set {γ δ : Type} {cs : List γ} {c d : γ} {f : γ → List δ} {more : List δ}
    (place : cs[i]? = some c) (grows : (f d).Perm (f c ++ more)) :
    ((cs.set i d).flatMap f).Perm (cs.flatMap f ++ more) := by
  obtain ⟨before, after, rfl, set⟩ := exists_set_eq place
  rw [set, List.flatMap_append, List.flatMap_append, List.flatMap_cons, List.flatMap_cons,
    List.append_assoc, List.append_assoc]
  refine List.Perm.append_left _ ((grows.append_right _).trans ?_)
  rw [List.append_assoc]
  exact List.perm_append_comm.append_left _

theorem flatMap_set_eq {γ δ : Type} {cs : List γ} {c d : γ} {f : γ → List δ}
    (place : cs[i]? = some c) (same : f d = f c) : (cs.set i d).flatMap f = cs.flatMap f := by
  obtain ⟨before, after, rfl, set⟩ := exists_set_eq place
  rw [set, List.flatMap_append, List.flatMap_append, List.flatMap_cons, List.flatMap_cons, same]

theorem countP_set_eq {γ : Type} {cs : List γ} {c d : γ} {p : γ → Bool}
    (place : cs[i]? = some c) (before : p c = false) :
    (cs.set i d).countP p = cs.countP p + if p d then 1 else 0 := by
  obtain ⟨front, back, rfl, set⟩ := exists_set_eq place
  rw [set, List.countP_append, List.countP_append, List.countP_cons, List.countP_cons, before]
  simp [Nat.add_assoc]

theorem Turn.onTrack (turn : Turn jobs work crew i next) (h : OnTrack jobs work crew) :
    OnTrack jobs work next := by
  cases turn with
  | nothing => exact h
  | @begins answers job place drawn =>
      have inside := (List.getElem?_eq_some_iff.mp drawn).1
      constructor
      -- the job counts as answered by the worker that has drawn its number
      · have new : ((expected jobs work).take crew.counter ++ [(crew.counter, work job)]) =
            (expected jobs work).take (crew.counter + 1) := by
          rw [List.take_add_one, expected_getElem? drawn]
          rfl
        have grows : (Worker.claimed work ⟨.busy crew.counter job, answers⟩).Perm
            (Worker.claimed work ⟨.idle, answers⟩ ++ [(crew.counter, work job)]) :=
          (List.perm_append_singleton _ _).symm
        exact (perm_flatMap_set place grows).trans ((h.claimed.append_right _).trans (.of_eq new))
      · rw [countP_set_eq place rfl, h.retired]
        show _ = crew.counter + 1 - jobs.length
        simp only [Activity.isRetired, Bool.false_eq_true, if_false]
        omega
  | @retires answers place beyond =>
      constructor
      · have all {count : Nat} (counted : jobs.length ≤ count) :
            (expected jobs work).take count = expected jobs work :=
          List.take_of_length_le (by rwa [length_expected])
        have before := h.claimed
        rw [all beyond] at before
        refine (List.Perm.of_eq (flatMap_set_eq place ?_)).trans (before.trans (.of_eq ?_))
        · rfl
        · exact (all (Nat.le_succ_of_le beyond)).symm
      · rw [countP_set_eq place rfl, h.retired]
        show _ = crew.counter + 1 - jobs.length
        simp only [Activity.isRetired, if_true]
        omega
  | @answers number job answers place =>
      constructor
      · refine (List.Perm.of_eq (flatMap_set_eq place ?_)).trans h.claimed
        rfl
      · rw [countP_set_eq place rfl, h.retired]
        rfl

theorem OnTrack.run (h : OnTrack jobs work crew) (schedule : List Nat) :
    OnTrack jobs work (run jobs work schedule crew) := by
  induction schedule generalizing crew with
  | nil => exact h
  | cons i rest ih => exact ih ((turn_act crew i).onTrack h)

theorem length_act (crew : Crew α β) (i : Nat) :
    (act jobs work crew i).workers.length = crew.workers.length := by
  have turn : Turn jobs work crew i (act jobs work crew i) := turn_act crew i
  generalize act jobs work crew i = next at turn
  cases turn with
  | nothing => rfl
  | begins => exact List.length_set
  | retires => exact List.length_set
  | answers => exact List.length_set

theorem length_run (crew : Crew α β) (schedule : List Nat) :
    (run jobs work schedule crew).workers.length = crew.workers.length := by
  induction schedule generalizing crew with
  | nil => rfl
  | cons i rest ih => exact (ih _).trans (length_act crew i)

theorem OnTrack.counter_eq (h : OnTrack jobs work crew) (done : crew.isDone = true) :
    crew.counter - jobs.length = crew.workers.length := by
  rw [← h.retired, List.countP_eq_length]
  exact List.all_eq_true.mp done

theorem OnTrack.perm_numbered (h : OnTrack jobs work crew) (done : crew.isDone = true)
    (drawn : jobs.length ≤ crew.counter) : crew.numbered.Perm (expected jobs work) := by
  have all := h.claimed
  rw [List.take_of_length_le (by rw [length_expected]; exact drawn)] at all
  refine List.Perm.trans (List.Perm.flatMap_left _ fun worker mem => ?_) all
  have retired := List.all_eq_true.mp done worker mem
  rw [Worker.claimed]
  cases activity : worker.activity with
  | retired => exact worker.answers.reverse_perm
  | idle => simp [activity, Activity.isRetired] at retired
  | busy number job => simp [activity, Activity.isRetired] at retired

theorem mergeSort_eq_of_perm {rows sorted : List (Nat × β)} (perm : rows.Perm sorted)
    (ascending : (sorted.map Prod.fst).Pairwise (· < ·)) :
    (rows.mergeSort fun a b => a.1 ≤ b.1) = sorted := by
  have less := List.pairwise_map.mp ascending
  have apart : ∀ a b, a ∈ sorted → b ∈ sorted → a.1 = b.1 → a = b := by
    intro a b ha hb same
    have nodup : (sorted.map Prod.fst).Nodup := ascending.imp Nat.ne_of_lt
    exact List.inj_on_of_nodup_map nodup ha hb same
  have perm' := (rows.mergeSort_perm fun a b => a.1 ≤ b.1).trans perm
  have unique : ∀ a b, a ∈ rows.mergeSort (fun a b => a.1 ≤ b.1) → b ∈ sorted →
      a.1 ≤ b.1 → b.1 ≤ a.1 → a = b := by
    intro a b ha hb le ge
    exact apart a b (perm'.subset ha) hb (Nat.le_antisymm le ge)
  refine List.Perm.eq_of_pairwise unique ?_ ?_ perm'
  · have sorts : (rows.mergeSort fun a b => decide (a.1 ≤ b.1)).Pairwise
        fun a b => decide (a.1 ≤ b.1) = true :=
      List.pairwise_mergeSort (fun a b c => by simpa using Nat.le_trans)
        (fun a b => by simpa using Nat.le_total a.1 b.1) rows
    simpa using sorts
  · exact less.imp Nat.le_of_lt

/-- When all workers of a crew have retired, nobody's answer is lost, given twice or moved. -/
theorem answers_of_isDone {size : Nat} (someone : 0 < size) {schedule : List Nat}
    (done : (run jobs work schedule (ofSize size)).isDone = true) :
    (run jobs work schedule (ofSize size)).counter = jobs.length + size ∧
      (run jobs work schedule (ofSize size)).answers = jobs.map work := by
  have start : OnTrack jobs work (ofSize size) := onTrack_ofSize size
  have track := start.run schedule
  have counter := track.counter_eq done
  rw [length_run, show (ofSize size : Crew α β).workers.length = size from
    List.length_replicate] at counter
  refine ⟨by omega, ?_⟩
  have ascending : ((expected jobs work).map Prod.fst).Pairwise (· < ·) := by
    rw [map_fst_expected]
    exact List.pairwise_lt_range
  rw [answers, mergeSort_eq_of_perm (track.perm_numbered done (by omega)) ascending,
    map_snd_expected]

/-! ## How many turns are left -/

def pending (jobs : List α) (crew : Crew α β) (i : Nat) : Nat :=
  match crew.workers[i]? with
  | none => 0
  | some worker => worker.activity.turnsLeft (jobs.length - crew.counter)

/-- A turn of a worker that has not retired brings its end nearer, and no other's farther away. -/
theorem Turn.pending (turn : Turn jobs work crew i next) (j : Nat) :
    next.pending jobs j ≤ crew.pending jobs j - if i = j then 1 else 0 := by
  -- a worker other than the one whose turn it is loses turns only if a job is drawn
  have others {worker : Worker α β} (j : Nat) {fewer : Nat} (ne : i ≠ j)
      (le : fewer ≤ jobs.length - crew.counter) :
      (match (crew.workers.set i worker)[j]? with
        | none => 0
        | some worker => worker.activity.turnsLeft fewer) ≤ crew.pending jobs j := by
    rw [Crew.pending, List.getElem?_set_ne ne]
    cases crew.workers[j]? with
    | none => exact Nat.le_refl _
    | some worker => exact worker.activity.turnsLeft_mono le
  by_cases same : i = j
  · subst same
    rw [if_pos rfl]
    cases turn with
    | nothing retired =>
        rw [Crew.pending]
        cases place : crew.workers[i]? with
        | none => exact Nat.zero_le _
        | some worker => simp [retired worker place, Activity.turnsLeft]
    | begins place drawn =>
        have counted := (List.getElem?_eq_some_iff.mp drawn).1
        simp only [Crew.pending, getElem?_set_eq place, if_true, place, Activity.turnsLeft]
        omega
    | retires place =>
        simp only [Crew.pending, getElem?_set_eq place, if_true, place, Activity.turnsLeft]
        omega
    | answers place =>
        simp only [Crew.pending, getElem?_set_eq place, if_true, place, Activity.turnsLeft]
        omega
  · rw [if_neg same]
    cases turn with
    | nothing => exact Nat.le_refl _
    | begins => exact others j same (by simp only; omega)
    | retires => exact others j same (by simp only; omega)
    | answers => exact others j same (Nat.le_refl _)

theorem pending_run (crew : Crew α β) (schedule : List Nat) (i : Nat) :
    (run jobs work schedule crew).pending jobs i ≤ crew.pending jobs i - schedule.count i := by
  induction schedule generalizing crew with
  | nil => exact Nat.le_refl _
  | cons j rest ih =>
      have later := ih (act jobs work crew j)
      have turn : Turn jobs work crew j (act jobs work crew j) := turn_act crew j
      have first := turn.pending i
      rw [List.count_cons]
      simp only [beq_iff_eq]
      show (run jobs work rest (act jobs work crew j)).pending jobs i ≤ _
      omega

theorem pending_ofSize (size i : Nat) :
    (ofSize size : Crew α β).pending jobs i ≤ 2 * jobs.length + 1 := by
  rw [pending, ofSize, List.getElem?_replicate]
  split
  · exact Nat.zero_le _
  case h_2 worker found =>
    split at found
    · cases found
      exact Nat.le_refl _
    · cases found

theorem isDone_of_pending (jobs : List α)
    (none : ∀ i < crew.workers.length, crew.pending jobs i = 0) :
    crew.isDone = true := by
  refine List.all_eq_true.mpr fun worker mem => ?_
  obtain ⟨i, inside, rfl⟩ := List.getElem_of_mem mem
  have finished := none i inside
  rw [pending, List.getElem?_eq_getElem inside] at finished
  cases activity : crew.workers[i].activity <;> simp_all [Activity.turnsLeft, Activity.isRetired]

/-- All workers retire if each of them gets two turns for every job, and one more. -/
theorem isDone_of_turns {size : Nat} {schedule : List Nat}
    (turns : ∀ i < size, 2 * jobs.length + 1 ≤ schedule.count i) :
    (run jobs work schedule (ofSize size)).isDone = true := by
  refine isDone_of_pending jobs fun i inside => ?_
  rw [length_run, show (ofSize size : Crew α β).workers.length = size from
    List.length_replicate] at inside
  have enough := turns i inside
  have fewer : (run jobs work schedule (ofSize size)).pending jobs i ≤
      (ofSize size : Crew α β).pending jobs i - schedule.count i := pending_run ..
  have most : (ofSize size : Crew α β).pending jobs i ≤ 2 * jobs.length + 1 := pending_ofSize ..
  omega

end Crew

end SubtermIndex
