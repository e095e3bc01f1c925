/-
# `SubtermIndex.Proofs.Session` — any calls in any order keep every index closed

A session keeps any number of indexes and of shared indexes, and performs calls on them in any
order: trees are inserted, indexes are merged, copied and shared, and a call that fails changes
nothing.  A ledger lists the trees that have been indexed under each number; every call keeps it
correct (`Ledger.Correct.perform`), so that all indexes are reached by calls on listed trees.
Hence after any number of calls they are closed (`closed_performAll`).

A ledger is kept beside the session and is not a part of it: the indexes are the same without one
(`session_perform`).  It can also be begun when calls have been made, as long as all indexes are
reached.
-/
import SubtermIndex.Proofs.Index.Closed

namespace SubtermIndex

variable {H : Hasher}

/-- A reached index is closed. -/
theorem Reached.closed {calls : List (Input H × NodeHash)} {m : Index} (h : Reached H calls m) :
    m.Closed H := by
  obtain ⟨Ts, all, index⟩ := h.exists_trees
  exact index.closed (fits_of_reads all)

/-- Indexes and shared indexes, each under a number of its own. -/
structure Session where
  indexes : Nat → Index
  shared : Nat → SharedIndex

/-- A call on the indexes of a session, all of them with the digest `H`. -/
inductive Operation (H : Hasher) where
  | insert (i : Nat) (x : Input H)
  | insertSplit (i : Nat) (x : Input H)
  | merge (i incoming : Nat)
  | copy (i source : Nat)
  | share (place source : Nat)
  | insertShared (place : Nat) (x : Input H)
  | snapshot (i place : Nat)
  /-- A caller panics while it holds the lock. -/
  | poison (place : Nat)

namespace Session

def empty : Session := ⟨fun _ => ∅, fun _ => .empty⟩

def setIndex (s : Session) (i : Nat) (m : Index) : Session :=
  { s with indexes := Function.update s.indexes i m }

def setShared (s : Session) (place : Nat) (t : SharedIndex) : Session :=
  { s with shared := Function.update s.shared place t }

def perform (s : Session) : Operation H → Session
  | .insert i x =>
      match x.insert (s.indexes i) with
      | .ok d => s.setIndex i d.index
      | .error _ => s
  | .insertSplit i x =>
      match x.insertSplit (s.indexes i) with
      | .ok d => s.setIndex i d.index
      | .error _ => s
  | .merge i incoming =>
      match (s.indexes i).merge (s.indexes incoming) with
      | .ok merged => s.setIndex i merged
      | .error _ => s
  | .copy i source => s.setIndex i (s.indexes source)
  | .share place source => s.setShared place (.ofIndex (s.indexes source))
  | .insertShared place x =>
      match x.insertShared (s.shared place) with
      | .ok (_, t) => s.setShared place t
      | .error _ => s
  | .snapshot i place => s.setIndex i (s.shared place).snapshot
  | .poison place => s.setShared place (s.shared place).poison

def performAll (s : Session) (ops : List (Operation H)) : Session := ops.foldl perform s

/-- All indexes of a session are reached from the empty one. -/
structure AllReached (H : Hasher) (s : Session) : Prop where
  indexes : ∀ i, ∃ calls, Reached H calls (s.indexes i)
  shared : ∀ place, ∃ calls, Reached H calls (s.shared place).contents

theorem allReached_empty : AllReached H empty where
  indexes _ := ⟨[], .empty⟩
  shared _ := ⟨[], .empty⟩

end Session

/-! ## What the indexes of a session hold -/

/-- A session, and the trees that have been indexed under each number, with the hashes of their
roots: by a call on this index, or by one on an index that was copied or merged into it. -/
structure Ledger (H : Hasher) where
  session : Session
  trees : Nat → List (Input H × NodeHash)
  sharedTrees : Nat → List (Input H × NodeHash)

namespace Ledger

def empty : Ledger H := ⟨.empty, fun _ => [], fun _ => []⟩

def setIndex (b : Ledger H) (i : Nat) (m : Index) (calls : List (Input H × NodeHash)) :
    Ledger H :=
  { b with session := b.session.setIndex i m, trees := Function.update b.trees i calls }

def setShared (b : Ledger H) (place : Nat) (t : SharedIndex) (calls : List (Input H × NodeHash)) :
    Ledger H :=
  { b with
    session := b.session.setShared place t
    sharedTrees := Function.update b.sharedTrees place calls }

def perform (b : Ledger H) : Operation H → Ledger H
  | .insert i x =>
      match x.insert (b.session.indexes i) with
      | .ok d => b.setIndex i d.index (b.trees i ++ [(x, d.root)])
      | .error _ => b
  | .insertSplit i x =>
      match x.insertSplit (b.session.indexes i) with
      | .ok d => b.setIndex i d.index (b.trees i ++ [(x, d.root)])
      | .error _ => b
  | .merge i incoming =>
      match (b.session.indexes i).merge (b.session.indexes incoming) with
      | .ok merged => b.setIndex i merged (b.trees i ++ b.trees incoming)
      | .error _ => b
  | .copy i source => b.setIndex i (b.session.indexes source) (b.trees source)
  | .share place source =>
      b.setShared place (.ofIndex (b.session.indexes source)) (b.trees source)
  | .insertShared place x =>
      match x.insertShared (b.session.shared place) with
      | .ok (d, t) => b.setShared place t (b.sharedTrees place ++ [(x, d.root)])
      | .error _ => b
  | .snapshot i place => b.setIndex i (b.session.shared place).snapshot (b.sharedTrees place)
  | .poison place =>
      b.setShared place (b.session.shared place).poison (b.sharedTrees place)

def performAll (b : Ledger H) (ops : List (Operation H)) : Ledger H := ops.foldl perform b

theorem perform_insert_ok {b : Ledger H} {i : Nat} {x : Input H} {d : Inserted}
    (inserted : x.insert (b.session.indexes i) = .ok d) :
    b.perform (.insert i x) = b.setIndex i d.index (b.trees i ++ [(x, d.root)]) := by
  rw [perform, inserted]

theorem perform_insert_error {b : Ledger H} {i : Nat} {x : Input H} {failure : Failure}
    (failed : x.insert (b.session.indexes i) = .error failure) : b.perform (.insert i x) = b := by
  rw [perform, failed]

/-- To keep a ledger does not change the session. -/
theorem session_perform (b : Ledger H) (op : Operation H) :
    (b.perform op).session = b.session.perform op := by
  cases op with
  | insert i x =>
      simp only [perform, Session.perform]
      cases x.insert (b.session.indexes i) <;> rfl
  | insertSplit i x =>
      simp only [perform, Session.perform]
      cases x.insertSplit (b.session.indexes i) <;> rfl
  | merge i incoming =>
      simp only [perform, Session.perform]
      cases (b.session.indexes i).merge (b.session.indexes incoming) <;> rfl
  | insertShared place x =>
      simp only [perform, Session.perform]
      cases x.insertShared (b.session.shared place) <;> rfl
  | copy i source => rfl
  | share place source => rfl
  | snapshot i place => rfl
  | poison place => rfl

theorem session_performAll (b : Ledger H) (ops : List (Operation H)) :
    (b.performAll ops).session = b.session.performAll ops := by
  induction ops generalizing b with
  | nil => rfl
  | cons op rest ih =>
      rw [performAll, List.foldl_cons, ← performAll, ih, session_perform]
      rfl

/-- Every index is reached by calls on the trees that are entered for it. -/
structure Correct (b : Ledger H) : Prop where
  indexes : ∀ i, Reached H (b.trees i) (b.session.indexes i)
  shared : ∀ place, Reached H (b.sharedTrees place) (b.session.shared place).contents

theorem correct_empty : Correct (empty : Ledger H) where
  indexes _ := .empty
  shared _ := .empty

theorem Correct.setIndex {b : Ledger H} (hb : b.Correct) (i : Nat) {m : Index}
    {calls : List (Input H × NodeHash)} (hm : Reached H calls m) :
    (b.setIndex i m calls).Correct := by
  refine ⟨?_, hb.shared⟩
  intro j
  show Reached H (Function.update b.trees i calls j) (Function.update b.session.indexes i m j)
  by_cases same : j = i
  · subst same
    rw [Function.update_self, Function.update_self]
    exact hm
  · rw [Function.update_of_ne same, Function.update_of_ne same]
    exact hb.indexes j

theorem Correct.setShared {b : Ledger H} (hb : b.Correct) (place : Nat) {t : SharedIndex}
    {calls : List (Input H × NodeHash)} (ht : Reached H calls t.contents) :
    (b.setShared place t calls).Correct := by
  refine ⟨hb.indexes, ?_⟩
  intro j
  show Reached H (Function.update b.sharedTrees place calls j)
    (Function.update b.session.shared place t j).contents
  by_cases same : j = place
  · subst same
    rw [Function.update_self, Function.update_self]
    exact ht
  · rw [Function.update_of_ne same, Function.update_of_ne same]
    exact hb.shared j

/-- A call keeps the ledger correct. -/
theorem Correct.perform {b : Ledger H} (hb : b.Correct) (op : Operation H) :
    (b.perform op).Correct := by
  cases op with
  | insert i x =>
      simp only [Ledger.perform]
      cases inserted : x.insert (b.session.indexes i) with
      | error failure => exact hb
      | ok d => exact hb.setIndex i ((hb.indexes i).insert x inserted)
  | insertSplit i x =>
      simp only [Ledger.perform]
      cases inserted : x.insertSplit (b.session.indexes i) with
      | error failure => exact hb
      | ok d => exact hb.setIndex i ((hb.indexes i).insertSplit x inserted)
  | merge i incoming =>
      simp only [Ledger.perform]
      cases union : (b.session.indexes i).merge (b.session.indexes incoming) with
      | error h => exact hb
      | ok merged => exact hb.setIndex i ((hb.indexes i).merge (hb.indexes incoming) union)
  | copy i source => exact hb.setIndex i (hb.indexes source)
  | share place source => exact hb.setShared place (hb.indexes source)
  | insertShared place x =>
      simp only [Ledger.perform]
      cases inserted : x.insertShared (b.session.shared place) with
      | error failure => exact hb
      | ok result => exact hb.setShared place ((hb.shared place).insertShared x inserted)
  | snapshot i place => exact hb.setIndex i (hb.shared place)
  | poison place => exact hb.setShared place (hb.shared place)

theorem Correct.performAll {b : Ledger H} (hb : b.Correct) (ops : List (Operation H)) :
    (b.performAll ops).Correct := by
  induction ops generalizing b with
  | nil => exact hb
  | cons op rest ih => exact ih (hb.perform op)

end Ledger

namespace Session

theorem AllReached.exists_ledger {s : Session} (hs : s.AllReached H) :
    ∃ b : Ledger H, b.session = s ∧ b.Correct := by
  obtain ⟨indexes, shared⟩ := hs
  choose trees indexes using indexes
  choose sharedTrees shared using shared
  exact ⟨⟨s, trees, sharedTrees⟩, rfl, ⟨indexes, shared⟩⟩

theorem AllReached.performAll {s : Session} (hs : s.AllReached H) (ops : List (Operation H)) :
    (s.performAll ops).AllReached H := by
  obtain ⟨b, rfl, correct⟩ := hs.exists_ledger
  have after := correct.performAll ops
  rw [← b.session_performAll]
  constructor
  · intro i
    exact ⟨_, after.indexes i⟩
  · intro place
    exact ⟨_, after.shared place⟩

/-- After any calls in any order, failed ones included, every index is closed. -/
theorem closed_performAll (ops : List (Operation H)) :
    (∀ i, ((empty.performAll ops).indexes i).Closed H) ∧
      ∀ place, ((empty.performAll ops).shared place).contents.Closed H := by
  have reached := allReached_empty.performAll ops
  constructor
  · intro i
    obtain ⟨calls, index⟩ := reached.indexes i
    exact index.closed
  · intro place
    obtain ⟨calls, contents⟩ := reached.shared place
    exact contents.closed

end Session

end SubtermIndex
