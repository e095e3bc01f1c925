/-
# `SubtermIndex.Proofs.Representatives` — the first spelling of a node stays

A number may be spelled as an integer or as a float, a NaN has many bit patterns, and the fields
of a nested record come in any order.  All spellings of a node have one hash, and the index keeps
one of them: which one, is decided where a walk stores the node in its draft, where the drafts of
sub-trees are joined, and where a draft is merged.

Wherever it is decided, the older one stays.  Nothing that stands in an index is ever replaced,
and an index that was filled by inserting trees holds, for every hash, the first sub-tree that was
seen with it (`representatives_attemptAll`).

Insertions may come with different digests.  A sighting is therefore entered under the hash by the
digest of its own call.
-/
import SubtermIndex.Proofs.Attempts
import SubtermIndex.Proofs.Indexer.Insert

namespace SubtermIndex

/-! ## What stands in an index stays -/

theorem Indexer.keeps_of_insert {N : Type} {ix : Indexer N} {root : N} {m : Index} {d : Inserted}
    (inserted : ix.insert root m = .ok d) : m.Keeps d.index := by
  obtain ⟨walked, -, merged⟩ := ix.insert_eq_ok_iff.mp inserted
  obtain ⟨m', union, rfl⟩ := mergeWalked_eq_ok_iff.mp merged
  exact Index.keeps_of_merge union

namespace Change

def isInsertion : Change → Bool
  | merge _ => false
  | _ => true

/-- Whether a call reads a tree that is within its depth limit, and hashes it by `H`. -/
def Inserts (H : Hasher) (T : Tree) : Change → Prop
  | insert ix root => ix.hasher = H ∧ ix.Accepts root T
  | insertSplit ix root => ix.hasher = H ∧ ix.Accepts root T
  | insertShared ix root _ => ix.hasher = H ∧ ix.Accepts root T
  | merge _ => False

theorem perform_cases {change : Change} {m m' : Index} {answer : Success}
    (performed : change.perform m = .ok (answer, m')) :
    (∃ (N : Type) (ix : Indexer N) (root : N) (d : Inserted), ix.insert root m = .ok d ∧
      d.index = m' ∧ ∀ T, ix.Accepts root T → change.Inserts ix.hasher T) ∨
    ∃ incoming, change = .merge incoming ∧ m.merge incoming = .ok m' := by
  -- the three insertions give their answers in one form
  have index {outcome : Except Failure Inserted}
      (h : outcome.map (fun d => (Success.inserted d.root d.staged d.gain, d.index)) =
        .ok (answer, m')) : ∃ d, outcome = .ok d ∧ d.index = m' := by
    cases outcome with
    | error failure => cases h
    | ok d =>
        cases h
        exact ⟨d, rfl, rfl⟩
  cases change with
  | insert ix root =>
      obtain ⟨d, inserted, index⟩ := index performed
      exact .inl ⟨_, ix, root, d, inserted, index, fun T accepts => ⟨rfl, accepts⟩⟩
  | insertSplit ix root =>
      obtain ⟨d, inserted, index⟩ := index performed
      exact .inl ⟨_, ix, root, d, ix.insertSplit_eq_ok_iff.mp inserted, index,
        fun T accepts => ⟨rfl, accepts⟩⟩
  | insertShared ix root poisoned =>
      rw [perform_insertShared] at performed
      obtain ⟨d, inserted, index⟩ := index performed
      exact .inl ⟨_, ix, root, d, inserted, index, fun T accepts => ⟨rfl, accepts⟩⟩
  | merge incoming =>
      refine .inr ⟨incoming, rfl, ?_⟩
      rw [perform] at performed
      cases union : m.merge incoming with
      | error h => simp [union, Failure.ofMerge, Except.map] at performed
      | ok merged =>
          rw [union] at performed
          cases performed
          rfl

theorem keeps_of_perform {change : Change} {m m' : Index} {answer : Success}
    (performed : change.perform m = .ok (answer, m')) : m.Keeps m' := by
  rcases perform_cases performed with ⟨N, ix, root, d, inserted, rfl, -⟩ | ⟨incoming, -, union⟩
  · exact Indexer.keeps_of_insert inserted
  · exact Index.keeps_of_merge union

/-- A call keeps all nodes, whether it succeeds or fails. -/
theorem keeps_attempted (change : Change) (m : Index) : m.Keeps (change.attempted m).after := by
  rw [attempted]
  cases performed : change.perform m with
  | error failure => exact .refl m
  | ok done => exact keeps_of_perform performed

end Change

namespace Memory

theorem keeps_attempt (mem : Memory) (change : Change) :
    mem.index.Keeps (mem.attempt change).2.index := by
  rw [(mem.attempt_eq change).2, (mem.attempt_eq change).1]
  exact change.keeps_attempted mem.index

theorem keeps_attemptAll (mem : Memory) (calls : List Change) :
    mem.index.Keeps (mem.attemptAll calls).2.index := by
  induction calls generalizing mem with
  | nil => exact .refl _
  | cons change rest ih => exact (mem.keeps_attempt change).trans (ih _)

theorem attemptAll_append (mem : Memory) (early late : List Change) :
    mem.attemptAll (early ++ late) =
      ((mem.attemptAll early).1 ++ ((mem.attemptAll early).2.attemptAll late).1,
        ((mem.attemptAll early).2.attemptAll late).2) := by
  induction early generalizing mem with
  | nil => rfl
  | cons change rest ih =>
      rw [List.cons_append, attemptAll, ih]
      rfl

end Memory

/-! ## The first sub-tree with a hash -/

theorem Change.exists_tree_of_perform {change : Change} (insertion : change.isInsertion = true)
    {m m' : Index} {answer : Success} (hm : m.WellFormed)
    (performed : change.perform m = .ok (answer, m')) :
    ∃ H T, change.Inserts H T ∧ m.putAll H (T.entries H) = .ok m' := by
  rcases perform_cases performed with ⟨N, ix, root, d, inserted, rfl, inserts⟩ | ⟨_, rfl, -⟩
  · obtain ⟨T, accepts, -, all⟩ := Indexer.exists_tree_of_insert hm inserted
    exact ⟨ix.hasher, T, inserts T accepts, all⟩
  · cases insertion

/-- The sub-trees of trees as they are stored, each under the hash that it has by the digest of
its tree: tree after tree, and every node behind its children. -/
def sightings (Ts : List (Hasher × Tree)) : List (NodeHash × Node) :=
  Ts.flatMap fun (H, T) => T.subtrees.map fun A =>
    (A.hash H, { payload := A.label.payload, children := A.children.map (Tree.hash H) })

/-- Whether an index holds the first sighting of every hash, and nothing else. -/
structure Index.HoldsFirst (Ts : List (Hasher × Tree)) (m : Index) : Prop where
  wellFormed : m.WellFormed
  node? : ∀ h, m.node? h = ((sightings Ts).find? fun seen => seen.1 = h).map (·.2)

theorem find?_entries (H : Hasher) (T : Tree) (h : NodeHash) :
    ((T.entries H).find? fun e => e.hash H = h).map Entry.node =
      ((sightings [(H, T)]).find? fun seen => seen.1 = h).map (·.2) := by
  rw [sightings, List.flatMap_singleton, Tree.entries, List.find?_map, List.find?_map,
    Option.map_map, Option.map_map]
  simp only [Function.comp_def, ← Tree.hash_eq]
  rfl

theorem Index.HoldsFirst.putAll {Ts : List (Hasher × Tree)} {m m' : Index}
    (hm : m.HoldsFirst Ts) {H : Hasher} {T : Tree}
    (all : m.putAll H (T.entries H) = .ok m') : m'.HoldsFirst (Ts ++ [(H, T)]) where
  wellFormed := (extendsAll_of_putAll all).wellFormed hm.wellFormed
  node? h := by
    have more := (extendsAll_of_putAll all).node? h
    rw [more, hm.node?, find?_entries, sightings, sightings, sightings, List.flatMap_append,
      List.find?_append, Option.map_or]

namespace Memory

/-- Insertions, one after another: each one that succeeds adds the sightings of its tree. -/
theorem holdsFirst_attemptAll {mem : Memory} {Ts : List (Hasher × Tree)}
    (hm : mem.index.HoldsFirst Ts) {calls : List Change}
    (insertions : ∀ change ∈ calls, change.isInsertion = true) :
    ∃ Us : List (Hasher × Tree),
      List.Forall₂ (fun a U => a.change.Inserts U.1 U.2)
        ((mem.attemptAll calls).1.filter Attempt.succeeded) Us ∧
      (mem.attemptAll calls).2.index.HoldsFirst (Ts ++ Us) := by
  induction calls generalizing mem Ts with
  | nil => exact ⟨[], .nil, by rwa [List.append_nil]⟩
  | cons change rest ih =>
      rw [List.forall_mem_cons] at insertions
      have attempt := mem.attempt_eq change
      rw [attemptAll]
      cases performed : change.perform mem.index with
      | error failure =>
          -- a call that fails is left out, and adds no sighting
          have failed :
              (mem.attempt change).1 = ⟨change, mem.index, .error failure, mem.index⟩ := by
            rw [attempt.1, Change.attempted, performed]
          have unchanged : (mem.attempt change).2.index = mem.index := by
            rw [attempt.2, failed]
          obtain ⟨Us, all, holds⟩ := ih (unchanged ▸ hm) insertions.2
          refine ⟨Us, ?_, holds⟩
          rw [List.filter_cons_of_neg (by rw [failed]; exact Bool.false_ne_true)]
          exact all
      | ok done =>
          obtain ⟨answer, m'⟩ := done
          have succeeded : (mem.attempt change).1 = ⟨change, mem.index, .ok answer, m'⟩ := by
            rw [attempt.1, Change.attempted, performed]
          have next : (mem.attempt change).2.index = m' := by
            rw [attempt.2, succeeded]
          obtain ⟨H, T, inserts, putAll⟩ :=
            Change.exists_tree_of_perform insertions.1 hm.wellFormed performed
          obtain ⟨Us, all, holds⟩ := ih (next ▸ hm.putAll putAll) insertions.2
          refine ⟨(H, T) :: Us, ?_, by rwa [List.append_cons]⟩
          rw [List.filter_cons_of_pos (by rw [succeeded]; rfl)]
          exact .cons (by rw [succeeded]; exact inserts) all

/-- What stands in an index is there to stay: whatever calls come later, and whether they succeed
or fail, the same node stands under the same hash.  If the index was empty and all calls insert
trees, then under every hash stands the first sub-tree with this hash, its payload as it was read:
the first one in the order of the calls that have succeeded, and then from the children up. -/
theorem representatives_attemptAll :
    (∀ (mem : Memory) (early late : List Change) (h : NodeHash) (n : Node),
      (mem.attemptAll early).2.index.node? h = some n →
        (mem.attemptAll (early ++ late)).2.index.node? h = some n) ∧
    ∀ (mem : Memory) (calls : List Change), mem.index = ∅ →
      (∀ change ∈ calls, change.isInsertion = true) →
      ∃ Ts : List (Hasher × Tree),
        List.Forall₂ (fun a T => a.change.Inserts T.1 T.2)
          ((mem.attemptAll calls).1.filter Attempt.succeeded) Ts ∧
        ∀ h, (mem.attemptAll calls).2.index.node? h =
          ((sightings Ts).find? fun seen => seen.1 = h).map (·.2) := by
  constructor
  · intro mem early late h n there
    rw [attemptAll_append]
    exact keeps_attemptAll _ late h n there
  · intro mem calls fresh insertions
    have none : mem.index.HoldsFirst [] := by
      rw [fresh]
      exact ⟨Index.wellFormed_empty, fun h => Index.node?_empty h⟩
    obtain ⟨Ts, all, holds⟩ := holdsFirst_attemptAll none insertions
    exact ⟨Ts, all, holds.node?⟩

open Sample in
/-- The first call inserts the node 0, whose children spell one number in two ways; two calls
fail, and the last one inserts the second spelling alone. -/
theorem representatives_attemptAll_spelling :
    ∃ (h : NodeHash) (n : Node),
      ((ofIndex ∅).attemptAll (Spelling.changes.take 1)).2.index.node? h = some n ∧
        ((ofIndex ∅).attemptAll
          (Spelling.changes.take 1 ++ Spelling.changes.drop 1)).2.index.node? h = some n ∧
        ∃ Ts : List (Hasher × Tree),
          List.Forall₂ (fun a T => a.change.Inserts T.1 T.2)
            (((ofIndex ∅).attemptAll Spelling.changes).1.filter Attempt.succeeded) Ts ∧
          ∀ h, ((ofIndex ∅).attemptAll Spelling.changes).2.index.node? h =
            ((sightings Ts).find? fun seen => seen.1 = h).map (·.2) := by
  -- both leaves have records of six bytes
  have stored : (((ofIndex ∅).attemptAll (Spelling.changes.take 1)).2.index.node?
      ⟨Hasher.byLength .node (List.replicate 6 0)⟩).isSome = true := by decide +kernel
  obtain ⟨n, there⟩ := Option.isSome_iff_exists.mp stored
  have insertions : ∀ change ∈ Spelling.changes, change.isInsertion = true := by
    simp [Spelling.changes, Change.isInsertion]
  exact ⟨_, n, there, representatives_attemptAll.1 _ _ _ _ n there,
    representatives_attemptAll.2 (ofIndex ∅) Spelling.changes rfl insertions⟩

end Memory

end SubtermIndex
