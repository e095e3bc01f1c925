/-
# `SubtermIndex.Proofs.Plan` — it does not matter how an index is built

A plan builds an index from trees.  It inserts them into what was built before, each in one piece
or split at some depth, and it merges what was built apart.  Merging keeps the nodes of the left
side, so that two plans may end with different spellings; and a plan might meet a collision where
another one does not.

But a plan comes to nothing else than to putting the entries of its trees
(`exists_trees_of_build`), and this succeeds if entries with one hash are written alike, in
whatever order they are put (`exists_build`).  Hence plans with the same trees succeed together,
and the indexes have the same contents (`exists_build_of_perm`).
-/
import SubtermIndex.Sample.Spelling
import SubtermIndex.Proofs.Index.Contents

namespace SubtermIndex

variable {N : Type}

inductive Manner where
  | whole
  | split (depth : Nat)

/-- A way to build an index. -/
inductive Plan (N : Type) where
  | empty
  | insert (before : Plan N) (manner : Manner) (root : N)
  | merge (left right : Plan N)

namespace Indexer

def splittingAt (ix : Indexer N) (depth : Nat) : Indexer N := { ix with splitDepth := depth }

def insertBy (ix : Indexer N) (manner : Manner) (root : N) (m : Index) :
    Except Failure Inserted :=
  match manner with
  | .whole => ix.insert root m
  | .split depth => (ix.splittingAt depth).insertSplit root m

def insertAll (ix : Indexer N) (roots : List N) (m : Index) : Except Failure Index :=
  roots.foldlM (fun m root => (ix.insert root m).map (·.index)) m

variable {ix : Indexer N} {manner : Manner} {root : N} {m : Index}

theorem exists_tree_of_insertBy {d : Inserted} (hm : m.WellFormed)
    (inserted : ix.insertBy manner root m = .ok d) :
    ∃ T, ix.Accepts root T ∧ m.putAll ix.hasher (T.entries ix.hasher) = .ok d.index := by
  cases manner with
  | whole =>
      obtain ⟨T, accepts, -, all⟩ := exists_tree_of_insert hm inserted
      exact ⟨T, accepts, all⟩
  | split depth =>
      have whole := (ix.splittingAt depth).insertSplit_eq_ok_iff.mp inserted
      obtain ⟨T, accepts, -, all⟩ := exists_tree_of_insert hm whole
      exact ⟨T, accepts, all⟩

theorem exists_insertBy_of_accepts {T : Tree} {m' : Index} (hm : m.WellFormed)
    (accepts : ix.Accepts root T)
    (all : m.putAll ix.hasher (T.entries ix.hasher) = .ok m') (manner : Manner) :
    ∃ d, ix.insertBy manner root m = .ok d ∧ d.index = m' := by
  cases manner with
  | whole =>
      obtain ⟨d, whole, -, index, -⟩ := exists_insert_of_accepts hm accepts all
      exact ⟨d, whole, index⟩
  | split depth =>
      have accepts : (ix.splittingAt depth).Accepts root T := accepts
      obtain ⟨d, whole, -, index, -⟩ := exists_insert_of_accepts hm accepts all
      exact ⟨d, (ix.splittingAt depth).insertSplit_eq_ok_iff.mpr whole, index⟩

end Indexer

namespace Plan

/-- Builds an index, or fails with the first call that fails. -/
def build (ix : Indexer N) : Plan N → Except Failure Index
  | .empty => .ok ∅
  | .insert before manner root =>
      (build ix before).bind fun m => (ix.insertBy manner root m).map (·.index)
  | .merge left right =>
      (build ix left).bind fun m =>
        (build ix right).bind fun incoming => Failure.ofMerge (m.merge incoming)

def roots : Plan N → List N
  | .empty => []
  | .insert before _ root => before.roots ++ [root]
  | .merge left right => left.roots ++ right.roots

variable {ix : Indexer N} {plan : Plan N} {m : Index}

/-- A plan that succeeds has accepted its trees, and builds the index of them. -/
theorem exists_trees_of_build (built : plan.build ix = .ok m) :
    ∃ Ts, List.Forall₂ ix.Accepts plan.roots Ts ∧ IndexOf ix.hasher Ts m := by
  induction plan generalizing m with
  | empty =>
      cases built
      exact ⟨[], .nil, rfl⟩
  | insert before manner root ih =>
      rw [build] at built
      cases earlier : before.build ix with
      | error failure => simp [earlier, Except.bind] at built
      | ok m₁ =>
          cases inserted : ix.insertBy manner root m₁ with
          | error failure => simp [earlier, inserted, Except.bind, Except.map] at built
          | ok d =>
              simp only [earlier, inserted, Except.bind, Except.map, Except.ok.injEq] at built
              subst built
              obtain ⟨Ts, accepted, index⟩ := ih earlier
              obtain ⟨T, accepts, more⟩ := Indexer.exists_tree_of_insertBy index.wellFormed inserted
              exact ⟨Ts ++ [T], List.rel_append accepted (.cons accepts .nil), index.append more⟩
  | merge left right ihl ihr =>
      rw [build] at built
      cases first : left.build ix with
      | error failure => simp [first, Except.bind] at built
      | ok m₁ =>
          cases second : right.build ix with
          | error failure => simp [first, second, Except.bind] at built
          | ok m₂ =>
              cases union : m₁.merge m₂ with
              | error h => simp [first, second, union, Except.bind, Failure.ofMerge] at built
              | ok merged =>
                  simp only [first, second, union, Except.bind, Failure.ofMerge,
                    Except.ok.injEq] at built
                  subst built
                  obtain ⟨Ts, accepted, index⟩ := ihl first
                  obtain ⟨Us, accepted', index'⟩ := ihr second
                  exact ⟨Ts ++ Us, List.rel_append accepted accepted', index.merge index' union⟩

/-- A plan succeeds if its trees are accepted and entries with one hash are written alike. -/
theorem exists_build {Ts : List Tree} (accepted : List.Forall₂ ix.Accepts plan.roots Ts)
    (consistent : Index.Consistent ix.hasher (Ts.flatMap (Tree.entries ix.hasher))) :
    ∃ m, plan.build ix = .ok m ∧ IndexOf ix.hasher Ts m := by
  induction plan generalizing Ts with
  | empty =>
      cases accepted
      exact ⟨∅, rfl, rfl⟩
  | insert before manner root ih =>
      obtain ⟨Us, Vs, rfl, first, last⟩ := exists_append_of_forall₂ accepted
      obtain ⟨T, rest, accepts, none, rfl⟩ := List.forall₂_cons_left_iff.mp last
      cases none
      rw [List.flatMap_append] at consistent
      -- the earlier entries agree because all of them do
      obtain ⟨m, earlier, index⟩ := ih first (consistent.mono (List.subset_append_left _ _))
      obtain ⟨m', all⟩ := Index.putAll_empty_isOk_iff.mpr consistent
      rw [Index.putAll_append, index, List.flatMap_singleton] at all
      obtain ⟨d, inserted, rfl⟩ :=
        Indexer.exists_insertBy_of_accepts index.wellFormed accepts all manner
      refine ⟨d.index, ?_, index.append all⟩
      rw [build, earlier]
      simp only [Except.bind, inserted, Except.map]
  | merge left right ihl ihr =>
      obtain ⟨Us, Vs, rfl, accepted₁, accepted₂⟩ := exists_append_of_forall₂ accepted
      rw [List.flatMap_append] at consistent
      obtain ⟨m, first, index⟩ := ihl accepted₁ (consistent.mono (List.subset_append_left _ _))
      obtain ⟨m', second, index'⟩ := ihr accepted₂ (consistent.mono (List.subset_append_right _ _))
      obtain ⟨merged, all⟩ := Index.putAll_empty_isOk_iff.mpr consistent
      rw [Index.putAll_append, index] at all
      have union := (Index.merge_eq_ok_iff index.wellFormed index').mpr all
      refine ⟨merged, ?_, index.merge index' union⟩
      rw [build, first, second]
      simp only [Except.bind, union, Failure.ofMerge]

/-- Plans with the same trees succeed together, and build indexes with the same contents. -/
theorem exists_build_of_perm {plan' : Plan N} (built : plan.build ix = .ok m)
    (perm : plan'.roots.Perm plan.roots) :
    ∃ m', plan'.build ix = .ok m' ∧ m'.SameContents m := by
  obtain ⟨Ts, accepted, index⟩ := exists_trees_of_build built
  obtain ⟨Us, accepted', permTrees⟩ := List.perm_comp_forall₂ perm accepted
  have same (e : Entry) : e ∈ Us.flatMap (Tree.entries ix.hasher) ↔
      e ∈ Ts.flatMap (Tree.entries ix.hasher) := (permTrees.flatMap_right _).mem_iff
  obtain ⟨m', built', index'⟩ := exists_build accepted' (index.consistent.mono fun e => (same e).mp)
  exact ⟨m', built', index'.sameContents index same⟩

/-! ## One tree after another -/

def inOrder (roots : List N) : Plan N :=
  roots.foldl (fun before root => .insert before .whole root) .empty

theorem build_inOrder (roots : List N) : (inOrder roots).build ix = ix.insertAll roots ∅ := by
  have general (before : Plan N) :
      (roots.foldl (fun before root => Plan.insert before .whole root) before).build ix =
        (before.build ix).bind (ix.insertAll roots) := by
    induction roots generalizing before with
    | nil =>
        rw [List.foldl_nil]
        cases before.build ix <;> rfl
    | cons root rest ih =>
        rw [List.foldl_cons, ih, build]
        cases before.build ix with
        | error failure => rfl
        | ok m => rfl
  exact general .empty

theorem roots_inOrder (roots : List N) : (inOrder roots).roots = roots := by
  have general (before : Plan N) :
      (roots.foldl (fun before root => Plan.insert before .whole root) before).roots =
        before.roots ++ roots := by
    induction roots generalizing before with
    | nil => exact (List.append_nil _).symm
    | cons root rest ih =>
        rw [List.foldl_cons, ih, Plan.roots, List.append_assoc]
        rfl
  exact general .empty

/-- Where trees can be inserted one after another, every plan with these trees succeeds, whatever
their order, the splits and the merges, and the contents are the same. -/
theorem build_of_insertAll {roots : List N} (all : ix.insertAll roots ∅ = .ok m)
    (perm : plan.roots.Perm roots) :
    ∃ m', plan.build ix = .ok m' ∧ m'.SameContents m ∧
      ∃ digest, m'.fingerprint = .ok digest ∧ m.fingerprint = .ok digest := by
  rw [← build_inOrder] at all
  rw [← roots_inOrder roots] at perm
  obtain ⟨m', built, same⟩ := exists_build_of_perm all perm
  obtain ⟨Ts, -, index⟩ := exists_trees_of_build all
  obtain ⟨digest, fingerprint⟩ := index.exists_fingerprint
  exact ⟨m', built, same, digest, same.fingerprint_eq.trans fingerprint, fingerprint⟩

open Sample in
/-- The leaf 2 is stored under the tree at 0 in its other spelling. -/
theorem build_of_insertAll_spelling :
    ∃ m, Spelling.indexer.insertAll [2, 0] ∅ = .ok m ∧
      ∃ m', (merge (insert empty (.split 1) 0) (insert empty .whole 2)).build Spelling.indexer
          = .ok m' ∧
        m'.SameContents m ∧ ∃ digest, m'.fingerprint = .ok digest ∧ m.fingerprint = .ok digest := by
  have succeeds : (Spelling.indexer.insertAll [2, 0] ∅).toBool = true := by decide +kernel
  cases all : Spelling.indexer.insertAll [2, 0] ∅ with
  | error failure => simp [all, Except.toBool] at succeeds
  | ok m => exact ⟨m, rfl, build_of_insertAll all (List.Perm.swap _ _ _)⟩

end Plan

end SubtermIndex
