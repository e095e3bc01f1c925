/-
# `SubtermIndex.Proofs.Reached` — indexes are reached by calls that succeed

An index is reached from the empty one by inserting trees, in one piece or split, alone or shared,
and by merging what has been reached in the same way.  Whatever the calls were, the index is the
one into which the entries of their trees have been put, one tree after another
(`Reached.exists_trees`).

Calls that fail are no part of this: they leave nothing in an index.  An input brings its own
nodes and reader and its own limits; only the digest is the same for all of them.
-/
import SubtermIndex.Indexer.SharedIndex
import SubtermIndex.Sample.Spelling
import SubtermIndex.Proofs.Indexer.Insert

namespace SubtermIndex

/-! ## Calls -/

/-- A tree as a call gets it: a root, and how it is to be indexed.  Its payloads are data that
a machine of 64 bits can hold. -/
structure Input (H : Hasher) where
  {Node : Type}
  indexer : Indexer Node
  root : Node
  digest : indexer.hasher = H
  fits : indexer.reader.Fits root

namespace Input

variable {H : Hasher}

def Reads (x : Input H) (T : Tree) : Prop := x.indexer.reader.Reads x.root T

def SubTree (x : Input H) (A : Tree) : Prop := x.indexer.reader.SubTree x.root A

def walk (x : Input H) : Except Failure (NodeHash × Index) := x.indexer.walk x.root .root

def insert (x : Input H) (m : Index) : Except Failure Inserted := x.indexer.insert x.root m

def insertSplit (x : Input H) (m : Index) : Except Failure Inserted :=
  x.indexer.insertSplit x.root m

def insertShared (x : Input H) (s : SharedIndex) : Except Failure (Inserted × SharedIndex) :=
  s.insert x.indexer x.root

def trace (x : Input H) : Trace NodeHash :=
  x.indexer.trace (x.indexer.levelsAt .root) x.root .root

theorem walk_eq_commit (x : Input H) : x.walk = x.trace.commit H ∅ := by
  rw [walk, x.indexer.walk_eq_commit, x.digest]
  rfl

theorem trace_eq_ok_iff (x : Input H) {E : List Entry} {h : NodeHash} :
    x.trace = ⟨E, .ok h⟩ ↔
      ∃ T, (x.Reads T ∧ T.Within (x.indexer.levelsAt .root)) ∧ E = T.entries H ∧
        h = T.hash H := by
  rw [trace, x.indexer.trace_eq_ok_iff, x.digest]
  rfl

theorem exists_subTree_of_mem_closed (x : Input H) {e : Entry} (h : e ∈ x.trace.closed) :
    ∃ A, x.SubTree A ∧ A.entry H = e := by
  obtain ⟨A, sub, same⟩ := x.indexer.exists_subTree_of_mem_closed h
  rw [x.digest] at same
  exact ⟨A, sub, same⟩

theorem fits_of_subTree (x : Input H) {A : Tree} (h : x.SubTree A) : A.Fits :=
  x.fits.tree h

theorem Reads.subTree {x : Input H} {T : Tree} (hT : x.Reads T) : x.SubTree T :=
  NodeReader.Reads.subTree hT

theorem Reads.fits {x : Input H} {T : Tree} (hT : x.Reads T) : T.Fits :=
  x.fits_of_subTree hT.subTree

theorem Reads.subTree_iff {x : Input H} {A T : Tree} (hT : x.Reads T) :
    x.SubTree A ↔ A ∈ T.subtrees :=
  NodeReader.Reads.subTree_iff hT

theorem exists_tree_of_insert {x : Input H} {m : Index} {d : Inserted} (hm : m.WellFormed)
    (h : x.insert m = .ok d) :
    ∃ T, x.Reads T ∧ d.root = T.hash H ∧ m.putAll H (T.entries H) = .ok d.index := by
  obtain ⟨T, ⟨reads, -⟩, root, all⟩ := Indexer.exists_tree_of_insert hm h
  rw [x.digest] at root all
  exact ⟨T, reads, root, all⟩

/-- A call succeeds if its walk closes a whole tree whose entries can be put into the index. -/
theorem exists_insert_of_trace {x : Input H} {m : Index} {E : List Entry} {h : NodeHash}
    (hm : m.WellFormed) (trace : x.trace = ⟨E, .ok h⟩) (all : ∃ m', m.putAll H E = .ok m') :
    ∃ d, x.insert m = .ok d := by
  obtain ⟨m', all⟩ := all
  obtain ⟨T, reads, rfl, -⟩ := x.trace_eq_ok_iff.mp trace
  rw [← x.digest] at all
  obtain ⟨d, inserted, -⟩ := Indexer.exists_insert_of_accepts hm reads all
  exact ⟨d, inserted⟩

end Input

namespace Sample.Spelling

theorem fits_payload (i : Fin 4) : (payload i).toValue.fits := by
  revert i
  decide +kernel

def input (root : Fin 4) : Input .byLength where
  indexer := indexer
  root := root
  digest := rfl
  fits b _ _ found := by
    obtain rfl := Except.ok.inj found
    exact fits_payload b

end Sample.Spelling

/-! ## Reached indexes -/

/-- An index that is reached by calls, and the inputs of these calls with the hashes of their
roots. -/
inductive Reached (H : Hasher) : List (Input H × NodeHash) → Index → Prop
  | empty : Reached H [] ∅
  | insert {calls : List (Input H × NodeHash)} {m : Index} {d : Inserted} (x : Input H) :
      Reached H calls m → x.insert m = .ok d → Reached H (calls ++ [(x, d.root)]) d.index
  | insertSplit {calls : List (Input H × NodeHash)} {m : Index} {d : Inserted} (x : Input H) :
      Reached H calls m → x.insertSplit m = .ok d → Reached H (calls ++ [(x, d.root)]) d.index
  | insertShared {calls : List (Input H × NodeHash)} {s s' : SharedIndex} {d : Inserted}
      (x : Input H) : Reached H calls s.contents → x.insertShared s = .ok (d, s') →
      Reached H (calls ++ [(x, d.root)]) s'.contents
  | merge {calls calls' : List (Input H × NodeHash)} {m m' merged : Index} :
      Reached H calls m → Reached H calls' m' → m.merge m' = .ok merged →
      Reached H (calls ++ calls') merged

/-- The index into which the entries of the given trees have been put. -/
def IndexOf (H : Hasher) (Ts : List Tree) (m : Index) : Prop :=
  (∅ : Index).putAll H (Ts.flatMap (Tree.entries H)) = .ok m

theorem IndexOf.wellFormed {H : Hasher} {Ts : List Tree} {m : Index} (h : IndexOf H Ts m) :
    m.WellFormed :=
  Index.wellFormed_of_putAll h

theorem IndexOf.consistent {H : Hasher} {Ts : List Tree} {m : Index} (h : IndexOf H Ts m) :
    Index.Consistent H (Ts.flatMap (Tree.entries H)) :=
  Index.putAll_empty_isOk_iff.mp ⟨m, h⟩

theorem IndexOf.append {H : Hasher} {Ts : List Tree} {T : Tree} {m m' : Index}
    (h : IndexOf H Ts m) (more : m.putAll H (T.entries H) = .ok m') : IndexOf H (Ts ++ [T]) m' := by
  rw [IndexOf, List.flatMap_append, Index.putAll_append, h, List.flatMap_singleton]
  exact more

theorem IndexOf.merge {H : Hasher} {Ts Us : List Tree} {m m' merged : Index}
    (h : IndexOf H Ts m) (h' : IndexOf H Us m') (union : m.merge m' = .ok merged) :
    IndexOf H (Ts ++ Us) merged := by
  rw [IndexOf, List.flatMap_append, Index.putAll_append, h]
  exact (Index.merge_eq_ok_iff h.wellFormed h').mp union

theorem insertShared_eq_ok {H : Hasher} {x : Input H} {s s' : SharedIndex} {d : Inserted}
    (h : x.insertShared s = .ok (d, s')) :
    x.insert s.contents = .ok d ∧ s'.contents = d.index := by
  rw [Input.insertShared, SharedIndex.insert_eq] at h
  rw [Input.insert]
  cases inserted : x.indexer.insert x.root s.contents with
  | error failure => simp [inserted, Except.map] at h
  | ok d' =>
      simp only [inserted, Except.map, Except.ok.injEq, Prod.mk.injEq] at h
      obtain ⟨rfl, rfl⟩ := h
      exact ⟨rfl, rfl⟩

theorem fits_of_reads {H : Hasher} {calls : List (Input H × NodeHash)} {Ts : List Tree}
    (all : List.Forall₂ (fun c T => c.1.Reads T ∧ c.2 = T.hash H) calls Ts) :
    ∀ T ∈ Ts, T.Fits := by
  intro T hT
  obtain ⟨c, -, reads, -⟩ := exists_of_forall₂_left all.flip hT
  exact Input.Reads.fits reads

/-- Every call that succeeds has read a tree, and the index is that of these trees. -/
theorem Reached.exists_trees {H : Hasher} {calls : List (Input H × NodeHash)} {m : Index}
    (h : Reached H calls m) :
    ∃ Ts, List.Forall₂ (fun c T => c.1.Reads T ∧ c.2 = T.hash H) calls Ts ∧ IndexOf H Ts m := by
  have extend {calls : List (Input H × NodeHash)} {m : Index} {d : Inserted} {x : Input H}
      (before : ∃ Ts, List.Forall₂ (fun c T => c.1.Reads T ∧ c.2 = T.hash H) calls Ts ∧
        IndexOf H Ts m) (inserted : x.insert m = .ok d) :
      ∃ Ts, List.Forall₂ (fun c T => c.1.Reads T ∧ c.2 = T.hash H) (calls ++ [(x, d.root)]) Ts ∧
        IndexOf H Ts d.index := by
    obtain ⟨Ts, all, index⟩ := before
    obtain ⟨T, reads, root, more⟩ := Input.exists_tree_of_insert index.wellFormed inserted
    exact ⟨Ts ++ [T], List.rel_append all (.cons ⟨reads, root⟩ .nil), index.append more⟩
  induction h with
  | empty => exact ⟨[], .nil, rfl⟩
  | insert x _ inserted ih => exact extend ih inserted
  | insertSplit x _ inserted ih => exact extend ih (x.indexer.insertSplit_eq_ok_iff.mp inserted)
  | insertShared x _ inserted ih =>
      obtain ⟨inserted, contents⟩ := insertShared_eq_ok inserted
      rw [contents]
      exact extend ih inserted
  | merge _ _ union ih ih' =>
      obtain ⟨Ts, all, index⟩ := ih
      obtain ⟨Us, all', index'⟩ := ih'
      exact ⟨Ts ++ Us, List.rel_append all all', index.merge index' union⟩

end SubtermIndex
