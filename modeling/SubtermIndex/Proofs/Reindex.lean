/-
# `SubtermIndex.Proofs.Reindex` — to index a tree again changes nothing

A tree that has been indexed may come again, as a whole or as a part of it, from another reader,
with its fields in another order and its numbers spelled in another way.  Its nodes then have the
hashes that are stored, but compare unequal to the stored nodes as data.  The comparison of the
records lets them pass, and the stored nodes stay.

Nothing is assumed of the digest: what has been indexed is consistent, and a part of it in
whatever spelling adds no entry that would not be (`putAll_eq_self`).  So the call succeeds, and
as all hashes, shapes and edges of the tree are there already, the index is the same afterwards,
node by node.
-/
import SubtermIndex.Proofs.Attempts
import SubtermIndex.Proofs.Contribution
import SubtermIndex.Proofs.Session

namespace SubtermIndex

open Cbor

variable {H : Hasher}

namespace Index

/-- A row of entries leaves an index as it is that has their hashes, shapes and edges. -/
theorem ExtendsAll.eq_self {m m' : Index} {F : List Entry} (more : ExtendsAll H m F m')
    (hm : m.WellFormed) (stored : ∀ f ∈ F, m.contains (f.hash H) = true)
    (shapes : ∀ f ∈ F, Groups.hasMember m.shapes (f.shape H) (f.hash H) = true)
    (edges : ∀ f ∈ F, ∀ c ∈ f.children, m.edges.contains (f.hash H) c = true) : m' = m := by
  refine (more.wellFormed hm).ext hm ?_ ?_ ?_
  · intro h
    rw [more.node?]
    cases there : m.node? h with
    | some n => exact Option.some_or
    | none =>
        rw [Option.none_or, Option.map_eq_none_iff, List.find?_eq_none]
        intro f hf hash
        obtain ⟨n, there'⟩ := contains_iff.mp (stored f hf)
        rw [of_decide_eq_true hash, there] at there'
        cases there'
  · intro s h
    rw [Bool.eq_iff_iff, more.shapes, or_iff_left_iff_imp]
    rintro ⟨f, hf, rfl, rfl⟩
    exact shapes f hf
  · intro h c
    rw [Bool.eq_iff_iff, more.edges, or_iff_left_iff_imp]
    rintro ⟨f, hf, rfl, hc⟩
    exact edges f hf c hc

/-- Entries that differ from those of an index in nothing but the spelling of the payload can be
put into it once more, and leave it as it is. -/
theorem putAll_eq_self {m : Index} {E F : List Entry} (built : putAll H E ∅ = .ok m)
    (known : ∀ f ∈ F, ∃ e ∈ E, e.label.code = f.label.code ∧ e.children = f.children) :
    m.putAll H F = .ok m := by
  have all := extendsAll_of_putAll built
  have consistent := putAll_empty_isOk_iff.mp ⟨m, built⟩
  have known : ∀ f ∈ F, ∃ e ∈ E, e.hash H = f.hash H ∧ e.shape H = f.shape H ∧
      e.record = f.record ∧ e.children = f.children := by
    intro f hf
    obtain ⟨e, he, code, children⟩ := known f hf
    have record : e.record = f.record := by
      rw [Entry.record, Entry.record, code, children]
    refine ⟨e, he, ?_, ?_, record, children⟩
    · rw [Entry.hash, Entry.hash, record]
    · rw [Entry.shape, Entry.shape, code]
  have fits : ∃ m', m.putAll H F = .ok m' := by
    refine putAll_isOk_iff.mpr ⟨?_, ?_⟩
    · intro f hf there stored
      obtain ⟨e, he, hash, -, record, -⟩ := known f hf
      obtain ⟨g, hg, rfl, hashG⟩ := all.exists_entry stored
      rw [g.encodedRecord, consistent g hg e he (hashG.trans hash.symm), record]
    · intro f hf g hg same
      -- two new entries with one hash stand for stored entries with that hash
      obtain ⟨e, he, hashE, -, recordE, -⟩ := known f hf
      obtain ⟨e', he', hashE', -, recordE', -⟩ := known g hg
      rw [← recordE, ← recordE']
      exact consistent e he e' he' (hashE.trans (same.trans hashE'.symm))
  obtain ⟨m', again⟩ := fits
  have unchanged : m' = m := by
    refine (extendsAll_of_putAll again).eq_self (wellFormed_of_putAll built) ?_ ?_ ?_
    · intro f hf
      obtain ⟨e, he, hash, -⟩ := known f hf
      exact all.contains.mpr (.inr ⟨e, he, hash⟩)
    · intro f hf
      obtain ⟨e, he, hash, shape, -⟩ := known f hf
      exact (all.shapes _ _).mpr (.inr ⟨e, he, shape, hash⟩)
    · intro f hf c hc
      obtain ⟨e, he, hash, -, -, children⟩ := known f hf
      exact (all.edges _ _).mpr (.inr ⟨e, he, hash, children ▸ hc⟩)
  rw [again, unchanged]

/-- Whether to index a root answers the hash `h` and adds nothing, in whichever way it is done:
the nodes with their spellings, the shapes and the edges are what they were. -/
def Confirms {N : Type} (m : Index) (ix : Indexer N) (root : N) (h : NodeHash) : Prop :=
  ∃ d : Inserted, d.root = h ∧ d.gain = ⟨0, 0, 0⟩ ∧ d.index = m ∧
    ix.insert root m = .ok d ∧ ix.insertSplit root m = .ok d ∧
    ∀ poisoned, SharedIndex.insert ix root { contents := m, poisoned } =
      .ok (d, { contents := m, poisoned })

/-- Whether a tree is stored in an index, and may come again in any spelling and from any reader. -/
structure Absorbs (H : Hasher) (m : Index) (A : Tree) : Prop where
  /-- Under the hash of the tree stands its root, in one of its spellings. -/
  stored : ∃ n, m.node? (A.hash H) = some n ∧ encode n.payload.toValue = .ok A.label.code ∧
    n.children = A.children.map (Tree.hash H)
  confirms : ∀ {N : Type} (ix : Indexer N) (root : N) (B : Tree), ix.hasher = H →
    ix.Accepts root B → A.Same B → m.Confirms ix root (A.hash H)

end Index

namespace IndexOf

variable {Ts : List Tree} {m : Index} {T A B : Tree}

theorem putAll_eq_self (index : IndexOf H Ts m) (hT : T ∈ Ts) (hA : A ∈ T.subtrees)
    (same : A.Same B) : m.putAll H (B.entries H) = .ok m := by
  refine Index.putAll_eq_self index ?_
  intro f hf
  obtain ⟨D, hD, rfl⟩ := Tree.mem_entries.mp hf
  obtain ⟨C, hC, same⟩ := same.exists_subtree hD
  have listed : C.entry H ∈ T.entries H :=
    Tree.mem_entries.mpr ⟨C, Tree.mem_subtrees_trans hC hA, rfl⟩
  exact ⟨C.entry H, List.mem_flatMap.mpr ⟨T, hT, listed⟩, same.code_eq, same.hashes_eq H⟩

theorem absorbs (index : IndexOf H Ts m) (fits : ∀ T ∈ Ts, T.Fits) (hT : T ∈ Ts)
    (hA : A ∈ T.subtrees) : m.Absorbs H A where
  stored := by
    have listed : A.entry H ∈ T.entries H := Tree.mem_entries.mpr ⟨A, hA, rfl⟩
    obtain ⟨f, -, there, code, children⟩ :=
      index.exists_node fits (List.mem_flatMap.mpr ⟨T, hT, listed⟩)
    rw [← Tree.hash_eq] at there
    exact ⟨f.node, there, f.label.written.trans (congrArg _ code), children⟩
  confirms := by
    intro N ix root B digest accepts same
    subst digest
    obtain ⟨d, inserted, hash, unchanged, gain⟩ :=
      Indexer.exists_insert_of_accepts index.wellFormed accepts (index.putAll_eq_self hT hA same)
    refine ⟨d, ?_, ?_, unchanged, inserted, ix.insertSplit_eq_ok_iff.mpr inserted, ?_⟩
    · rw [hash, same.hash_eq]
    · rw [gain, Index.Gain.between_self]
    · intro poisoned
      rw [SharedIndex.insert_eq, inserted, Except.map, unchanged]

end IndexOf

theorem Reached.absorbs {calls : List (Input H × NodeHash)} {m : Index}
    (reached : Reached H calls m) {c : Input H × NodeHash} (hc : c ∈ calls) {A : Tree}
    (hA : c.1.SubTree A) : m.Absorbs H A := by
  obtain ⟨Ts, all, index⟩ := reached.exists_trees
  obtain ⟨T, hT, reads, -⟩ := exists_of_forall₂_left all hc
  exact index.absorbs (fits_of_reads all) hT (reads.subTree_iff.mp hA)

/-- After any calls, failed ones included, every index absorbs all sub-trees of the trees that have
been indexed into it, or into an index that was copied or merged into it. -/
theorem absorbs_performAll (ops : List (Operation H)) :
    (∀ i, ∀ c ∈ (Ledger.empty.performAll ops).trees i, ∀ A, c.1.SubTree A →
      ((Session.empty.performAll ops).indexes i).Absorbs H A) ∧
    ∀ place, ∀ c ∈ (Ledger.empty.performAll ops).sharedTrees place, ∀ A, c.1.SubTree A →
      ((Session.empty.performAll ops).shared place).contents.Absorbs H A := by
  have correct : (Ledger.empty.performAll ops).Correct := Ledger.correct_empty.performAll ops
  have session : (Ledger.empty.performAll ops).session = Session.empty.performAll ops :=
    Ledger.session_performAll _ ops
  rw [← session]
  constructor
  · intro i c hc A hA
    exact (correct.indexes i).absorbs hc hA
  · intro place c hc A hA
    exact (correct.shared place).absorbs hc hA

/-! ## A leaf comes again in another spelling -/

namespace Sample.Spelling

/-- Either spelling of the leaf, as it is read at the nodes 1 and 2. -/
def leaf : Bool → Tree
  | false => .node ⟨payload 1, [0xa1, 0x61, 0x76, 0x02], by decide +kernel⟩ []
  | true => .node ⟨payload 2, [0xa1, 0x61, 0x76, 0x02], by decide +kernel⟩ []

theorem reads_leaf : reader.Reads 1 (leaf false) ∧ reader.Reads 2 (leaf true) :=
  ⟨.node rfl rfl .nil, .node rfl rfl .nil⟩

theorem same_leaf : (leaf false).Same (leaf true) := .node rfl .nil

/-- The second call meets a collision. -/
def indexed : List (Operation .byLength) := [.insert 0 (input 0), .insert 0 (input 3)]

theorem exists_ledger_indexed :
    ∃ d : Inserted, Ledger.empty.performAll indexed =
      Ledger.empty.setIndex 0 d.index [(input 0, d.root)] := by
  have succeeds : ((input 0).insert ∅).toBool = true := by decide +kernel
  have collides : (((input 0).insert ∅).bind fun d => (input 3).insert d.index).toBool = false := by
    decide +kernel
  obtain ⟨d, inserted⟩ := exists_eq_ok succeeds
  rw [inserted] at collides
  refine ⟨d, ?_⟩
  rw [indexed, Ledger.performAll, List.foldl_cons, Ledger.perform_insert_ok inserted,
    List.foldl_cons]
  cases failed : (input 3).insert d.index with
  | error failure => exact Ledger.perform_insert_error failed
  | ok d' => simp [Except.bind, failed, Except.toBool] at collides

end Sample.Spelling

open Sample in
/-- The tree 0 has been indexed, which has the leaf in one spelling, and a call has failed.  Then
the leaf comes alone, in the other spelling. -/
theorem absorbs_performAll_spelling :
    ∃ c ∈ (Ledger.empty.performAll Spelling.indexed).trees 0,
      c.1.SubTree (Spelling.leaf false) ∧ (Spelling.leaf false).Same (Spelling.leaf true) ∧
      Spelling.indexer.Accepts 2 (Spelling.leaf true) ∧
      ((Session.empty.performAll Spelling.indexed).indexes 0).Confirms Spelling.indexer 2
        ((Spelling.leaf false).hash .byLength) := by
  obtain ⟨d, ledger⟩ := Spelling.exists_ledger_indexed
  have listed :
      (Spelling.input 0, d.root) ∈ (Ledger.empty.performAll Spelling.indexed).trees 0 := by
    rw [ledger]
    exact List.mem_singleton_self _
  have sub : (Spelling.input 0).SubTree (Spelling.leaf false) :=
    .of_child rfl List.mem_cons_self Spelling.reads_leaf.1.subTree
  have accepts : Spelling.indexer.Accepts 2 (Spelling.leaf true) :=
    ⟨Spelling.reads_leaf.2, List.forall_mem_nil _⟩
  have absorbs := (absorbs_performAll Spelling.indexed).1 0 _ listed _ sub
  exact ⟨_, listed, sub, Spelling.same_leaf, accepts,
    absorbs.confirms Spelling.indexer 2 _ rfl accepts Spelling.same_leaf⟩

end SubtermIndex
