/-
# `SubtermIndex.Proofs.Contribution` — what one call adds to an index

A call walks its tree into an index of its own and merges that.  Whatever was in the index before,
what the call adds can be read off the tree: the hashes of the sub-trees, the edges from every
sub-tree to its children and the shapes of the payloads.  Nothing else is added, and nothing goes
away (`Index.Grown.extendsByTree_of_insert`).

The node under the hash of a sub-tree may be an older one, which another call has stored with
another spelling of the payload or by another digest.  But the call has compared the two records,
and a record tells the children and their places, as long as the payloads in the index are not
beyond all bounds (`Legible`).

Whatever calls have filled the index is said by `Grown`: any inputs, under any digests, in any of
the ways in which a tree is put into an index, and merges.  That an index is legible is kept by
each of these, since every input has payloads of this kind.
-/
import SubtermIndex.Proofs.Index.Closed

namespace SubtermIndex

open Cbor

namespace Index

/-! ## Indexes whose records can be read back -/

/-- Whether every payload in the index has lengths of 64 bits only, so that its node can be
read back from its record. -/
structure Legible (m : Index) : Prop where
  wellFormed : m.WellFormed
  fits : ∀ h n, m.node? h = some n → n.payload.toValue.fits = true

theorem legible_empty : Legible ∅ where
  wellFormed := wellFormed_empty
  fits h n there := by simp at there

theorem Legible.putAll {H : Hasher} {m m' : Index} {E : List Entry} (hm : m.Legible)
    (small : ∀ e ∈ E, e.label.fits) (all : m.putAll H E = .ok m') : m'.Legible := by
  have more := extendsAll_of_putAll all
  refine ⟨more.wellFormed hm.wellFormed, ?_⟩
  intro h n there
  rw [more.node?, Option.or_eq_some_iff] at there
  rcases there with old | ⟨-, new⟩
  · exact hm.fits h n old
  · obtain ⟨e, found, rfl⟩ := Option.map_eq_some_iff.mp new
    exact small e (List.mem_of_find?_eq_some found)

theorem Legible.merge {m m' merged : Index} (hm : m.Legible) (hm' : m'.Legible)
    (union : m.merge m' = .ok merged) : merged.Legible := by
  obtain rfl := eq_union_of_merge union
  refine ⟨hm.wellFormed.union hm'.wellFormed, ?_⟩
  intro h n there
  rw [node?_union, Option.or_eq_some_iff] at there
  rcases there with left | ⟨-, right⟩
  · exact hm.fits h n left
  · exact hm'.fits h n right

/-! ## Indexes that calls have filled -/

/-- An index that is reached by calls, with whatever digests. -/
inductive Grown : Index → Prop
  | empty : Grown ∅
  | insert {H : Hasher} {m : Index} {d : Inserted} (x : Input H) :
      Grown m → x.insert m = .ok d → Grown d.index
  | insertSplit {H : Hasher} {m : Index} {d : Inserted} (x : Input H) :
      Grown m → x.insertSplit m = .ok d → Grown d.index
  | insertShared {H : Hasher} {s s' : SharedIndex} {d : Inserted} (x : Input H) :
      Grown s.contents → x.insertShared s = .ok (d, s') → Grown s'.contents
  | merge {m m' merged : Index} : Grown m → Grown m' → m.merge m' = .ok merged → Grown merged

theorem Legible.insert {H : Hasher} {m : Index} {x : Input H} {d : Inserted} (hm : m.Legible)
    (inserted : x.insert m = .ok d) : d.index.Legible := by
  obtain ⟨T, reads, -, all⟩ := Input.exists_tree_of_insert hm.wellFormed inserted
  refine hm.putAll ?_ all
  intro e he
  obtain ⟨A, hA, rfl⟩ := Tree.mem_entries.mp he
  exact reads.fits A hA

theorem Grown.legible {m : Index} (grown : m.Grown) : m.Legible := by
  induction grown with
  | empty => exact legible_empty
  | insert x _ inserted ih => exact ih.insert inserted
  | insertSplit x _ inserted ih => exact ih.insert (x.indexer.insertSplit_eq_ok_iff.mp inserted)
  | insertShared x _ inserted ih =>
      obtain ⟨inserted, contents⟩ := insertShared_eq_ok inserted
      rw [contents]
      exact ih.insert inserted
  | merge _ _ union ih ih' => exact ih.merge ih' union

/-! ## What a tree adds -/

/-- What an index answers after a tree has been put into it. -/
structure ExtendsByTree (H : Hasher) (m : Index) (T : Tree) (m' : Index) : Prop where
  /-- The hashes of the sub-trees are stored beside those that were stored before, -/
  contains : ∀ h, m'.contains h = true ↔
    m.contains h = true ∨ ∃ A ∈ T.subtrees, A.hash H = h
  /-- and what stood under a hash before stands there still. -/
  kept : ∀ h n, m.node? h = some n → m'.node? h = some n
  /-- The node of a sub-tree has the sub-tree's payload, up to spelling, and the hashes of all
  its children, in order and with repeats. -/
  node? : ∀ A ∈ T.subtrees, ∃ n, m'.node? (A.hash H) = some n ∧
    encode n.payload.toValue = .ok A.label.code ∧ n.children = A.children.map (Tree.hash H)
  /-- The edges that are new lead from the sub-trees to their children, seen from above -/
  childSet : ∀ h k, k ∈ m'.childSet h ↔
    k ∈ m.childSet h ∨ ∃ A ∈ T.subtrees, A.hash H = h ∧ ∃ C ∈ A.children, C.hash H = k
  /-- and from below. -/
  parentSet : ∀ h k, h ∈ m'.parentSet k ↔
    h ∈ m.parentSet k ∨ ∃ A ∈ T.subtrees, A.hash H = h ∧ ∃ C ∈ A.children, C.hash H = k
  /-- The hash of every sub-tree is counted among those of its payload's shape. -/
  withShape : ∀ s h, h ∈ m'.withShape s ↔
    h ∈ m.withShape s ∨ ∃ A ∈ T.subtrees, A.shape H = s ∧ A.hash H = h

section

variable {H : Hasher} {m m' : Index} {E : List Entry} {T : Tree}

theorem ExtendsAll.contains (all : ExtendsAll H m E m') {h : NodeHash} :
    m'.contains h = true ↔ m.contains h = true ∨ ∃ e ∈ E, e.hash H = h := by
  have listed : (∃ n, ((E.find? fun e => e.hash H = h).map Entry.node) = some n) ↔
      ∃ e ∈ E, e.hash H = h := by
    rw [← Option.isSome_iff_exists, Option.isSome_map, List.find?_isSome]
    simp only [decide_eq_true_eq]
  rw [contains_iff, contains_iff, ← listed, all.node?]
  cases m.node? h with
  | none => simp
  | some n => simp

/-- Under the hash of an entry that has been put stands a node with the same record. -/
theorem ExtendsAll.exists_record (all : ExtendsAll H m E m') (agrees : ∀ e ∈ E, m.Agrees H e)
    (consistent : Consistent H E) {e : Entry} (he : e ∈ E) :
    ∃ n, m'.node? (e.hash H) = some n ∧ n.encodedRecord = .ok e.record := by
  cases old : m.node? (e.hash H) with
  | some n =>
      refine ⟨n, ?_, agrees e he n old⟩
      rw [all.node?, old, Option.some_or]
  | none =>
      obtain ⟨f, hf, hash, found⟩ := exists_find?_hash he
      refine ⟨f.node, ?_, ?_⟩
      · rw [all.node?, old, Option.none_or, found, Option.map_some]
      · rw [f.encodedRecord, consistent f hf e he hash]

/-- A node of a legible index that has the record of an entry has its children, and a payload
that is encoded like the entry's. -/
theorem Legible.node_of_record (hm : m.Legible) {h : NodeHash} {n : Node}
    (there : m.node? h = some n) {e : Entry} (small : e.label.fits)
    (record : n.encodedRecord = .ok e.record) :
    encode n.payload.toValue = .ok e.label.code ∧ n.children = e.children := by
  obtain ⟨code, written, same⟩ := Node.encodedRecord_eq_ok.mp record
  obtain ⟨equal, children⟩ :=
    recordBytes_inj (l := ⟨n.payload, code, written⟩) (hm.fits h n there) small same.symm
  rw [written, ← children]
  exact ⟨congrArg Except.ok equal, rfl⟩

theorem exists_mem_entries {P : Entry → Prop} :
    (∃ e ∈ T.entries H, P e) ↔ ∃ A ∈ T.subtrees, P (A.entry H) := by
  simp only [Tree.mem_entries, exists_exists_and_eq_and]

theorem extendsByTree_of_putAll (hm : m.Legible) (hT : T.Fits)
    (all : m.putAll H (T.entries H) = .ok m') : m.ExtendsByTree H T m' := by
  have more := extendsAll_of_putAll all
  obtain ⟨agrees, consistent⟩ := putAll_isOk_iff.mp ⟨m', all⟩
  have small : ∀ e ∈ T.entries H, e.label.fits := by
    intro e he
    obtain ⟨A, hA, rfl⟩ := Tree.mem_entries.mp he
    exact hT A hA
  have edges (h k : NodeHash) : m'.edges.contains h k = true ↔ m.edges.contains h k = true ∨
      ∃ A ∈ T.subtrees, A.hash H = h ∧ ∃ C ∈ A.children, C.hash H = k := by
    rw [more.edges, exists_mem_entries]
    simp only [← Tree.hash_eq]
    simp only [Tree.entry, List.mem_map]
  refine ⟨?_, ?_, ?_, ?_, ?_, ?_⟩
  · intro h
    rw [more.contains, exists_mem_entries]
    simp only [← Tree.hash_eq]
  · intro h n there
    rw [more.node?, there, Option.some_or]
  · intro A hA
    have he : A.entry H ∈ T.entries H := Tree.mem_entries.mpr ⟨A, hA, rfl⟩
    -- the node that stands there may be an older one, with the same record bytes
    obtain ⟨n, there, record⟩ := more.exists_record agrees consistent he
    obtain ⟨code, children⟩ := (hm.putAll small all).node_of_record there (small _ he) record
    rw [A.hash_eq]
    exact ⟨n, there, code, children⟩
  · intro h k
    exact edges h k
  · intro h k
    rw [mem_parentSet (more.wellFormed hm.wellFormed), mem_parentSet hm.wellFormed]
    exact edges h k
  · intro s h
    rw [mem_withShape, mem_withShape, more.shapes, exists_mem_entries]
    simp only [← Tree.hash_eq, Tree.shape_entry]

/-- A call that succeeds answers the hash of its tree, and adds what the tree has: hashes, edges
and shapes of its sub-trees.  Whatever calls have filled the index before, all that was in it
stays, and nothing else comes in. -/
theorem Grown.extendsByTree_of_insert (grown : m.Grown) {x : Input H} {d : Inserted}
    (inserted : x.insert m = .ok d) :
    ∃ T, x.Reads T ∧ d.root = T.hash H ∧ m.ExtendsByTree H T d.index := by
  obtain ⟨T, reads, root, all⟩ :=
    Input.exists_tree_of_insert grown.legible.wellFormed inserted
  exact ⟨T, reads, root, extendsByTree_of_putAll grown.legible reads.fits all⟩

open Sample in
/-- The leaf 2 is in the index when the tree 0 comes, which spells it in another way and has it
below it twice. -/
theorem Grown.extendsByTree_of_insert_spelling :
    ∃ leaf tree : Inserted, leaf.index.Grown ∧ (Spelling.input 0).insert leaf.index = .ok tree ∧
      ∃ T, (Spelling.input 0).Reads T ∧ tree.root = T.hash .byLength ∧
        leaf.index.ExtendsByTree .byLength T tree.index := by
  have succeeds : (((Spelling.input 2).insert ∅).bind fun leaf =>
      (Spelling.input 0).insert leaf.index).toBool = true := by decide +kernel
  cases first : (Spelling.input 2).insert ∅ with
  | error failure => simp [first, Except.bind, Except.toBool] at succeeds
  | ok leaf =>
      rw [first] at succeeds
      obtain ⟨tree, second⟩ := exists_eq_ok succeeds
      have grown : leaf.index.Grown := .insert (Spelling.input 2) .empty first
      exact ⟨leaf, tree, grown, second, grown.extendsByTree_of_insert second⟩

end

end Index

end SubtermIndex
