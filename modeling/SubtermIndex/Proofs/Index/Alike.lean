/-
# `SubtermIndex.Proofs.Index.Alike` — indexes with the same contents stay so

Two indexes with the same contents may spell payloads in different ways.  Whatever is done to
both, they cannot be told apart: a node collides in the one exactly if one with the same record
collides in the other, a merge conflicts with the one exactly if it conflicts with the other, and
on the same hash.  As long as nothing fails the contents stay the same, and so do all counts.

There is one lemma for each thing that can be done to an index.  In what is added the spelling may
differ too: the two nodes need the same record, and the two indexes that are merged the same
contents.
-/
import SubtermIndex.Proofs.Index.Contents
import SubtermIndex.Proofs.Index.Records

namespace SubtermIndex.Index

open Cbor Std

theorem SameContents.refl (m : Index) : m.SameContents m := ⟨fun _ => rfl, rfl, rfl⟩

variable {m m' : Index}

/-- Where one index has a node, the other one has a node with the same record. -/
theorem SameContents.exists_node (same : m.SameContents m') {h : NodeHash} {n : Node}
    (there : m.node? h = some n) :
    ∃ n', m'.node? h = some n' ∧ n.encodedRecord = n'.encodedRecord := by
  have record := same.records h
  rw [there, Option.map_some] at record
  obtain ⟨n', there', alike⟩ := Option.map_eq_some_iff.mp record.symm
  exact ⟨n', there', alike.symm⟩

theorem SameContents.node?_eq_none (same : m.SameContents m') {h : NodeHash}
    (free : m.node? h = none) : m'.node? h = none := by
  have record := same.records h
  rw [free, Option.map_none] at record
  exact Option.map_eq_none_iff.mp record.symm

theorem SameContents.symm (same : m.SameContents m') : m'.SameContents m :=
  ⟨fun h => (same.records h).symm, same.shapes.symm, same.edges.symm⟩

/-! ## Sizes -/

theorem SameContents.size_nodes (same : m.SameContents m') : m.nodes.size = m'.nodes.size := by
  rw [← size_recordMap, ← size_recordMap, same.recordMap_eq]

theorem SameContents.between {before before' : Index} (same : before.SameContents before')
    (same' : m.SameContents m') : Gain.between before m = .between before' m' := by
  rw [Gain.between, Gain.between, same.size_nodes, same'.size_nodes, same.shapes, same'.shapes,
    same.edges, same'.edges]

/-! ## Adding a node -/

theorem SameContents.addShape (same : m.SameContents m') (s : Shape) (h : NodeHash) :
    (m.addShape s h).SameContents (m'.addShape s h) where
  records := same.records
  shapes := by rw [Index.addShape, Index.addShape, same.shapes]
  edges := same.edges

theorem SameContents.addEdges (same : m.SameContents m') (h : NodeHash)
    (children : List NodeHash) :
    (m.addEdges h children).SameContents (m'.addEdges h children) where
  records := same.records
  shapes := same.shapes
  edges := by rw [Index.addEdges, Index.addEdges, same.edges]

theorem SameContents.insertNode (same : m.SameContents m') (h : NodeHash) {n n' : Node}
    (alike : n.encodedRecord = n'.encodedRecord) :
    SameContents { m with nodes := m.nodes.insert h n } { m' with nodes := m'.nodes.insert h n' }
    where
  records k := by
    rw [node?, node?, ExtTreeMap.getElem?_insert, ExtTreeMap.getElem?_insert]
    split
    · rw [Option.map_some, Option.map_some, alike]
    · exact same.records k
  shapes := same.shapes
  edges := same.edges

/-- Nodes with one record are stored in both indexes, or collide in both. -/
theorem SameContents.store? (same : m.SameContents m') (h : NodeHash) {n n' : Node} {x : Bytes}
    (record : n.encodedRecord = .ok x) (record' : n'.encodedRecord = .ok x) :
    Option.Rel (EqWith SameContents) (m.store? h n) (m'.store? h n') := by
  rw [Index.store?, Index.store?]
  cases there : m.nodes[h]? with
  | none =>
      rw [show m'.nodes[h]? = none from same.node?_eq_none there]
      exact .some ⟨rfl, same.insertNode h (record.trans record'.symm)⟩
  | some old =>
      obtain ⟨old', there', alike⟩ := same.exists_node there
      rw [show m'.nodes[h]? = some old' from there']
      have iff : old.sameStructure n = true ↔ old'.sameStructure n' = true := by
        rw [Node.sameStructure_iff record, Node.sameStructure_iff record', alike]
      simp only [Bool.eq_iff_iff.mpr iff]
      split
      · exact .some ⟨rfl, same⟩
      · exact .none

/-! ## Merging -/

variable {incoming incoming' : Index}

theorem SameContents.differs (same : m.SameContents m') (same' : incoming.SameContents incoming')
    {h : NodeHash} (differs : m.Differs incoming h) : m'.Differs incoming' h := by
  obtain ⟨a, b, left, right, different⟩ := differs
  obtain ⟨a', left', recordA⟩ := same.exists_node left
  obtain ⟨b', right', recordB⟩ := same'.exists_node right
  exact ⟨a', b', left', right', by rwa [← recordA, ← recordB]⟩

theorem SameContents.differs_iff (same : m.SameContents m')
    (same' : incoming.SameContents incoming') (h : NodeHash) :
    m.Differs incoming h ↔ m'.Differs incoming' h :=
  ⟨same.differs same', same.symm.differs same'.symm⟩

theorem SameContents.union (same : m.SameContents m') (same' : incoming.SameContents incoming') :
    (m.union incoming).SameContents (m'.union incoming') where
  records h := by
    rw [node?_union, node?_union, Option.map_or, Option.map_or, same.records, same'.records]
  shapes := by rw [Index.union, Index.union, same.shapes, same'.shapes]
  edges := by rw [Index.union, Index.union, same.edges, same'.edges]

theorem SameContents.written (same : m.SameContents m') (written : m.Written) : m'.Written := by
  intro h n there
  obtain ⟨n', there', alike⟩ := same.symm.exists_node there
  rw [alike]
  exact written h n' there'

/-- Merges into indexes with the same contents conflict on the same hash, if they do. -/
theorem SameContents.merge (same : m.SameContents m') (same' : incoming.SameContents incoming')
    (written : incoming.Written) :
    EndAlike SameContents (m.merge incoming) (m'.merge incoming') := by
  have written' := same'.written written
  cases result : m.merge incoming with
  | error h =>
      have conflict := written.merge_eq_error_iff.mp result
      simp only [same.differs_iff same'] at conflict
      rw [written'.merge_eq_error_iff.mpr conflict]
      exact .error h
  | ok merged =>
      obtain ⟨free, rfl⟩ := written.merge_eq_ok_iff.mp result
      simp only [same.differs_iff same'] at free
      rw [written'.merge_eq_ok_iff.mpr ⟨free, rfl⟩]
      exact .ok (same.union same')

end SubtermIndex.Index
