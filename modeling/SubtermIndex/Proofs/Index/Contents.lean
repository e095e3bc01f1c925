/-
# `SubtermIndex.Proofs.Index.Contents` — what an index holds, whichever spelling came first

Two indexes have the same contents if they differ at most in how payloads are spelled: under every
hash stands the same record, and shapes and edges are equal.  That is all that a fingerprint can
tell (`SameContents.fingerprint_eq`).

What an index of trees holds depends only on which entries its trees have, not on their order or
their number (`IndexOf.sameContents`).  Which of several spellings of a node is kept does depend
on the order; its record is the same for all of them.
-/
import SubtermIndex.Index.Fingerprint
import SubtermIndex.Proofs.Index.Closed

namespace SubtermIndex

open Cbor Std

namespace Index

/-- Whether two indexes hold the same records under the same hashes, and the same shapes and
edges. -/
structure SameContents (m m' : Index) : Prop where
  records : ∀ h, (m.node? h).map Node.encodedRecord = (m'.node? h).map Node.encodedRecord
  shapes : m.shapes = m'.shapes
  edges : m.edges = m'.edges

def recordMap (m : Index) : ExtTreeMap NodeHash (Except EncodeError Bytes) :=
  m.nodes.map fun _ n => n.encodedRecord

theorem getElem?_recordMap (m : Index) (h : NodeHash) :
    m.recordMap[h]? = (m.node? h).map Node.encodedRecord :=
  ExtTreeMap.getElem?_map

theorem SameContents.recordMap_eq {m m' : Index} (same : m.SameContents m') :
    m.recordMap = m'.recordMap := by
  apply ExtTreeMap.ext_getElem?
  intro h
  rw [getElem?_recordMap, getElem?_recordMap, same.records]

theorem mapM_nodeBytes (m : Index) :
    m.nodes.toList.mapM nodeBytes = m.recordMap.toList.mapM fun entry =>
      entry.2.map fun record => entry.1.bytes ++ countBytes record.length ++ record := by
  rw [recordMap, ExtTreeMap.toList_map, List.mapM_map]
  rfl

theorem size_recordMap (m : Index) : m.recordMap.size = m.nodes.size :=
  ExtTreeMap.size_map

theorem SameContents.stream_eq {m m' : Index} (same : m.SameContents m') :
    m.stream = m'.stream := by
  rw [stream, stream, mapM_nodeBytes, mapM_nodeBytes, ← size_recordMap, ← size_recordMap,
    same.recordMap_eq, same.shapes, same.edges]

/-- A fingerprint does not tell how payloads are spelled. -/
theorem SameContents.fingerprint_eq {m m' : Index} (same : m.SameContents m') :
    m.fingerprint = m'.fingerprint := by
  rw [fingerprint, fingerprint, same.stream_eq]

theorem exists_fingerprint {m : Index}
    (written : ∀ h n, m.node? h = some n → ∃ x, n.encodedRecord = .ok x) :
    ∃ d, m.fingerprint = .ok d := by
  have nodes : ∃ parts, m.nodes.toList.mapM nodeBytes = .ok parts := by
    refine exists_mapM ?_
    rintro ⟨h, n⟩ listed
    obtain ⟨x, record⟩ := written h n (ExtTreeMap.mem_toList_iff_getElem?_eq_some.mp listed)
    rw [nodeBytes, record]
    exact ⟨_, rfl⟩
  obtain ⟨parts, nodes⟩ := nodes
  rw [fingerprint, stream, nodes]
  exact ⟨_, rfl⟩

end Index

namespace IndexOf

variable {H : Hasher} {Ts Us : List Tree} {m m' : Index}

theorem exists_fingerprint (index : IndexOf H Ts m) : ∃ d, m.fingerprint = .ok d := by
  refine Index.exists_fingerprint ?_
  intro h n there
  obtain ⟨e, -, rfl, -⟩ := index.exists_entry there
  exact ⟨e.record, e.encodedRecord⟩

/-- Where one index has a node, an index of the same entries has one with the same record. -/
theorem exists_record (index : IndexOf H Ts m) (index' : IndexOf H Us m')
    (same : ∀ e, e ∈ Ts.flatMap (Tree.entries H) ↔ e ∈ Us.flatMap (Tree.entries H))
    {h : NodeHash} {n : Node} (there : m.node? h = some n) :
    ∃ n', m'.node? h = some n' ∧ n'.encodedRecord = n.encodedRecord := by
  obtain ⟨e, he, rfl, rfl⟩ := index.exists_entry there
  obtain ⟨f, hf, hash, there'⟩ :=
    (Index.extendsAll_of_putAll index').exists_node ((same e).mp he)
  refine ⟨f.node, there', ?_⟩
  rw [f.encodedRecord, e.encodedRecord, index'.consistent f hf e ((same e).mp he) hash]

/-- Indexes of the same entries have the same contents. -/
theorem sameContents (index : IndexOf H Ts m) (index' : IndexOf H Us m')
    (same : ∀ e, e ∈ Ts.flatMap (Tree.entries H) ↔ e ∈ Us.flatMap (Tree.entries H)) :
    m.SameContents m' where
  records h := by
    cases there : m.node? h with
    | some n =>
        obtain ⟨n', there', record⟩ := index.exists_record index' same there
        rw [there', Option.map_some, Option.map_some, record]
    | none =>
        -- a node of the other index alone comes from an entry, and this index has all entries
        cases there' : m'.node? h with
        | none => rfl
        | some n' =>
            obtain ⟨n, found, -⟩ := index'.exists_record index (fun e => (same e).symm) there'
            rw [there] at found
            cases found
  shapes := by
    refine index.wellFormed.shapes.ext index'.wellFormed.shapes ?_
    intro s h
    rw [Bool.eq_iff_iff, (Index.extendsAll_of_putAll index).shapes,
      (Index.extendsAll_of_putAll index').shapes]
    simp only [same]
  edges := by
    refine index.wellFormed.edges.ext index'.wellFormed.edges ?_
    intro h c
    rw [Bool.eq_iff_iff, (Index.extendsAll_of_putAll index).edges,
      (Index.extendsAll_of_putAll index').edges]
    simp only [same]

end IndexOf

end SubtermIndex
