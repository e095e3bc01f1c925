/-
# `SubtermIndex.Proofs.Index.Closed` — what holds of every index of trees

An index of trees is closed: every hash is the digest of what stands under it, the children of
every node are stored, the edges are those that the stored nodes show, and the shapes are those of
the stored payloads.

The entry under a hash need not be the one that has brought an edge or a shape.  But all entries
with one hash are written alike (`Consistent`), and what is written alike has the same children
and one shape (`IndexOf.exists_node`).

`Closed` is said in terms of what an index answers and of the digest.  Neither the trees nor the
calls occur in it, so that it can be checked of an index without knowing where that came from.
-/
import SubtermIndex.Proofs.Reached
import Mathlib.Data.Set.Card

namespace SubtermIndex

open Cbor Std

namespace Index

/-- Whether `c` is a child of the node that stands under `h`. -/
def Links (m : Index) (h c : NodeHash) : Prop := ∃ n, m.node? h = some n ∧ c ∈ n.children

/-- What holds of every index of trees. -/
structure Closed (H : Hasher) (m : Index) : Prop where
  /-- Every hash is the digest of the record that stands under it. -/
  digest : ∀ h n, m.node? h = some n → ∃ x, n.encodedRecord = .ok x ∧ h = ⟨H .node x⟩
  /-- The children of every node are stored. -/
  stored : ∀ h c, m.Links h c → m.contains c = true
  /-- The edges are those from the stored nodes to their children, seen from above, -/
  childSet : ∀ h c, c ∈ m.childSet h ↔ m.Links h c
  /-- from below, -/
  parentSet : ∀ h c, h ∈ m.parentSet c ↔ m.Links h c
  /-- and in number. -/
  edgeCount : m.edges.size = Set.ncard {edge : NodeHash × NodeHash | m.Links edge.1 edge.2}
  /-- Every stored hash has the shape of its payload, and no other one. -/
  shape : ∀ h n, m.node? h = some n →
    ∃ x, encode n.payload.toValue = .ok x ∧ ∀ s, h ∈ m.withShape s ↔ s = ⟨H .shape x⟩
  /-- Only stored hashes have shapes. -/
  shaped : ∀ s h, h ∈ m.withShape s → m.contains h = true
  /-- No shape is without hashes. -/
  nonempty : ∀ (s : Shape) (group : ExtTreeSet NodeHash), m.shapes[s]? = some group →
    ∃ h, h ∈ group

theorem mem_childSet {m : Index} {h c : NodeHash} :
    c ∈ m.childSet h ↔ m.edges.contains h c = true := Iff.rfl

theorem mem_parentSet {m : Index} (hm : m.WellFormed) {h c : NodeHash} :
    h ∈ m.parentSet c ↔ m.edges.contains h c = true := by
  rw [← hm.edges.converse]
  rfl

theorem mem_withShape {m : Index} {s : Shape} {h : NodeHash} :
    h ∈ m.withShape s ↔ Groups.hasMember m.shapes s h = true := Iff.rfl

theorem contains_of_node? {m : Index} {h : NodeHash} {n : Node} (there : m.node? h = some n) :
    m.contains h = true := by
  rw [contains, ExtTreeMap.contains_eq_isSome_getElem?]
  exact Option.isSome_of_eq_some there

theorem contains_iff {m : Index} {h : NodeHash} :
    m.contains h = true ↔ ∃ n, m.node? h = some n := by
  rw [contains, ExtTreeMap.contains_eq_isSome_getElem?, Option.isSome_iff_exists]
  rfl

theorem contains_union {m m' : Index} {h : NodeHash} :
    (m.union m').contains h = true ↔ m.contains h = true ∨ m'.contains h = true := by
  rw [contains_iff, contains_iff, contains_iff, node?_union]
  cases m.node? h with
  | none => simp
  | some n => simp

theorem mem_childSet_union {m m' : Index} {h c : NodeHash} :
    c ∈ (m.union m').childSet h ↔ c ∈ m.childSet h ∨ c ∈ m'.childSet h := by
  rw [mem_childSet, mem_childSet, mem_childSet, Index.union, PairSet.contains_union,
    Bool.or_eq_true]

theorem mem_withShape_union {m m' : Index} {s : Shape} {h : NodeHash} :
    h ∈ (m.union m').withShape s ↔ h ∈ m.withShape s ∨ h ∈ m'.withShape s := by
  rw [mem_withShape, mem_withShape, mem_withShape, Index.union, Groups.hasMember_merge,
    Bool.or_eq_true]

end Index

namespace IndexOf

variable {H : Hasher} {Ts : List Tree} {m : Index}

theorem exists_entry (index : IndexOf H Ts m) {h : NodeHash} {n : Node}
    (there : m.node? h = some n) :
    ∃ e ∈ Ts.flatMap (Tree.entries H), e.node = n ∧ e.hash H = h :=
  (Index.extendsAll_of_putAll index).exists_entry there

/-- Under the hash of an entry stands an entry with the same children and an equally encoded
payload. -/
theorem exists_node (index : IndexOf H Ts m) (fits : ∀ T ∈ Ts, T.Fits) {e : Entry}
    (he : e ∈ Ts.flatMap (Tree.entries H)) :
    ∃ f ∈ Ts.flatMap (Tree.entries H), m.node? (e.hash H) = some f.node ∧
      f.label.code = e.label.code ∧ f.children = e.children := by
  have small {e : Entry} (he : e ∈ Ts.flatMap (Tree.entries H)) : e.label.fits := by
    obtain ⟨T, hT, he⟩ := List.mem_flatMap.mp he
    obtain ⟨A, hA, rfl⟩ := Tree.mem_entries.mp he
    exact fits T hT A hA
  obtain ⟨f, hf, hash, there⟩ := (Index.extendsAll_of_putAll index).exists_node he
  obtain ⟨code, children⟩ :=
    Entry.record_inj (small hf) (small he) (index.consistent f hf e he hash)
  exact ⟨f, hf, there, code, children⟩

theorem contains_edges (index : IndexOf H Ts m) (fits : ∀ T ∈ Ts, T.Fits) {h c : NodeHash} :
    m.edges.contains h c = true ↔ m.Links h c := by
  have none : (∅ : Index).edges.contains h c = false := PairSet.contains_empty h c
  rw [(Index.extendsAll_of_putAll index).edges, none]
  constructor
  · rintro (absurd | ⟨e, he, rfl, hc⟩)
    · simp at absurd
    · obtain ⟨f, -, there, -, children⟩ := index.exists_node fits he
      rw [← children] at hc
      exact ⟨f.node, there, hc⟩
  · rintro ⟨n, there, hc⟩
    obtain ⟨e, he, rfl, hash⟩ := index.exists_entry there
    exact .inr ⟨e, he, hash, hc⟩

theorem hasMember_shapes (index : IndexOf H Ts m) (fits : ∀ T ∈ Ts, T.Fits) {s : Shape}
    {h : NodeHash} :
    Groups.hasMember m.shapes s h = true ↔
      ∃ n, m.node? h = some n ∧ H.shapeOf n.payload = .ok s := by
  have none : Groups.hasMember (∅ : Index).shapes s h = false := Groups.hasMember_empty s h
  rw [(Index.extendsAll_of_putAll index).shapes, none]
  constructor
  · rintro (absurd | ⟨e, he, rfl, rfl⟩)
    · simp at absurd
    · obtain ⟨f, -, there, code, -⟩ := index.exists_node fits he
      refine ⟨f.node, there, ?_⟩
      rw [f.shapeOf, Entry.shape, Entry.shape, code]
  · rintro ⟨n, there, shape⟩
    obtain ⟨e, he, rfl, hash⟩ := index.exists_entry there
    rw [e.shapeOf] at shape
    exact .inr ⟨e, he, Except.ok.inj shape, hash⟩

theorem exists_child (index : IndexOf H Ts m) (fits : ∀ T ∈ Ts, T.Fits) {h c : NodeHash}
    (link : m.Links h c) : ∃ n, m.node? c = some n := by
  obtain ⟨n, there, hc⟩ := link
  obtain ⟨e, he, rfl, rfl⟩ := index.exists_entry there
  obtain ⟨T, hT, he⟩ := List.mem_flatMap.mp he
  obtain ⟨A, hA, rfl⟩ := Tree.mem_entries.mp he
  obtain ⟨C, hC, rfl⟩ := List.mem_map.mp hc
  have sub : C ∈ T.subtrees := by
    refine Tree.mem_subtrees_trans ?_ hA
    cases A with
    | node l children => exact Tree.mem_subtrees_of_mem hC C.mem_subtrees_self
  have stored : C.entry H ∈ Ts.flatMap (Tree.entries H) :=
    List.mem_flatMap.mpr ⟨T, hT, Tree.mem_entries.mpr ⟨C, sub, rfl⟩⟩
  obtain ⟨f, -, there, -⟩ := index.exists_node fits stored
  rw [C.hash_eq]
  exact ⟨f.node, there⟩

theorem closed (index : IndexOf H Ts m) (fits : ∀ T ∈ Ts, T.Fits) : m.Closed H where
  digest h n there := by
    obtain ⟨e, -, rfl, hash⟩ := index.exists_entry there
    exact ⟨e.record, e.encodedRecord, hash.symm⟩
  stored h c link := by
    obtain ⟨n, there⟩ := index.exists_child fits link
    exact Index.contains_of_node? there
  childSet h c := by
    rw [Index.mem_childSet, index.contains_edges fits]
  parentSet h c := by
    rw [Index.mem_parentSet index.wellFormed, index.contains_edges fits]
  edgeCount := by
    have edges : {edge : NodeHash × NodeHash | m.Links edge.1 edge.2} =
        (m.edges.toList.toFinset : Set (NodeHash × NodeHash)) := by
      ext edge
      rw [List.coe_toFinset]
      exact (PairSet.mem_toList.trans (index.contains_edges fits)).symm
    rw [edges, Set.ncard_coe_finset, List.toFinset_card_of_nodup (PairSet.nodup_toList m.edges)]
    exact index.wellFormed.edges.size
  shape h n there := by
    obtain ⟨e, he, rfl, rfl⟩ := index.exists_entry there
    refine ⟨e.label.code, e.label.written, ?_⟩
    intro s
    rw [Index.mem_withShape, index.hasMember_shapes fits]
    constructor
    · rintro ⟨n, there', shape⟩
      obtain rfl := Option.some.inj (there.symm.trans there')
      exact Except.ok.inj (shape.symm.trans (e.shapeOf H))
    · rintro rfl
      exact ⟨e.node, there, e.shapeOf H⟩
  shaped s h member := by
    rw [Index.mem_withShape, index.hasMember_shapes fits] at member
    obtain ⟨n, there, -⟩ := member
    exact Index.contains_of_node? there
  nonempty s group there := index.wellFormed.shapes s group there

end IndexOf

end SubtermIndex
