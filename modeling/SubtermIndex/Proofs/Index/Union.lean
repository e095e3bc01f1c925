/-
# `SubtermIndex.Proofs.Index.Union` — a merge is a checked union

Whatever calls have filled two indexes, with whatever digests, merging them fails exactly if they
hold different records under one hash, and then it names the least such hash.  If it does not
fail, it unites the three maps, the left index keeping its nodes, and its counts are the numbers
of hashes, members of shapes and edges that only the right index had (`Filled.checkedUnion`).

The counts are said as numbers of elements of sets, and the program computes them as differences
of sizes.  In between stands that a map has as many entries as the set of its keys has elements,
and that a union adds to the left set what is not in it (`encard_gain`).
-/
import SubtermIndex.Proofs.Index.Records
import SubtermIndex.Proofs.Index.Tally
import SubtermIndex.Proofs.Index.Closed

namespace SubtermIndex.Index

open Std

/-- What is left when `incoming` has been merged into `m`, and the count of what is new. -/
structure Unites (m incoming merged : Index) (gain : Gain) : Prop where
  /-- Every node of `m` stays, -/
  kept : ∀ h n, m.node? h = some n → merged.node? h = some n
  /-- and under every other hash stands what stands there in `incoming`. -/
  new : ∀ h, m.node? h = none → merged.node? h = incoming.node? h
  withShape : ∀ s h, h ∈ merged.withShape s ↔ h ∈ m.withShape s ∨ h ∈ incoming.withShape s
  childSet : ∀ h c, c ∈ merged.childSet h ↔ c ∈ m.childSet h ∨ c ∈ incoming.childSet h
  /-- Nothing else is in the three maps. -/
  wellFormed : merged.WellFormed
  nodes : {h | incoming.contains h = true ∧ ¬ m.contains h = true}.encard = gain.nodes
  shapeMembers : {p : Shape × NodeHash |
    p.2 ∈ incoming.withShape p.1 ∧ p.2 ∉ m.withShape p.1}.encard = gain.shapeMembers
  edges : {p : NodeHash × NodeHash |
    p.2 ∈ incoming.childSet p.1 ∧ p.2 ∉ m.childSet p.1}.encard = gain.edges
  /-- Nothing is new exactly if all three maps are as they were. -/
  isNone : gain.isNone = true ↔ merged = m

/-! ## Sizes -/

theorem encard_of_nodup {α : Type} {l : List α} (nodup : l.Nodup) {s : Set α}
    (listed : ∀ a, a ∈ l ↔ a ∈ s) : s.encard = l.length := by
  classical
  obtain rfl : s = l.toFinset := by
    ext a
    simp [listed]
  rw [Set.encard_coe_eq_coe_finsetCard, List.toFinset_card_of_nodup nodup]

theorem encard_sdiff {α : Type} {s t : Set α} {a b : Nat} (hs : s.encard = a) (ht : t.encard = b)
    (sub : s ⊆ t) : (t \ s).encard = (b - a : Nat) := by
  rw [Set.encard_sdiff sub (Set.finite_of_encard_eq_coe hs), hs, ht]
  exact (ENat.natCast_sub b a).symm

theorem encard_hashes (m : Index) : {h | m.contains h = true}.encard = m.nodes.size := by
  rw [← ExtTreeMap.length_keys]
  refine encard_of_nodup ExtTreeMap.nodup_keys ?_
  intro h
  exact ExtTreeMap.mem_keys

theorem encard_members (m : Index) :
    {p : Shape × NodeHash | p.2 ∈ m.withShape p.1}.encard = Groups.memberCount m.shapes := by
  rw [Groups.memberCount_eq_length]
  refine encard_of_nodup (Groups.nodup_pairs m.shapes) ?_
  rintro ⟨s, h⟩
  exact Groups.mem_pairs

theorem encard_edges {m : Index} (hm : m.WellFormed) :
    {p : NodeHash × NodeHash | p.2 ∈ m.childSet p.1}.encard = m.edges.size := by
  rw [hm.edges.size]
  refine encard_of_nodup (PairSet.nodup_toList m.edges) ?_
  rintro ⟨h, c⟩
  exact PairSet.mem_toList

/-! ## The union -/

variable {m incoming : Index}

/-- A set that only gains members gains those that it lacked. -/
theorem encard_gain {α : Type} {s t u : Set α} {a b : Nat} (hs : s.encard = a) (hu : u.encard = b)
    (union : ∀ x, x ∈ u ↔ x ∈ s ∨ x ∈ t) :
    {x | x ∈ t ∧ x ∉ s}.encard = (b - a : Nat) := by
  rw [← encard_sdiff hs hu fun x hx => (union x).mpr (.inl hx)]
  congr 1
  ext x
  rw [Set.mem_sdiff, union, Set.mem_ofPred_eq]
  tauto

theorem encard_newHashes (m incoming : Index) :
    {h | incoming.contains h = true ∧ ¬ m.contains h = true}.encard =
      (Gain.between m (m.union incoming)).nodes := by
  refine encard_gain (encard_hashes m) (encard_hashes (m.union incoming)) ?_
  intro h
  exact contains_union

theorem encard_newMembers (m incoming : Index) :
    {p : Shape × NodeHash | p.2 ∈ incoming.withShape p.1 ∧ p.2 ∉ m.withShape p.1}.encard =
      (Gain.between m (m.union incoming)).shapeMembers := by
  refine encard_gain (encard_members m) (encard_members (m.union incoming)) ?_
  intro p
  exact mem_withShape_union

theorem encard_newEdges (hm : m.WellFormed) (hi : incoming.WellFormed) :
    {p : NodeHash × NodeHash | p.2 ∈ incoming.childSet p.1 ∧ p.2 ∉ m.childSet p.1}.encard =
      (Gain.between m (m.union incoming)).edges := by
  refine encard_gain (encard_edges hm) (encard_edges (hm.union hi)) ?_
  intro p
  exact mem_childSet_union

theorem forall_of_encard_eq_zero {α : Type} {s t : Set α} {n : Nat}
    (new : {x | x ∈ t ∧ x ∉ s}.encard = n) (zero : n = 0) : ∀ x ∈ t, x ∈ s := by
  subst zero
  intro x hx
  by_contra hs
  have none := Set.encard_eq_zero.mp new
  exact Set.notMem_empty x (none ▸ ⟨hx, hs⟩)

theorem union_eq_left (hm : m.WellFormed) (hi : incoming.WellFormed)
    (nodes : ∀ h, incoming.contains h = true → m.contains h = true)
    (members : ∀ s h, h ∈ incoming.withShape s → h ∈ m.withShape s)
    (edges : ∀ h c, c ∈ incoming.childSet h → c ∈ m.childSet h) : m.union incoming = m := by
  refine (hm.union hi).ext hm ?_ ?_ ?_
  · intro h
    rw [node?_union]
    cases left : m.node? h with
    | some n => rfl
    | none =>
        rw [Option.none_or, Option.eq_none_iff_forall_ne_some]
        intro n right
        obtain ⟨n', there⟩ := contains_iff.mp (nodes h (contains_of_node? right))
        rw [left] at there
        cases there
  · intro s h
    rw [Bool.eq_iff_iff, ← mem_withShape, ← mem_withShape, mem_withShape_union]
    exact or_iff_left_of_imp (members s h)
  · intro h c
    rw [Bool.eq_iff_iff, ← mem_childSet, ← mem_childSet, mem_childSet_union]
    exact or_iff_left_of_imp (edges h c)

/-- The counts are zero exactly if the union is the left index. -/
theorem isNone_between_union (hm : m.WellFormed) (hi : incoming.WellFormed) :
    (Gain.between m (m.union incoming)).isNone = true ↔ m.union incoming = m := by
  constructor
  · intro none
    simp only [Gain.isNone, Bool.and_eq_true, beq_iff_eq] at none
    obtain ⟨⟨nodes, members⟩, edges⟩ := none
    refine union_eq_left hm hi ?_ ?_ ?_
    · intro h
      exact forall_of_encard_eq_zero (encard_newHashes m incoming) nodes h
    · intro s h
      exact forall_of_encard_eq_zero (encard_newMembers m incoming) members (s, h)
    · intro h c
      exact forall_of_encard_eq_zero (encard_newEdges hm hi) edges (h, c)
  · intro same
    rw [same, Gain.between_self]
    rfl

theorem unites_union (hm : m.WellFormed) (hi : incoming.WellFormed) :
    m.Unites incoming (m.union incoming) (.between m (m.union incoming)) where
  kept h n there := by rw [node?_union, there, Option.some_or]
  new h free := by rw [node?_union, free, Option.none_or]
  withShape s h := mem_withShape_union
  childSet h c := mem_childSet_union
  wellFormed := hm.union hi
  nodes := encard_newHashes m incoming
  shapeMembers := encard_newMembers m incoming
  edges := encard_newEdges hm hi
  isNone := isNone_between_union hm hi

/-- A merge of indexes that calls have filled is a checked union.  Its loops compare all common
entries before they write, and count what they write; they fail exactly if under some hash the
records differ, and report the least such hash as a collision; and otherwise they leave
the union of the two indexes and the exact counts. -/
theorem Filled.checkedUnion (hm : m.Filled) (hi : incoming.Filled) :
    m.mergeCounting incoming =
        (m.merge incoming).map (fun merged => (.between m merged, merged)) ∧
      ((∃ h, m.merge incoming = .error h) ↔ ∃ h, m.Differs incoming h) ∧
      (∀ h, m.merge incoming = .error h →
        m.Differs incoming h ∧ (∀ k, m.Differs incoming k → (compare h k).isLE) ∧
          ((Change.merge incoming).perform m).mapError Failure.toError = .error (.collision h)) ∧
      ∀ merged, m.merge incoming = .ok merged →
        m.Unites incoming merged (.between m merged) ∧
          (Change.merge incoming).perform m = .ok (.merged (.between m merged), merged) := by
  obtain ⟨leftWellFormed, -⟩ := hm.sound
  obtain ⟨rightWellFormed, written⟩ := hi.sound
  refine ⟨mergeCounting_eq m incoming, ?_, ?_, ?_⟩
  · constructor
    · rintro ⟨h, failed⟩
      exact ⟨h, (written.least_of_merge failed).1⟩
    · rintro ⟨h, differs⟩
      cases result : m.merge incoming with
      | error k => exact ⟨k, rfl⟩
      | ok merged => exact absurd differs (written.merge_isOk_iff.mp ⟨merged, result⟩ h)
  · intro h failed
    obtain ⟨differs, least⟩ := written.least_of_merge failed
    refine ⟨differs, least, ?_⟩
    rw [Change.perform, failed]
    rfl
  · intro merged united
    refine ⟨?_, ?_⟩
    · obtain rfl := eq_union_of_merge united
      exact unites_union leftWellFormed rightWellFormed
    · rw [Change.perform, united]
      rfl

end SubtermIndex.Index

namespace SubtermIndex

open Sample in
/-- The leaf of the first index is spelled in another way in the second one, which has a root
besides.  The leaf of the third one has the same hash and another record. -/
theorem Index.Filled.checkedUnion_spelling :
    ∃ leaf tree rival merged : Index, leaf.Filled ∧ tree.Filled ∧ rival.Filled ∧
      leaf.merge tree = .ok merged ∧ leaf.Unites tree merged ⟨1, 1, 1⟩ ∧ merged ≠ leaf ∧
      ∃ h, leaf.merge rival = .error h ∧ leaf.Differs rival h ∧
        ∀ k, leaf.Differs rival k → (compare h k).isLE := by
  have leaf := Spelling.indexer.filled_alone 2
  have rival := Spelling.indexer.filled_alone 3
  have counted : ((Spelling.indexer.alone 2).mergeCounting
      (Spelling.indexer.alone 0)).toOption.map (·.1) = some ⟨1, 1, 1⟩ := by decide +kernel
  have conflicts : ((Spelling.indexer.alone 2).merge
      (Spelling.indexer.alone 3)).toBool = false := by decide +kernel
  obtain ⟨counting, -, -, unites⟩ := leaf.checkedUnion (Spelling.indexer.filled_alone 0)
  obtain ⟨-, -, fails, -⟩ := leaf.checkedUnion rival
  rw [counting] at counted
  cases united : (Spelling.indexer.alone 2).merge (Spelling.indexer.alone 0) with
  | error h => simp [united, Except.map, Except.toOption] at counted
  | ok merged =>
      simp only [united, Except.map, Except.toOption, Option.map_some, Option.some.injEq] at counted
      have unites := (unites merged united).1
      rw [counted] at unites
      refine ⟨_, _, _, merged, leaf, Spelling.indexer.filled_alone 0, rival, united, unites, ?_, ?_⟩
      · intro same
        have none := unites.isNone.mpr same
        cases none
      · cases failed : (Spelling.indexer.alone 2).merge (Spelling.indexer.alone 3) with
        | ok both => simp [failed, Except.toBool] at conflicts
        | error h =>
            obtain ⟨differs, least, -⟩ := fails h failed
            exact ⟨h, rfl, differs, least⟩

end SubtermIndex
