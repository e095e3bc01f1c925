/-
# `SubtermIndex.Proofs.Index.Records` — merging looks at records only

Every node of an index that calls have filled has a record (`Filled.sound`).  What is merged into
another index conflicts with it exactly on the hashes under which the two sides hold different
records (`Differs`), however the nodes are spelled, and a merge that fails names the least of
these hashes (`Written.merge_eq_error_iff`).

Nodes are compared as data first and by their records only if that fails.  The first comparison
accepts nothing that the second one would not (`Node.sameStructure_sound`).

No digest is fixed here.  The calls that fill an index may each come with another one (`Filled`),
so that nothing is known of a hash but what stands under it.
-/
import SubtermIndex.Proofs.Representatives

namespace SubtermIndex

open Std

namespace Index

def Written (m : Index) : Prop := ∀ h n, m.node? h = some n → ∃ x, n.encodedRecord = .ok x

/-- Whether two indexes hold nodes with different records under a hash. -/
def Differs (m m' : Index) (h : NodeHash) : Prop :=
  ∃ a b, m.node? h = some a ∧ m'.node? h = some b ∧ a.encodedRecord ≠ b.encodedRecord

/-! ## Indexes that calls have filled -/

/-- An index that is reached from the empty one by calls that succeed: inserting any trees by
any indexers, in one piece or split, alone or shared, and merging what has been reached in
the same way. -/
inductive Filled : Index → Prop
  | empty : Filled ∅
  | call {m m' : Index} {answer : Success} (change : Change) : Filled m →
      (∀ incoming, change = .merge incoming → Filled incoming) →
      change.perform m = .ok (answer, m') → Filled m'

theorem written_empty : Written ∅ := by
  intro h n there
  simp at there

theorem Written.putAll {H : Hasher} {m m' : Index} {E : List Entry} (hm : m.Written)
    (all : m.putAll H E = .ok m') : m'.Written := by
  intro h n there
  rw [(extendsAll_of_putAll all).node?, Option.or_eq_some_iff] at there
  rcases there with old | ⟨-, new⟩
  · exact hm h n old
  · obtain ⟨e, -, rfl⟩ := Option.map_eq_some_iff.mp new
    exact ⟨e.record, e.encodedRecord⟩

theorem Written.union {m m' : Index} (hm : m.Written) (hm' : m'.Written) :
    (m.union m').Written := by
  intro h n there
  rw [node?_union, Option.or_eq_some_iff] at there
  rcases there with left | ⟨-, right⟩
  · exact hm h n left
  · exact hm' h n right

theorem Filled.sound {m : Index} (filled : m.Filled) : m.WellFormed ∧ m.Written := by
  induction filled with
  | empty => exact ⟨wellFormed_empty, written_empty⟩
  | call change _ _ done ih ih' =>
      obtain ⟨wellFormed, written⟩ := ih
      rcases Change.perform_cases done with
        ⟨N, ix, root, d, inserted, rfl, -⟩ | ⟨incoming, same, united⟩
      · obtain ⟨T, -, -, all⟩ := Indexer.exists_tree_of_insert wellFormed inserted
        exact ⟨(extendsAll_of_putAll all).wellFormed wellFormed, written.putAll all⟩
      · obtain ⟨wellFormed', written'⟩ := ih' incoming same
        obtain rfl := eq_union_of_merge united
        exact ⟨wellFormed.union wellFormed', written.union written'⟩

end Index

namespace Indexer

variable {N : Type}

/-- The index of one tree alone; it is empty if the tree cannot be indexed. -/
def alone (ix : Indexer N) (root : N) : Index :=
  match ix.insert root ∅ with
  | .ok d => d.index
  | .error _ => ∅

theorem filled_alone (ix : Indexer N) (root : N) : (ix.alone root).Filled := by
  rw [alone]
  split
  case h_1 d inserted =>
    have performed : (Change.insert ix root).perform ∅ =
        .ok (.inserted d.root d.staged d.gain, d.index) := by
      rw [Change.perform, inserted]
      rfl
    refine .call (.insert ix root) .empty ?_ performed
    intro incoming other
    cases other
  case h_2 => exact .empty

end Indexer

namespace Index

/-! ## Where a merge fails -/

variable {m incoming : Index}

theorem Written.conflictsWith_iff (written : incoming.Written) {entry : NodeHash × Node}
    (listed : entry ∈ incoming.nodes.toList) :
    m.conflictsWith entry = true ↔ m.Differs incoming entry.1 := by
  have right : incoming.node? entry.1 = some entry.2 :=
    ExtTreeMap.mem_toList_iff_getElem?_eq_some.mp listed
  obtain ⟨x, record⟩ := written entry.1 entry.2 right
  rw [conflictsWith, Differs]
  cases left : m.nodes[entry.1]? with
  | none => simp [show m.node? entry.1 = none from left]
  | some there =>
      have left : m.node? entry.1 = some there := left
      rw [Bool.not_eq_true', ← Bool.not_eq_true, Node.sameStructure_iff record, ← record]
      constructor
      · intro different
        exact ⟨there, entry.2, left, right, different⟩
      · rintro ⟨a, b, ha, hb, different⟩
        cases left.symm.trans ha
        cases right.symm.trans hb
        exact different

theorem Written.least_of_merge (written : incoming.Written) {h : NodeHash}
    (failed : m.merge incoming = .error h) :
    m.Differs incoming h ∧ ∀ k, m.Differs incoming k → (compare h k).isLE := by
  obtain ⟨entry, found, rfl⟩ := Option.map_eq_some_iff.mp (firstConflict?_of_merge failed)
  have listed := List.mem_of_find?_eq_some found
  have ascending : incoming.nodes.toList.Pairwise fun a b => compare a.1 b.1 = .lt :=
    ExtTreeMap.ordered_keys_toList
  obtain ⟨conflict, before, after, split, free⟩ := List.find?_eq_some_iff_append.mp found
  refine ⟨(written.conflictsWith_iff listed).mp conflict, ?_⟩
  intro k differs
  have ⟨_, b, _, there, _⟩ := differs
  have listed' : (k, b) ∈ incoming.nodes.toList :=
    ExtTreeMap.mem_toList_iff_getElem?_eq_some.mpr there
  have conflict' := (written.conflictsWith_iff listed').mpr differs
  -- the other conflict stands in the list too, and not before the first one
  rw [split] at listed' ascending
  rcases List.mem_append.mp listed' with earlier | rest
  · have := free _ earlier
    simp [conflict'] at this
  · rcases List.mem_cons.mp rest with same | later
    · rw [← same]
      exact ReflOrd.isLE_rfl
    · have order := (List.pairwise_cons.mp (List.pairwise_append.mp ascending).2.1).1 _ later
      exact Ordering.isLE_of_eq_lt order

theorem Written.merge_isOk_iff (written : incoming.Written) :
    (∃ merged, m.merge incoming = .ok merged) ↔ ∀ h, ¬ m.Differs incoming h := by
  constructor
  · rintro ⟨merged, union⟩ h ⟨a, b, left, right, different⟩
    obtain ⟨x, record⟩ := written h b right
    have same := Index.merge_isOk_iff.mp ⟨merged, union⟩ h a b left right
    rw [record] at different
    exact different ((Node.sameStructure_iff record).mp same)
  · intro alike
    cases result : m.merge incoming with
    | ok merged => exact ⟨merged, rfl⟩
    | error h => exact absurd (written.least_of_merge result).1 (alike h)

/-- A merge fails exactly where the records differ, and names the least such hash. -/
theorem Written.merge_eq_error_iff (written : incoming.Written) {h : NodeHash} :
    m.merge incoming = .error h ↔
      m.Differs incoming h ∧ ∀ k, m.Differs incoming k → (compare h k).isLE := by
  constructor
  · intro failed
    exact written.least_of_merge failed
  · rintro ⟨differs, least⟩
    cases result : m.merge incoming with
    | ok merged => exact absurd differs (written.merge_isOk_iff.mp ⟨merged, result⟩ h)
    | error k =>
        obtain ⟨differs', least'⟩ := written.least_of_merge result
        have order : compare k h = .eq :=
          OrientedCmp.isLE_antisymm (least' h differs) (least k differs')
        rw [LawfulEqOrd.eq_of_compare order]

theorem Written.merge_eq_ok_iff (written : incoming.Written) {merged : Index} :
    m.merge incoming = .ok merged ↔
      (∀ h, ¬ m.Differs incoming h) ∧ merged = m.union incoming := by
  rw [← written.merge_isOk_iff]
  constructor
  · intro union
    exact ⟨⟨merged, union⟩, eq_union_of_merge union⟩
  · rintro ⟨⟨merged', union⟩, rfl⟩
    rw [union, eq_union_of_merge union]

end Index

/-! ## The comparison of nodes -/

/-- To compare nodes that have records is to compare the records.  Nodes that are equal as data
have equal records, whether these have encodings or not, so that it does no harm to look at the
data first.  Hence the comparison is an equivalence on the nodes that have records, as all nodes
have that calls have stored. -/
theorem Node.sameStructure_sound :
    (∀ (a b : Node) (x y : Bytes), a.encodedRecord = .ok x → b.encodedRecord = .ok y →
        (a.sameStructure b = true ↔ x = y)) ∧
      (∀ a b : Node, (a == b) = true → a.encodedRecord = b.encodedRecord) ∧
      (Equivalence fun a b : {n : Node // ∃ x, n.encodedRecord = .ok x} =>
        a.val.sameStructure b.val = true) ∧
      ∀ m : Index, m.Filled → ∀ h n, m.node? h = some n → ∃ x, n.encodedRecord = .ok x := by
  have byRecord (a b : {n : Node // ∃ x, n.encodedRecord = .ok x}) :
      a.val.sameStructure b.val = true ↔ a.val.encodedRecord = b.val.encodedRecord := by
    obtain ⟨y, written⟩ := b.property
    rw [sameStructure_iff written, written]
  refine ⟨?_, ?_, ⟨?_, ?_, ?_⟩, ?_⟩
  · intro a b x y ha hb
    rw [sameStructure_iff hb, ha, Except.ok.injEq]
  · intro a b equal
    exact encodedRecord_eq_of_equal equal
  · intro a
    exact (byRecord a a).mpr rfl
  · intro a b same
    exact (byRecord b a).mpr ((byRecord a b).mp same).symm
  · intro a b c same same'
    exact (byRecord a c).mpr (((byRecord a b).mp same).trans ((byRecord b c).mp same'))
  · intro m filled
    exact filled.sound.2

/-- A leaf that holds a double. -/
def Node.holding (bits : UInt64) : Node := ⟨⟨[(.text "v", .float bits)]⟩, []⟩

/-- The two zeros are equal as data, and a NaN is not equal to itself; but all of them have
records, and the comparison goes by these. -/
theorem Node.sameStructure_sound_doubles :
    let zero := holding 0
    let minusZero := holding 0x8000000000000000
    let nan := holding 0x7ff8000000000001
    let otherNaN := holding 0xfff8000000000000
    (zero == minusZero) = true ∧ zero.encodedRecord = minusZero.encodedRecord ∧
      (nan == nan) = false ∧ nan.sameStructure otherNaN = true ∧
        zero.sameStructure nan = false := by
  intro zero minusZero nan otherNaN
  obtain ⟨x, hx⟩ : ∃ x, zero.encodedRecord = .ok x := exists_eq_ok (by decide +kernel)
  obtain ⟨y, hy⟩ : ∃ y, nan.encodedRecord = .ok y := exists_eq_ok (by decide +kernel)
  have alike : otherNaN.encodedRecord = nan.encodedRecord := by decide +kernel
  have differ : zero.encodedRecord ≠ nan.encodedRecord := by decide +kernel
  have equal : (zero == minusZero) = true := by decide +kernel
  obtain ⟨byRecord, shortcut, -, -⟩ := Node.sameStructure_sound
  refine ⟨equal, shortcut zero minusZero equal, by decide +kernel, ?_, ?_⟩
  · exact (byRecord nan otherNaN y y hy (alike.trans hy)).mpr rfl
  · rw [Bool.eq_false_iff]
    intro same
    obtain rfl := (byRecord zero nan x y hx hy).mp same
    exact differ (hx.trans hy.symm)

end SubtermIndex
