/-
# `SubtermIndex.Proofs.Index.Tally` — counting while merging

The loops that count what they write leave the union of the two indexes, and their counters are
the differences of the sizes (`mergeCounting_eq`).  Every entry is one step, and a step that
writes something makes one of the three maps larger by one (`Counted`).

The two halves are proved apart.  That the counters are right is an invariant of all steps,
whatever is written; and what is written is seen best without the counters, as a fold over each of
the maps.
-/
import SubtermIndex.Index.Tally
import SubtermIndex.Proofs.Index.Put

namespace SubtermIndex.Index

open Std

namespace Tally

/-! ## What the counters say -/

/-- Whether the counters say how much larger the index has become. -/
structure Counted (m : Index) (t : Tally) : Prop where
  nodes : t.index.nodes.size = m.nodes.size + t.gain.nodes
  shapeMembers : Groups.memberCount t.index.shapes =
    Groups.memberCount m.shapes + t.gain.shapeMembers
  edges : t.index.edges.size = m.edges.size + t.gain.edges

variable {m : Index} {t : Tally}

theorem counted_start (m : Index) : Counted m (start m) := ⟨rfl, rfl, rfl⟩

theorem Counted.gain_eq (counted : Counted m t) : t.gain = .between m t.index := by
  obtain ⟨nodes, shapeMembers, edges⟩ := counted
  rw [Gain.between, nodes, shapeMembers, edges]
  simp only [Nat.add_sub_cancel_left]

theorem Counted.foldl {α : Type} {step : Tally → α → Tally} (counted : Counted m t)
    (each : ∀ t, Counted m t → ∀ a, Counted m (step t a)) (row : List α) :
    Counted m (row.foldl step t) := by
  induction row generalizing t with
  | nil => exact counted
  | cons a rest ih => exact ih (each t counted a)

theorem Counted.addNode (counted : Counted m t) (entry : NodeHash × Node) :
    Counted m (t.addNode entry) := by
  rw [Tally.addNode]
  split
  case isTrue => exact counted
  case isFalse new =>
    refine ⟨?_, counted.shapeMembers, counted.edges⟩
    have new : t.index.nodes.contains entry.1 = false := Bool.eq_false_of_not_eq_true new
    simp only [ExtTreeMap.size_insert, new, Bool.false_eq_true, if_false, counted.nodes]
    omega

theorem Counted.openShape (counted : Counted m t) (s : Shape) : Counted m (t.openShape s) := by
  refine ⟨counted.nodes, ?_, counted.edges⟩
  refine (Groups.memberCount_congr ?_).trans counted.shapeMembers
  intro a b
  simp only [Groups.hasMember, Groups.members, Tally.openShape, ExtTreeMap.getElem?_alter,
    Std.compare_eq_iff_eq]
  split
  case isTrue same =>
    rw [same]
    rfl
  case isFalse => rfl

theorem Counted.addMember (counted : Counted m t) (s : Shape) (h : NodeHash) :
    Counted m (t.addMember s h) := by
  rw [Tally.addMember]
  split
  case isTrue => exact counted
  case isFalse new =>
    refine ⟨counted.nodes, ?_, counted.edges⟩
    have one := Groups.memberCount_addMember (Bool.eq_false_of_not_eq_true new)
    show Groups.memberCount (Groups.addMember t.index.shapes s h) = _
    rw [one, counted.shapeMembers]
    rfl

theorem Counted.addGroup (counted : Counted m t) (group : Shape × ExtTreeSet NodeHash) :
    Counted m (t.addGroup group) := by
  rw [Tally.addGroup]
  exact (counted.openShape group.1).foldl (fun _ counted h => counted.addMember group.1 h) _

theorem Counted.addEdge (counted : Counted m t) (edge : NodeHash × NodeHash) :
    Counted m (t.addEdge edge) := by
  rw [Tally.addEdge, PairSet.containsThenInsert]
  split
  case h_1 => exact counted
  case h_2 edges found =>
    split at found
    · cases found
    · cases found
      refine ⟨counted.nodes, counted.shapeMembers, ?_⟩
      show t.index.edges.size + 1 = m.edges.size + (t.gain.edges + 1)
      rw [counted.edges, Nat.add_assoc]

theorem Counted.addAll (counted : Counted m t) (incoming : Index) :
    Counted m (t.addAll incoming) := by
  have nodes := counted.foldl (fun _ counted entry => counted.addNode entry) incoming.nodes.toList
  have shapes := nodes.foldl (fun _ counted group => counted.addGroup group) incoming.shapes.toList
  exact shapes.foldl (fun _ counted edge => counted.addEdge edge) incoming.edges.toList

/-! ## What the loops write -/

theorem index_foldl {α part : Type} {step : Tally → α → Tally} (put : part → Index)
    {write : part → α → part}
    (writes : ∀ t p a, t.index = put p → (step t a).index = put (write p a)) (row : List α)
    {t : Tally} {p : part} (before : t.index = put p) :
    (row.foldl step t).index = put (row.foldl write p) := by
  induction row generalizing t p with
  | nil => exact before
  | cons a rest ih => exact ih (writes t p a before)

theorem insertIfNew_eq (nodes : ExtTreeMap NodeHash Node) (h : NodeHash) (n : Node) :
    nodes.insertIfNew h n = if nodes.contains h then nodes else nodes.insert h n := by
  refine ExtTreeMap.ext_getElem? ?_
  intro k
  rw [ExtTreeMap.getElem?_insertIfNew]
  by_cases there : h ∈ nodes
  · simp [there]
  · simp [there, ExtTreeMap.getElem?_insert]

theorem index_addNode (t : Tally) (entry : NodeHash × Node) :
    (t.addNode entry).index =
      { t.index with nodes := t.index.nodes.insertIfNew entry.1 entry.2 } := by
  rw [insertIfNew_eq, addNode, Index.contains]
  split <;> rfl

theorem index_addMember (s : Shape) (t : Tally) (h : NodeHash) :
    (t.addMember s h).index = t.index.addShape s h := by
  rw [addMember]
  split
  case isTrue old => rw [addShape, Groups.addMember_of_hasMember old]
  case isFalse => rfl

theorem index_addGroup (t : Tally) (group : Shape × ExtTreeSet NodeHash) :
    (t.addGroup group).index =
      { t.index with shapes := Groups.absorb t.index.shapes group } := by
  rw [addGroup, ← Groups.addMembers_toList]
  refine index_foldl (fun shapes => { t.index with shapes }) ?_ _ rfl
  intro t' shapes h before
  rw [index_addMember, before]
  rfl

theorem index_addEdge (t : Tally) (edge : NodeHash × NodeHash) :
    (t.addEdge edge).index = { t.index with edges := t.index.edges.insert edge.1 edge.2 } := by
  rw [addEdge, PairSet.insert, PairSet.containsThenInsert]
  cases t.index.edges.contains edge.1 edge.2 <;> rfl

theorem index_addAll (t : Tally) (incoming : Index) :
    (t.addAll incoming).index = t.index.union incoming := by
  have nodes (t : Tally) : (incoming.nodes.toList.foldl addNode t).index =
      { t.index with nodes := incoming.nodes ∪ t.index.nodes } := by
    rw [← foldl_insertIfNew_eq_union]
    refine index_foldl (fun nodes => { t.index with nodes }) ?_ _ rfl
    intro t' nodes entry before
    rw [index_addNode, before]
  have shapes (t : Tally) : (incoming.shapes.toList.foldl addGroup t).index =
      { t.index with shapes := Groups.merge t.index.shapes incoming.shapes } := by
    rw [Groups.merge_eq_foldl]
    refine index_foldl (fun shapes => { t.index with shapes }) ?_ _ rfl
    intro t' shapes group before
    rw [index_addGroup, before]
  have edges (t : Tally) : (incoming.edges.toList.foldl addEdge t).index =
      { t.index with edges := t.index.edges ∪ incoming.edges } := by
    refine index_foldl (fun edges => { t.index with edges }) ?_ _ rfl
    intro t' edges edge before
    rw [index_addEdge, before]
  rw [addAll, edges, shapes, nodes]
  rfl

end Tally

/-- Merging with counters gives the checked union, and counts how much larger it is. -/
theorem mergeCounting_eq (m incoming : Index) :
    m.mergeCounting incoming =
      (m.merge incoming).map fun merged => (.between m merged, merged) := by
  rw [mergeCounting, merge, firstConflict?]
  cases incoming.nodes.toList.find? m.conflictsWith with
  | some entry => rfl
  | none =>
      have counted := (Tally.counted_start m).addAll incoming
      have written := (Tally.start m).index_addAll incoming
      show Except.ok _ = Except.ok _
      rw [counted.gain_eq, written]
      rfl

end SubtermIndex.Index
