/-
# `SubtermIndex.Proofs.Index.Acyclic` — no hash is below itself

A weak digest may give a node the hash of a node far below it, and an index compares nodes on one
level at a time.  Yet edges never lead back to where they began (`childSet_acyclic`).  What stands
under the hash of a sub-tree has the children of this sub-tree, whichever spelling it is of; so
the way down from a hash goes down a tree that has been indexed, and trees are finite.

Two indexes are merged only if the nodes under every common hash have the same children.  Hence
the way down from a hash of either index is the same one in the union (`Retains`), and since it
never leaves the index that it began in, it ends there.

The invariant is that all ways down end (`Founded`).  It says more than that there is no way from
a hash to itself, and unlike this it can be shown by induction on the calls.
-/
import SubtermIndex.Proofs.Contribution
import Mathlib.Logic.Relation
import Mathlib.Order.WellFounded

namespace SubtermIndex

theorem Tree.exists_parent {A T : Tree} (hA : A ∈ T.subtrees) :
    A = T ∨ ∃ B ∈ T.subtrees, A ∈ B.children := by
  induction T using Tree.induction with
  | node l cs ih =>
      rcases mem_subtrees_node.mp hA with ⟨C, hC, hA⟩ | whole
      · rcases ih C hC hA with rfl | ⟨B, hB, child⟩
        · exact .inr ⟨.node l cs, mem_subtrees_self _, hC⟩
        · exact .inr ⟨B, mem_subtrees_of_mem hC hB, child⟩
      · exact .inl whole

theorem Tree.mem_subtrees_of_mem_children {A C : Tree} (hC : C ∈ A.children) : C ∈ A.subtrees := by
  cases A with
  | node l cs => exact mem_subtrees_of_mem hC C.mem_subtrees_self

namespace Index

variable {H : Hasher} {m m' : Index} {T : Tree}

/-! ## Ways down -/

/-- Whether the edges are those that the stored nodes show, lead to stored nodes, and allow no
way down that never ends. -/
structure Founded (m : Index) : Prop where
  childSet : ∀ h c, c ∈ m.childSet h ↔ m.Links h c
  stored : ∀ h c, m.Links h c → m.contains c = true
  wellFounded : WellFounded fun c h => m.Links h c

theorem Links.contains {h c : NodeHash} (link : m.Links h c) : m.contains h = true := by
  obtain ⟨n, there, -⟩ := link
  exact contains_of_node? there

theorem not_links_empty (h c : NodeHash) : ¬ (∅ : Index).Links h c := by
  rintro ⟨n, there, -⟩
  simp at there

theorem founded_empty : Founded ∅ where
  childSet h c := by
    have none : (∅ : Index).edges.contains h c = false := PairSet.contains_empty h c
    rw [mem_childSet, none]
    simp [not_links_empty]
  stored h c link := absurd link (not_links_empty h c)
  wellFounded := ⟨fun h => .intro h fun c link => absurd link (not_links_empty h c)⟩

/-- Ways down end if they end that begin at a stored hash: no others begin at all. -/
theorem wellFounded_of_stored
    (ends : ∀ h, m.contains h = true → Acc (fun c h => m.Links h c) h) :
    WellFounded fun c h => m.Links h c := by
  constructor
  intro h
  constructor
  intro c link
  exact (ends h link.contains).inv link

/-- Whether `m'` has a node with the same children under every hash of `m`. -/
def Retains (m m' : Index) : Prop :=
  ∀ h n, m.node? h = some n → ∃ n', m'.node? h = some n' ∧ n'.children = n.children

theorem Keeps.retains (kept : m.Keeps m') : m.Retains m' := by
  intro h n there
  exact ⟨n, kept h n there, rfl⟩

theorem Retains.links_iff (kept : m.Retains m') {h c : NodeHash} (there : m.contains h = true) :
    m'.Links h c ↔ m.Links h c := by
  obtain ⟨n, there⟩ := contains_iff.mp there
  obtain ⟨n', there', children⟩ := kept h n there
  constructor
  · rintro ⟨n'', there'', hc⟩
    obtain rfl := Option.some.inj (there'.symm.trans there'')
    exact ⟨n, there, children ▸ hc⟩
  · rintro ⟨n'', there'', hc⟩
    obtain rfl := Option.some.inj (there.symm.trans there'')
    exact ⟨n', there', children ▸ hc⟩

/-- A way down from a hash of `m` stays in `m`, also in an index that retains the nodes of `m`. -/
theorem Founded.acc_of_retains (hm : m.Founded) (kept : m.Retains m') {h : NodeHash}
    (there : m.contains h = true) : Acc (fun c h => m'.Links h c) h := by
  induction h using hm.wellFounded.induction with
  | _ h ih =>
      constructor
      intro c link
      have link := (kept.links_iff there).mp link
      exact ih c link (hm.stored h c link)

/-! ## A tree is put into an index -/

namespace ExtendsByTree

theorem retains (ext : m.ExtendsByTree H T m') : m.Retains m' := Keeps.retains ext.kept

theorem links_hash (ext : m.ExtendsByTree H T m') {A : Tree} (hA : A ∈ T.subtrees)
    {c : NodeHash} : m'.Links (A.hash H) c ↔ ∃ C ∈ A.children, C.hash H = c := by
  obtain ⟨n, there, -, children⟩ := ext.node? A hA
  rw [← List.mem_map, ← children]
  constructor
  · rintro ⟨n', there', hc⟩
    obtain rfl := Option.some.inj (there.symm.trans there')
    exact hc
  · intro hc
    exact ⟨n, there, hc⟩

theorem links_iff (ext : m.ExtendsByTree H T m') {h c : NodeHash} :
    m'.Links h c ↔
      m.Links h c ∨ ∃ A ∈ T.subtrees, A.hash H = h ∧ ∃ C ∈ A.children, C.hash H = c := by
  constructor
  · intro link
    rcases (ext.contains h).mp link.contains with old | ⟨A, hA, rfl⟩
    · exact .inl ((ext.retains.links_iff old).mp link)
    · exact .inr ⟨A, hA, rfl, (ext.links_hash hA).mp link⟩
  · rintro (old | ⟨A, hA, rfl, child⟩)
    · exact (ext.retains.links_iff old.contains).mpr old
    · exact (ext.links_hash hA).mpr child

/-- The way down from the hash of a sub-tree is the way down the sub-tree. -/
theorem acc_hash (ext : m.ExtendsByTree H T m') {A : Tree} (hA : A ∈ T.subtrees) :
    Acc (fun c h => m'.Links h c) (A.hash H) := by
  induction A using Tree.induction with
  | node l cs ih =>
      constructor
      intro c link
      obtain ⟨C, hC, rfl⟩ := (ext.links_hash hA).mp link
      exact ih C hC (Tree.mem_subtrees_trans (Tree.mem_subtrees_of_mem_children hC) hA)

end ExtendsByTree

theorem Founded.extend (hm : m.Founded) (ext : m.ExtendsByTree H T m') : m'.Founded where
  childSet h c := by
    rw [ext.childSet, hm.childSet, ext.links_iff]
  stored h c link := by
    rw [ext.contains]
    rcases ext.links_iff.mp link with old | ⟨A, hA, -, C, hC, rfl⟩
    · exact .inl (hm.stored h c old)
    · exact .inr ⟨C, Tree.mem_subtrees_trans (Tree.mem_subtrees_of_mem_children hC) hA, rfl⟩
  wellFounded := by
    refine wellFounded_of_stored ?_
    intro h there
    rcases (ext.contains h).mp there with old | ⟨A, hA, rfl⟩
    · exact hm.acc_of_retains ext.retains old
    · exact ext.acc_hash hA

/-! ## Two indexes are merged -/

section Merge

variable {merged : Index}

/-- Where a node of the right side gives way to one of the left, this has the same children. -/
theorem retains_right (hm : m.Legible) (hm' : m'.Legible) (union : m.merge m' = .ok merged) :
    m'.Retains merged := by
  have alike := merge_isOk_iff.mp ⟨merged, union⟩
  obtain rfl := eq_union_of_merge union
  intro h n there
  rw [node?_union, there]
  cases left : m.node? h with
  | none => exact ⟨n, rfl, rfl⟩
  | some n' =>
      exact ⟨n', rfl, Node.children_eq_of_sameStructure (hm.fits h n' left) (hm'.fits h n there)
        (alike h n' n left there)⟩

theorem Founded.merge (hm : m.Founded) (hm' : m'.Founded) (legible : m.Legible)
    (legible' : m'.Legible) (union : m.merge m' = .ok merged) : merged.Founded := by
  have left := (keeps_of_merge union).retains
  have right := retains_right legible legible' union
  obtain rfl := eq_union_of_merge union
  have links (h c : NodeHash) : (m.union m').Links h c ↔ m.Links h c ∨ m'.Links h c := by
    constructor
    · intro link
      rcases contains_union.mp link.contains with there | there
      · exact .inl ((left.links_iff there).mp link)
      · exact .inr ((right.links_iff there).mp link)
    · rintro (link | link)
      · exact (left.links_iff link.contains).mpr link
      · exact (right.links_iff link.contains).mpr link
  refine ⟨?_, ?_, wellFounded_of_stored ?_⟩
  · intro h c
    rw [mem_childSet_union, hm.childSet, hm'.childSet, links]
  · intro h c link
    rw [contains_union]
    exact ((links h c).mp link).imp (hm.stored h c) (hm'.stored h c)
  · intro h there
    rcases contains_union.mp there with there | there
    · exact hm.acc_of_retains left there
    · exact hm'.acc_of_retains right there

end Merge

/-! ## Indexes that calls have filled -/

theorem Legible.exists_extendsByTree {x : Input H} {d : Inserted} (hm : m.Legible)
    (inserted : x.insert m = .ok d) : ∃ T, m.ExtendsByTree H T d.index := by
  obtain ⟨T, reads, -, all⟩ := Input.exists_tree_of_insert hm.wellFormed inserted
  exact ⟨T, extendsByTree_of_putAll hm reads.fits all⟩

theorem Grown.founded (grown : m.Grown) : m.Founded := by
  have step {H : Hasher} {m : Index} {d : Inserted} {x : Input H} (grown : m.Grown)
      (founded : m.Founded) (inserted : x.insert m = .ok d) : d.index.Founded := by
    obtain ⟨T, ext⟩ := grown.legible.exists_extendsByTree inserted
    exact founded.extend ext
  induction grown with
  | empty => exact founded_empty
  | insert x grown inserted ih => exact step grown ih inserted
  | insertSplit x grown inserted ih =>
      exact step grown ih (x.indexer.insertSplit_eq_ok_iff.mp inserted)
  | insertShared x grown inserted ih =>
      obtain ⟨inserted, contents⟩ := insertShared_eq_ok inserted
      rw [contents]
      exact step grown ih inserted
  | merge left right union ih ih' => exact ih.merge ih' left.legible right.legible union

/-- Whether `k` lies below `h`: one edge or more lead from `h` to `k`. -/
def Below (m : Index) : NodeHash → NodeHash → Prop :=
  Relation.TransGen fun h c => c ∈ m.childSet h

theorem Founded.not_below_self (hm : m.Founded) (h : NodeHash) : ¬ m.Below h h := by
  have below : m.Below h h ↔ Relation.TransGen (fun c h => m.Links h c) h h := by
    rw [Below, ← Relation.transGen_swap]
    simp only [hm.childSet]
  rw [below]
  exact hm.wellFounded.transGen.irrefl.irrefl h

/-- The hash of the root leads down to the hash of every sub-tree. -/
theorem ExtendsByTree.reaches (ext : m.ExtendsByTree H T m') {A B : Tree} (hB : B ∈ T.subtrees)
    (hA : A ∈ B.subtrees) :
    Relation.ReflTransGen (fun h c => c ∈ m'.childSet h) (B.hash H) (A.hash H) := by
  induction B using Tree.induction with
  | node l cs ih =>
      rcases Tree.mem_subtrees_node.mp hA with ⟨C, hC, hA⟩ | rfl
      · have child : C ∈ (Tree.node l cs).children := hC
        have edge : C.hash H ∈ m'.childSet ((Tree.node l cs).hash H) :=
          (ext.childSet _ _).mpr (.inr ⟨_, hB, rfl, C, child, rfl⟩)
        have sub := Tree.mem_subtrees_trans (Tree.mem_subtrees_of_mem_children child) hB
        exact .head edge (ih C hC sub hA)
      · exact .refl

/-- In the index of one tree, the root is stored and has no parent, and all other hashes have
one. -/
theorem ExtendsByTree.isRoot_iff (ext : (∅ : Index).ExtendsByTree H T m) (hm : m.Founded)
    {h : NodeHash} : m.contains h = true ∧ m.parentSet h = ∅ ↔ h = T.hash H := by
  have contains (h : NodeHash) : m.contains h = true ↔ ∃ A ∈ T.subtrees, A.hash H = h := by
    rw [ext.contains]
    simp [contains_iff]
  have parent (h k : NodeHash) : h ∈ m.parentSet k ↔
      ∃ A ∈ T.subtrees, A.hash H = h ∧ ∃ C ∈ A.children, C.hash H = k := by
    have none : h ∉ (∅ : Index).parentSet k := by
      rw [mem_parentSet wellFormed_empty, show (∅ : Index).edges = ∅ from rfl,
        PairSet.contains_empty]
      exact Bool.false_ne_true
    rw [ext.parentSet]
    simp only [none, false_or]
  rw [contains, Std.ExtTreeSet.eq_empty_iff_forall_not_mem]
  constructor
  · rintro ⟨⟨A, hA, rfl⟩, orphan⟩
    rcases Tree.exists_parent hA with rfl | ⟨B, hB, child⟩
    · rfl
    · exact absurd ((parent _ _).mpr ⟨B, hB, rfl, A, child, rfl⟩) (orphan (B.hash H))
  · rintro rfl
    refine ⟨⟨T, T.mem_subtrees_self, rfl⟩, ?_⟩
    intro p edge
    obtain ⟨A, hA, rfl, C, hC, top⟩ := (parent _ _).mp edge
    have up : T.hash H ∈ m.childSet (A.hash H) := by
      rw [ext.childSet]
      exact .inr ⟨A, hA, rfl, C, hC, top⟩
    exact hm.not_below_self _ (.tail' (ext.reaches T.mem_subtrees_self hA) up)

/-- Whatever the digests are, no index that calls have filled has a way down from a hash back to
itself.  If a single tree has been indexed, the hash of its root is the only one that is stored
and has no parent. -/
theorem childSet_acyclic :
    (∀ m : Index, m.Grown → ∀ h, ¬ m.Below h h) ∧
      ∀ (H : Hasher) (x : Input H) (root : NodeHash) (m : Index), Reached H [(x, root)] m →
        ∀ h, m.contains h = true ∧ m.parentSet h = ∅ ↔ h = root := by
  constructor
  · intro m grown
    exact grown.founded.not_below_self
  · intro H x root m reached
    obtain ⟨Ts, all, index⟩ := reached.exists_trees
    obtain ⟨T, rest, ⟨reads, rfl⟩, none, rfl⟩ := List.forall₂_cons_left_iff.mp all
    cases none
    rw [IndexOf, List.flatMap_singleton] at index
    have ext := extendsByTree_of_putAll legible_empty reads.fits index
    intro h
    exact ext.isRoot_iff (founded_empty.extend ext)

open Sample in
/-- The leaf 2 takes in the tree 0, which has it in another spelling. -/
theorem childSet_acyclic_spelling :
    ∃ (leaf tree : Inserted) (merged : Index), leaf.index.merge tree.index = .ok merged ∧
      merged.Grown ∧ (∀ h, ¬ merged.Below h h) ∧
      Reached .byLength [(Spelling.input 0, tree.root)] tree.index ∧
      ∀ h, tree.index.contains h = true ∧ tree.index.parentSet h = ∅ ↔ h = tree.root := by
  have leaves : ((Spelling.input 2).insert ∅).toBool = true := by decide +kernel
  have trees : ((Spelling.input 0).insert ∅).toBool = true := by decide +kernel
  have merges : (((Spelling.input 2).insert ∅).bind fun leaf =>
      ((Spelling.input 0).insert ∅).bind fun tree =>
        Failure.ofMerge (leaf.index.merge tree.index)).toBool = true := by decide +kernel
  obtain ⟨leaf, hleaf⟩ := exists_eq_ok leaves
  obtain ⟨tree, htree⟩ := exists_eq_ok trees
  rw [hleaf, htree] at merges
  cases union : leaf.index.merge tree.index with
  | error h => simp [Except.bind, union, Failure.ofMerge, Except.toBool] at merges
  | ok merged =>
      have grown : merged.Grown := .merge (.insert _ .empty hleaf) (.insert _ .empty htree) union
      have reached : Reached .byLength [(Spelling.input 0, tree.root)] tree.index :=
        Reached.empty.insert _ htree
      exact ⟨leaf, tree, merged, union, grown, childSet_acyclic.1 merged grown, reached,
        childSet_acyclic.2 _ _ _ _ reached⟩

end Index

end SubtermIndex
