/-
# `SubtermIndex.Proofs.NodeReader` — the tree that a reader sees below a node

A reader shows one node at a time.  `Reads` puts together what it shows: at most one tree at every
node, and none where a payload has no encoding, a projection fails or the nodes go on for ever.
The sub-trees of a node are the trees that are read at it and at the nodes below.

A node may have sub-trees without being read as a tree itself, when something is wrong elsewhere
below it.  These are what a walk may have closed before it fails.
-/
import SubtermIndex.Proofs.Tree

namespace SubtermIndex.NodeReader

variable {N : Type} (r : NodeReader N)

/-- The tree that a reader sees at a node. -/
inductive Reads : N → Tree → Prop
  | node {a : N} {l : Label} {below : List N} {children : List Tree} :
      r.payload a = .ok l.payload → r.children a = .ok below →
      List.Forall₂ Reads below children → Reads a (.node l children)

/-- `Below a b`: the node `b` is `a` itself, a child of it, a child of a child, and so on. -/
inductive Below (a : N) : N → Prop
  | self : Below a a
  | child {b c : N} {children : List N} : Below a b → r.children b = .ok children →
      c ∈ children → Below a c

def SubTree (a : N) (A : Tree) : Prop := ∃ b, r.Below a b ∧ r.Reads b A

/-- Every length in a payload that a reader sees at a node or below it is a number of 64 bits. -/
def Fits (a : N) : Prop := ∀ b p, r.Below a b → r.payload b = .ok p → p.toValue.fits

variable {r}

theorem Reads.unique {a : N} {S T : Tree} (hS : r.Reads a S) (hT : r.Reads a T) : S = T := by
  induction S using Tree.induction generalizing a T with
  | node l children ih =>
      cases hS with
      | @node _ _ below _ payload found all =>
          cases hT with
          | @node _ l' below' children' payload' found' all' =>
              obtain rfl : below = below' := Except.ok.inj (found.symm.trans found')
              have label : l = l' := Label.ext (Except.ok.inj (payload.symm.trans payload'))
              have same : children = children' := by
                refine eq_of_forall₂ all all' ?_
                intro C hC c C' read read'
                exact ih C hC read read'
              rw [label, same]

theorem Below.trans {a b c : N} (hab : r.Below a b) (hbc : r.Below b c) : r.Below a c := by
  induction hbc with
  | self => exact hab
  | child _ found mem ih => exact .child ih found mem

theorem SubTree.of_below {a b : N} {A : Tree} (h : r.Below a b) (hA : r.SubTree b A) :
    r.SubTree a A := by
  obtain ⟨c, hbc, read⟩ := hA
  exact ⟨c, h.trans hbc, read⟩

theorem SubTree.of_child {a b : N} {children : List N} {A : Tree}
    (found : r.children a = .ok children) (mem : b ∈ children) (hA : r.SubTree b A) :
    r.SubTree a A :=
  .of_below (.child .self found mem) hA

theorem Reads.subTree {a : N} {A : Tree} (h : r.Reads a A) : r.SubTree a A :=
  ⟨a, .self, h⟩

/-- At a node below the root of a tree that is read, one of its sub-trees is read. -/
theorem Reads.of_below {a b : N} {T : Tree} (hT : r.Reads a T) (h : r.Below a b) :
    ∃ A ∈ T.subtrees, r.Reads b A := by
  induction h with
  | self => exact ⟨T, T.mem_subtrees_self, hT⟩
  | child _ found mem ih =>
      obtain ⟨B, hB, read⟩ := ih
      cases read with
      | node _ found' all =>
          obtain rfl := Except.ok.inj (found.symm.trans found')
          obtain ⟨C, hC, read⟩ := exists_of_forall₂_left all mem
          refine ⟨C, Tree.mem_subtrees_trans ?_ hB, read⟩
          exact Tree.mem_subtrees_of_mem hC C.mem_subtrees_self

theorem Reads.subTree_of_mem {a : N} {A T : Tree} (hT : r.Reads a T) (h : A ∈ T.subtrees) :
    r.SubTree a A := by
  induction T using Tree.induction generalizing a with
  | node l children ih =>
      rcases Tree.mem_subtrees_node.mp h with ⟨C, hC, hA⟩ | rfl
      · cases hT with
        | node _ found all =>
            obtain ⟨c, mem, read⟩ := exists_of_forall₂_left all.flip hC
            exact .of_child found mem (ih C hC read hA)
      · exact hT.subTree

theorem Reads.subTree_iff {a : N} {A T : Tree} (hT : r.Reads a T) :
    r.SubTree a A ↔ A ∈ T.subtrees := by
  constructor
  · rintro ⟨b, below, read⟩
    obtain ⟨A', hA', read'⟩ := hT.of_below below
    rwa [read.unique read']
  · exact hT.subTree_of_mem

/-- A sub-tree of a sub-tree is a sub-tree. -/
theorem SubTree.of_mem {a : N} {A T : Tree} (hT : r.SubTree a T) (h : A ∈ T.subtrees) :
    r.SubTree a A := by
  obtain ⟨b, below, read⟩ := hT
  exact .of_below below (read.subTree_of_mem h)

theorem Fits.label {a : N} {A : Tree} (h : r.Fits a) (hA : r.SubTree a A) : A.label.fits := by
  obtain ⟨b, below, read⟩ := hA
  cases read with
  | node payload _ _ => exact h b _ below payload

theorem Fits.tree {a : N} {T : Tree} (h : r.Fits a) (hT : r.SubTree a T) : T.Fits := by
  intro A hA
  exact h.label (hT.of_mem hA)

end SubtermIndex.NodeReader
