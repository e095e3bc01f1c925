/-
# `SubtermIndex.Proofs.Index.Unfolding` — an index gives back the trees it is of

A node of an index has the hashes of its children for children.  The unfolding of a hash puts in
their place what stands under them, and so on down.  Nothing in the index itself promises that
this ends, or that every hash is found.

An index of trees holds all sub-trees of each tree, so the tree itself leads the unfolding: it
goes down as many levels as the tree has, and what it finds on each has the structure of the tree
(`IndexOf.restores`).  It need not be the same tree, because another spelling of a payload may
have been there first.

The levels are there because an unfolding has to end by its definition.  More of them than the
tree has do not change what is found (`Restores`).
-/
import SubtermIndex.Proofs.Index.Closed

namespace SubtermIndex

theorem exists_levels {Ts : List Tree} (each : ∀ T ∈ Ts, ∃ n, ∀ k ≥ n, T.Within k) :
    ∃ n, ∀ k ≥ n, ∀ T ∈ Ts, T.Within k := by
  induction Ts with
  | nil => exact ⟨0, fun _ _ => List.forall_mem_nil _⟩
  | cons T rest ih =>
      rw [List.forall_mem_cons] at each
      obtain ⟨n, first⟩ := each.1
      obtain ⟨n', others⟩ := ih each.2
      refine ⟨max n n', ?_⟩
      intro k hk
      rw [List.forall_mem_cons]
      exact ⟨first k (le_of_max_le_left hk), others k (le_of_max_le_right hk)⟩

theorem Tree.exists_within (T : Tree) : ∃ n, ∀ k ≥ n, T.Within k := by
  induction T using Tree.induction with
  | node l cs ih =>
      obtain ⟨n, all⟩ := exists_levels ih
      refine ⟨n + 1, ?_⟩
      intro k hk
      obtain ⟨k, rfl⟩ := Nat.exists_eq_add_of_le' hk
      exact all (k + n) (Nat.le_add_left n k)

namespace Index

/-- The tree below a hash: what stands under the hash, and below that the trees of its children.
There is none if a hash is not found, or if there are more levels than allowed. -/
def unfolding (m : Index) : (levels : Nat) → NodeHash → Option Tree
  | 0, _ => none
  | levels + 1, h => do
      let n ← m.node? h
      let label ← (Label.of n.payload).toOption
      let children ← n.children.mapM (unfolding m levels)
      return .node label children

/-- Whether a hash unfolds, in all levels that it takes, into a tree with the structure of `T`. -/
def Restores (m : Index) (h : NodeHash) (T : Tree) : Prop :=
  ∃ U levels, U.Same T ∧ ∀ k ≥ levels, m.unfolding k h = some U

theorem unfolding_succ {m : Index} {h : NodeHash} {e : Entry} {children : List Tree} {levels : Nat}
    (there : m.node? h = some e.node)
    (below : e.children.mapM (m.unfolding levels) = some children) :
    m.unfolding (levels + 1) h = some (.node e.label children) := by
  have label : Label.of e.node.payload = .ok e.label := e.label.of_payload
  rw [unfolding]
  simp only [there, label, Except.toOption, show e.node.children = e.children from rfl, below,
    Option.bind_eq_bind, Option.bind_some, Option.pure_def]

end Index

namespace IndexOf

variable {H : Hasher} {Ts : List Tree} {m : Index}

theorem exists_unfolding (index : IndexOf H Ts m) (fits : ∀ T ∈ Ts, T.Fits) {A : Tree}
    (stored : ∀ B ∈ A.subtrees, B.entry H ∈ Ts.flatMap (Tree.entries H)) :
    ∃ U : Tree, U.Same A ∧ ∀ levels, A.Within levels → m.unfolding levels (A.hash H) = some U := by
  induction A using Tree.induction with
  | node l cs ih =>
      obtain ⟨f, -, there, code, children⟩ :=
        index.exists_node fits (stored _ (Tree.mem_subtrees_self _))
      rw [← Tree.hash_eq] at there
      have each (C : Tree) (hC : C ∈ cs) := ih C hC fun B hB =>
        stored B (Tree.mem_subtrees_of_mem hC hB)
      obtain ⟨Us, all⟩ := exists_forall₂ each
      refine ⟨.node f.label Us, .node code (all.flip.imp fun _ _ h => h.1), ?_⟩
      intro levels within
      cases levels with
      | zero => exact within.elim
      | succ levels =>
          refine Index.unfolding_succ there ?_
          rw [children]
          exact mapM_eq_some_of_forall₂
            (forall₂_imp_of_mem all fun C hC _ _ h => h.2 levels (within C hC))

theorem restores (index : IndexOf H Ts m) (fits : ∀ T ∈ Ts, T.Fits) {T : Tree} (hT : T ∈ Ts) :
    m.Restores (T.hash H) T := by
  have stored (B : Tree) (hB : B ∈ T.subtrees) : B.entry H ∈ Ts.flatMap (Tree.entries H) :=
    List.mem_flatMap.mpr ⟨T, hT, Tree.mem_entries.mpr ⟨B, hB, rfl⟩⟩
  obtain ⟨U, same, unfolds⟩ := index.exists_unfolding fits stored
  obtain ⟨n, within⟩ := T.exists_within
  exact ⟨U, n, same, fun k hk => unfolds k (within k hk)⟩

end IndexOf

end SubtermIndex
