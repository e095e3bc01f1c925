/-
# `SubtermIndex.Proofs.Outline` — the outline that a reader shows at a node

A reader shows one node at a time, and by this an outline at every node below which there are
finitely many (`NodeReader.Shows`): a node whose children cannot be read has none.  All
occurrences of an outline stand at different places.

A walk over an outline enters every occurrence before its children and leaves it behind them,
which makes two steps for each (`Outline.steps`).  The steps that enter are the pre-order of the
outline, and those that leave are its post-order.
-/
import SubtermIndex.Outline
import SubtermIndex.Proofs.NodeReader

namespace SubtermIndex

/-- The outline of the nodes that a reader shows at a node and below. -/
inductive NodeReader.Shows {N : Type} (r : NodeReader N) : N → Outline N → Prop
  | node {a : N} {below : List N} {children : List (Outline N)} :
      r.children a = .ok below → List.Forall₂ (Shows r) below children →
      Shows r a (.node a children)
  | unreadable {a : N} {e : TreeError} : r.children a = .error e → Shows r a (.node a [])

theorem NodeReader.Shows.exists_children {N : Type} {r : NodeReader N} {a : N} {t : Outline N}
    {below : List N} (shows : r.Shows a t) (read : r.children a = .ok below) :
    ∃ children, t = .node a children ∧ List.Forall₂ r.Shows below children := by
  cases shows with
  | node read' all =>
      cases read.symm.trans read'
      exact ⟨_, rfl, all⟩
  | unreadable failed => cases read.symm.trans failed

theorem NodeReader.Reads.exists_shows {N : Type} {r : NodeReader N} {a : N} {T : Tree}
    (reads : r.Reads a T) : ∃ t, r.Shows a t := by
  induction T using Tree.induction generalizing a with
  | node l Ts ih =>
      cases reads with
      | @node _ _ below _ payload found all =>
          have each : ∀ b ∈ below, ∃ t, r.Shows b t := by
            intro b mem
            obtain ⟨T, hT, read⟩ := exists_of_forall₂_left all mem
            exact ih T hT read
          obtain ⟨ts, shown⟩ := exists_forall₂ each
          exact ⟨_, .node found shown⟩

/-- At most one outline is shown at a node. -/
theorem NodeReader.Shows.unique {N : Type} {r : NodeReader N} {a : N} {t t' : Outline N}
    (h : r.Shows a t) (h' : r.Shows a t') : t = t' := by
  revert a t'
  refine (Outline.all_of_children (P := fun t => ∀ {a t'}, r.Shows a t → r.Shows a t' → t = t')
    (Q := fun ts => ∀ {below ts'}, List.Forall₂ r.Shows below ts →
      List.Forall₂ r.Shows below ts' → ts = ts') ?node ?nil ?cons).1 t
  case node =>
    intro a children ih b t' h h'
    cases h with
    | node read all =>
        obtain ⟨children', rfl, all'⟩ := h'.exists_children read
        rw [ih all all']
    | unreadable failed =>
        cases h' with
        | node read => cases read.symm.trans failed
        | unreadable => rfl
  case nil =>
    intro below ts' all all'
    cases all
    cases all'
    rfl
  case cons =>
    intro t rest ht hrest below ts' all all'
    cases all with
    | cons first others =>
        cases all' with
        | cons first' others' => rw [ht first first', hrest others others']

namespace Outline

variable {N : Type}

theorem suffix_of_mem_postorder :
    (∀ (t : Outline N) (pos : Position), ∀ o ∈ t.postorder pos, pos.steps <:+ o.pos.steps) ∧
      ∀ (ts : List (Outline N)) (pos : Position) (next : Nat), ∀ o ∈ postorderFrom ts pos next,
        ∃ i, next ≤ i ∧ (pos.child i).steps <:+ o.pos.steps := by
  refine all_of_children ?node ?nil ?cons
  case node =>
    intro a children ih pos o mem
    rw [postorder, List.mem_append, List.mem_singleton] at mem
    rcases mem with mem | rfl
    · obtain ⟨i, -, below⟩ := ih pos 0 o mem
      exact (List.suffix_cons i pos.steps).trans below
    · exact List.suffix_refl _
  case nil =>
    intro pos next o mem
    rw [postorderFrom] at mem
    cases mem
  case cons =>
    intro t rest ht hrest pos next o mem
    rw [postorderFrom, List.mem_append] at mem
    rcases mem with mem | mem
    · exact ⟨next, le_rfl, ht (pos.child next) o mem⟩
    · obtain ⟨i, later, below⟩ := hrest pos (next + 1) o mem
      exact ⟨i, by omega, below⟩

/-- No place is below two children. -/
theorem index_eq_of_suffix {pos : Position} {steps : List Nat} {i j : Nat}
    (hi : (pos.child i).steps <:+ steps) (hj : (pos.child j).steps <:+ steps) : i = j := by
  have same := List.suffix_of_suffix_length_le hi hj le_rfl
  exact (List.cons.inj (same.eq_of_length rfl)).1

/-- No two occurrences stand at one place. -/
theorem nodup_places :
    (∀ (t : Outline N) (pos : Position), ((t.postorder pos).map Occurrence.pos).Nodup) ∧
      ∀ (ts : List (Outline N)) (pos : Position) (next : Nat),
        ((postorderFrom ts pos next).map Occurrence.pos).Nodup := by
  refine all_of_children ?node ?nil ?cons
  case node =>
    intro a children ih pos
    rw [postorder, List.map_append, List.nodup_append]
    refine ⟨ih pos 0, List.nodup_singleton pos, ?_⟩
    intro p below q here same
    obtain ⟨o, mem, rfl⟩ := List.mem_map.mp below
    -- what is below a node has more steps than the node itself
    obtain ⟨i, -, suffix⟩ := suffix_of_mem_postorder.2 children pos 0 o mem
    rw [same, List.mem_singleton.mp here] at suffix
    exact absurd suffix.length_le (Nat.not_succ_le_self _)
  case nil =>
    intro pos next
    rw [postorderFrom]
    exact List.nodup_nil
  case cons =>
    intro t rest ht hrest pos next
    rw [postorderFrom, List.map_append, List.nodup_append]
    refine ⟨ht _, hrest pos (next + 1), ?_⟩
    intro p first q others same
    -- an occurrence of both parts would be below two different children
    obtain ⟨o, mem, rfl⟩ := List.mem_map.mp first
    obtain ⟨o', mem', rfl⟩ := List.mem_map.mp others
    have left := suffix_of_mem_postorder.1 t (pos.child next) o mem
    obtain ⟨i, later, right⟩ := suffix_of_mem_postorder.2 rest pos (next + 1) o' mem'
    rw [same] at left
    have := index_eq_of_suffix left right
    omega

theorem perm_preorder :
    (∀ (t : Outline N) (pos : Position), (t.preorder pos).Perm (t.postorder pos)) ∧
      ∀ (ts : List (Outline N)) (pos : Position) (next : Nat),
        (preorderFrom ts pos next).Perm (postorderFrom ts pos next) := by
  refine all_of_children ?node ?nil ?cons
  case node =>
    intro a children ih pos
    rw [preorder, postorder]
    exact ((ih pos 0).cons _).trans (List.perm_append_singleton _ _).symm
  case nil =>
    intro pos next
    exact .refl _
  case cons =>
    intro t rest ht hrest pos next
    rw [preorderFrom, postorderFrom]
    exact (ht _).append (hrest pos (next + 1))

theorem length_preorder :
    (∀ (t : Outline N) (pos : Position), (t.preorder pos).length = t.size) ∧
      ∀ (ts : List (Outline N)) (pos : Position) (next : Nat),
        (preorderFrom ts pos next).length = sizeOfAll ts := by
  refine all_of_children ?node ?nil ?cons
  case node =>
    intro a children ih pos
    rw [preorder, List.length_cons, ih, size, Nat.add_comm]
  case nil =>
    intro pos next
    rfl
  case cons =>
    intro t rest ht hrest pos next
    rw [preorderFrom, List.length_append, ht, hrest, sizeOfAll]

/-! ## The steps of a walk -/

/-- What a walk does at a place. -/
inductive Step (N : Type) where
  | enter (place : Occurrence N)
  | leave (place : Occurrence N)

namespace Step

def entered? : Step N → Option (Occurrence N)
  | enter place => some place
  | leave _ => none

def left? : Step N → Option (Occurrence N)
  | enter _ => none
  | leave place => some place

end Step

mutual
def steps : Outline N → Position → List (Step N)
  | node a children, pos =>
      .enter ⟨a, pos, children.length⟩ ::
        (stepsFrom children pos 0 ++ [.leave ⟨a, pos, children.length⟩])
termination_by structural t => t

def stepsFrom : List (Outline N) → Position → (next : Nat) → List (Step N)
  | [], _, _ => []
  | t :: rest, pos, next => t.steps (pos.child next) ++ stepsFrom rest pos (next + 1)
termination_by structural ts => ts
end

theorem length_steps :
    (∀ (t : Outline N) (pos : Position), (t.steps pos).length = 2 * t.size) ∧
      ∀ (ts : List (Outline N)) (pos : Position) (next : Nat),
        (stepsFrom ts pos next).length = 2 * sizeOfAll ts := by
  refine all_of_children ?node ?nil ?cons
  case node =>
    intro a children ih pos
    have below := ih pos 0
    rw [steps, List.length_cons, List.length_append, List.length_singleton, size]
    omega
  case nil =>
    intro pos next
    rfl
  case cons =>
    intro t rest ht hrest pos next
    rw [stepsFrom, List.length_append, ht, hrest, sizeOfAll]
    omega

theorem entered_steps :
    (∀ (t : Outline N) (pos : Position),
        (t.steps pos).filterMap Step.entered? = t.preorder pos) ∧
      ∀ (ts : List (Outline N)) (pos : Position) (next : Nat),
        (stepsFrom ts pos next).filterMap Step.entered? = preorderFrom ts pos next := by
  refine all_of_children ?node ?nil ?cons
  case node =>
    intro a children ih pos
    simp only [steps, preorder, List.filterMap_cons, List.filterMap_append, List.filterMap_nil,
      Step.entered?, ih, List.append_nil]
  case nil =>
    intro pos next
    rfl
  case cons =>
    intro t rest ht hrest pos next
    rw [stepsFrom, preorderFrom, List.filterMap_append, ht, hrest]

theorem left_steps :
    (∀ (t : Outline N) (pos : Position),
        (t.steps pos).filterMap Step.left? = t.postorder pos) ∧
      ∀ (ts : List (Outline N)) (pos : Position) (next : Nat),
        (stepsFrom ts pos next).filterMap Step.left? = postorderFrom ts pos next := by
  refine all_of_children ?node ?nil ?cons
  case node =>
    intro a children ih pos
    simp only [steps, postorder, List.filterMap_cons, List.filterMap_append, List.filterMap_nil,
      Step.left?, ih]
  case nil =>
    intro pos next
    rfl
  case cons =>
    intro t rest ht hrest pos next
    rw [stepsFrom, postorderFrom, List.filterMap_append, ht, hrest]

end Outline

end SubtermIndex
