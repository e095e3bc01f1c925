/-
# `SubtermIndex.Proofs.Tree` — trees as they are read, and their hashes

An index stores the sub-trees of a tree one level at a time.  Here is the tree as a whole: labels
with encodings, and sub-trees in order.  Its hash is the digest of a record that holds the hashes
of its children, so that the hash is blind to everything that structural equality (`Tree.Same`)
ignores.

The converse holds for any digest, as long as no two sub-trees with one hash have different
records (`Tree.same_of_hash_eq`): what is compared one level at a time is then equal on all
levels.

The hash and the shape are spelled out from the digest of a domain and from bytes.  That the
program's own functions give the same for a node that has a label is a lemma (`Entry.identify`,
`Entry.shapeOf`).
-/
import SubtermIndex.Proofs.Lists
import SubtermIndex.Proofs.Node
import SubtermIndex.NodeReader

namespace SubtermIndex

/-! ## Entries -/

/-- What is stored under one hash: a label, and the hashes of the children. -/
structure Entry where
  label : Label
  children : List NodeHash

namespace Entry

def node (e : Entry) : Node := ⟨e.label.payload, e.children⟩

def record (e : Entry) : Bytes := recordBytes e.label.code e.children

def hash (H : Hasher) (e : Entry) : NodeHash := ⟨H .node e.record⟩

def shape (H : Hasher) (e : Entry) : Shape := ⟨H .shape e.label.code⟩

theorem encodedRecord (e : Entry) : e.node.encodedRecord = .ok e.record :=
  Node.encodedRecord_of_label e.label e.children

theorem identify (H : Hasher) (e : Entry) : H.identify e.node = .ok (e.hash H) := by
  rw [Hasher.identify, e.encodedRecord]
  rfl

theorem shapeOf (H : Hasher) (e : Entry) : H.shapeOf e.node.payload = .ok (e.shape H) := by
  rw [Hasher.shapeOf, show e.node.payload = e.label.payload from rfl, e.label.written]
  rfl

/-- A record tells what an entry has been made of. -/
theorem record_inj {e f : Entry} (he : e.label.fits) (hf : f.label.fits)
    (same : e.record = f.record) : e.label.code = f.label.code ∧ e.children = f.children :=
  recordBytes_inj he hf same

end Entry

/-! ## Trees -/

/-- A tree of payloads with their encodings. -/
inductive Tree where
  | node (label : Label) (children : List Tree)

namespace Tree

/-- Induction over a tree: what holds of a node if it holds of its children holds of all trees. -/
theorem induction {P : Tree → Prop}
    (node : ∀ label children, (∀ T ∈ children, P T) → P (.node label children)) (T : Tree) :
    P T := by
  refine @Tree.rec P (fun children => ∀ T ∈ children, P T) ?_ ?_ ?_ T
  · intro label children ih
    exact node label children ih
  · exact List.forall_mem_nil _
  · intro T rest hT ih
    exact List.forall_mem_cons.mpr ⟨hT, ih⟩

def label : Tree → Label
  | node label _ => label

def children : Tree → List Tree
  | node _ children => children

/-- Structural equality: payloads with one encoding, and as many children on either side,
equal one by one. -/
inductive Same : Tree → Tree → Prop
  | node {l l' : Label} {cs cs' : List Tree} : l.code = l'.code → List.Forall₂ Same cs cs' →
      Same (.node l cs) (.node l' cs')

mutual
/-- The recursive hash: the digest of the payload and the hashes of the children. -/
def hash (H : Hasher) : Tree → NodeHash
  | node label children => Entry.hash H ⟨label, hashes H children⟩
termination_by structural T => T

def hashes (H : Hasher) : List Tree → List NodeHash
  | [] => []
  | T :: rest => T.hash H :: hashes H rest
termination_by structural Ts => Ts
end

theorem hashes_eq_map (H : Hasher) (Ts : List Tree) : hashes H Ts = Ts.map (hash H) := by
  induction Ts with
  | nil => rfl
  | cons T rest ih => rw [hashes, ih, List.map_cons]

def entry (H : Hasher) (T : Tree) : Entry := ⟨T.label, T.children.map (hash H)⟩

theorem hash_eq (H : Hasher) (T : Tree) : T.hash H = (T.entry H).hash H := by
  cases T with
  | node label children => rw [hash, hashes_eq_map]; rfl

def shape (H : Hasher) (T : Tree) : Shape := ⟨H .shape T.label.code⟩

@[simp] theorem shape_entry (H : Hasher) (T : Tree) : (T.entry H).shape H = T.shape H := rfl

mutual
/-- All sub-trees, every node behind its children. -/
def subtrees : Tree → List Tree
  | node label children => subtreesOfAll children ++ [node label children]
termination_by structural T => T

def subtreesOfAll : List Tree → List Tree
  | [] => []
  | T :: rest => T.subtrees ++ subtreesOfAll rest
termination_by structural Ts => Ts
end

theorem subtreesOfAll_eq_flatMap (Ts : List Tree) : subtreesOfAll Ts = Ts.flatMap subtrees := by
  induction Ts with
  | nil => rfl
  | cons T rest ih => rw [subtreesOfAll, ih, List.flatMap_cons]

theorem subtrees_node (l : Label) (cs : List Tree) :
    (node l cs).subtrees = cs.flatMap subtrees ++ [node l cs] := by
  rw [subtrees, subtreesOfAll_eq_flatMap]

theorem mem_subtrees_node {A : Tree} {l : Label} {cs : List Tree} :
    A ∈ (node l cs).subtrees ↔ (∃ T ∈ cs, A ∈ T.subtrees) ∨ A = node l cs := by
  simp [subtrees_node]

theorem mem_subtrees_self (T : Tree) : T ∈ T.subtrees := by
  cases T with
  | node l cs => exact mem_subtrees_node.mpr (.inr rfl)

theorem mem_subtrees_of_mem {T : Tree} {l : Label} {cs : List Tree} (h : T ∈ cs) {A : Tree}
    (hA : A ∈ T.subtrees) : A ∈ (node l cs).subtrees :=
  mem_subtrees_node.mpr (.inl ⟨T, h, hA⟩)

theorem mem_subtrees_trans {A B T : Tree} (hA : A ∈ B.subtrees) (hB : B ∈ T.subtrees) :
    A ∈ T.subtrees := by
  induction T using Tree.induction with
  | node l cs ih =>
      rcases mem_subtrees_node.mp hB with ⟨C, hC, hB⟩ | rfl
      · exact mem_subtrees_of_mem hC (ih C hC hB)
      · exact hA

def entries (H : Hasher) (T : Tree) : List Entry := T.subtrees.map (entry H)

theorem entries_node (H : Hasher) (l : Label) (cs : List Tree) :
    (node l cs).entries H = cs.flatMap (entries H) ++ [⟨l, cs.map (hash H)⟩] := by
  rw [entries, subtrees_node, List.map_append, List.map_flatMap]
  rfl

theorem mem_entries {H : Hasher} {T : Tree} {e : Entry} :
    e ∈ T.entries H ↔ ∃ A ∈ T.subtrees, A.entry H = e :=
  List.mem_map

def Within : Nat → Tree → Prop
  | 0, _ => False
  | levels + 1, T => ∀ C ∈ T.children, C.Within levels

/-- Whether every length in a payload of the tree is a number of 64 bits. -/
def Fits (T : Tree) : Prop := ∀ A ∈ T.subtrees, A.label.fits

/-! ## Hashes and structure -/

theorem map_hash_eq_iff {H : Hasher} {cs cs' : List Tree} :
    cs.map (hash H) = cs'.map (hash H) ↔ List.Forall₂ (fun A B => A.hash H = B.hash H) cs cs' := by
  rw [← List.forall₂_map_right_iff, ← List.forall₂_map_left_iff, List.forall₂_eq_eq_eq]

/-- Structural equality is seen in the hash, whatever the digest. -/
theorem Same.entry {S T : Tree} (H : Hasher) (h : S.Same T) :
    (S.entry H).record = (T.entry H).record := by
  induction S using Tree.induction generalizing T with
  | node l cs ih =>
      cases h with
      | @node _ l' _ cs' code children =>
          have hashes : cs.map (hash H) = cs'.map (hash H) := by
            refine map_hash_eq_iff.mpr (forall₂_imp_of_mem children ?_)
            intro A hA B _ same
            rw [hash_eq, hash_eq, Entry.hash, Entry.hash, ih A hA same]
          simp [Tree.entry, Entry.record, Tree.label, Tree.children, code, hashes]

theorem Same.hash_eq {S T : Tree} (H : Hasher) (h : S.Same T) : S.hash H = T.hash H := by
  rw [Tree.hash_eq, Tree.hash_eq, Entry.hash, Entry.hash, h.entry H]

theorem Same.code_eq {S T : Tree} (h : S.Same T) : S.label.code = T.label.code := by
  cases h with
  | node code children => exact code

theorem Same.hashes_eq {S T : Tree} (H : Hasher) (h : S.Same T) :
    S.children.map (hash H) = T.children.map (hash H) := by
  cases h with
  | node code children => exact map_hash_eq_iff.mpr (children.imp fun _ _ same => same.hash_eq H)

/-- Every sub-tree of a tree is equal to one of an equal tree. -/
theorem Same.exists_subtree {S T : Tree} (h : S.Same T) {B : Tree} (hB : B ∈ T.subtrees) :
    ∃ A ∈ S.subtrees, A.Same B := by
  induction S using Tree.induction generalizing T with
  | node l cs ih =>
      have whole := h
      cases h with
      | node code children =>
          rcases mem_subtrees_node.mp hB with ⟨D, hD, hB⟩ | rfl
          · obtain ⟨C, hC, same⟩ := exists_of_forall₂_left children.flip hD
            obtain ⟨A, hA, same⟩ := ih C hC same hB
            exact ⟨A, mem_subtrees_of_mem hC hA, same⟩
          · exact ⟨_, mem_subtrees_self _, whole⟩

theorem Same.within {S T : Tree} (h : S.Same T) {levels : Nat} (hS : S.Within levels) :
    T.Within levels := by
  induction levels generalizing S T with
  | zero => exact hS
  | succ levels ih =>
      cases h with
      | node code children =>
          intro D hD
          obtain ⟨C, hC, same⟩ := exists_of_forall₂_left children.flip hD
          exact ih same (hS C hC)

theorem Within.mono {T : Tree} {levels levels' : Nat} (h : T.Within levels)
    (le : levels ≤ levels') : T.Within levels' := by
  induction levels generalizing T levels' with
  | zero => exact h.elim
  | succ levels ih =>
      obtain ⟨more, rfl⟩ : ∃ more, levels' = more + 1 := ⟨levels' - 1, by omega⟩
      intro C hC
      exact ih (h C hC) (by omega)

/-- Where one hash means one record, it means one structure. -/
theorem same_of_hash_eq {H : Hasher} {S T : Tree} (hS : S.Fits) (hT : T.Fits)
    (consistent : ∀ A ∈ S.subtrees, ∀ B ∈ T.subtrees, A.hash H = B.hash H →
      (A.entry H).record = (B.entry H).record)
    (h : S.hash H = T.hash H) : S.Same T := by
  induction S using Tree.induction generalizing T with
  | node l cs ih =>
      cases T with
      | node l' cs' =>
          have record := consistent _ (mem_subtrees_self _) _ (mem_subtrees_self _) h
          obtain ⟨code, hashes⟩ := Entry.record_inj (hS _ (mem_subtrees_self _))
            (hT _ (mem_subtrees_self _)) record
          refine .node code ?_
          refine forall₂_imp_of_mem (map_hash_eq_iff.mp hashes) ?_
          intro A hA B hB same
          refine ih A hA (fun C hC => hS C (mem_subtrees_of_mem hA hC))
            (fun C hC => hT C (mem_subtrees_of_mem hB hC)) ?_ same
          intro C hC D hD
          exact consistent C (mem_subtrees_of_mem hA hC) D (mem_subtrees_of_mem hB hD)

end Tree

end SubtermIndex
