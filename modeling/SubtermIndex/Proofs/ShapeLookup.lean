/-
# `SubtermIndex.Proofs.ShapeLookup` — looking up a shape finds what has it

The shape of a node is the digest of its payload, and its children are not read for it.  So a
pattern need not be a tree at all: the hashes under its shape are those of all sub-trees, of all
indexed trees, whose payloads have the same digest (`Reached.mem_withShape_pattern`).

Several sub-trees may share a hash, and the node that stands under it may be spelled like none but
the first of them.  This does not matter: membership is entered for every sub-tree that is closed,
whether or not its node is new.
-/
import SubtermIndex.Proofs.Collision
import SubtermIndex.Proofs.Index.Closed

namespace SubtermIndex

theorem Hasher.shapeOf_eq_ok_iff {H : Hasher} {p : Payload} {s : Shape} :
    H.shapeOf p = .ok s ↔ ∃ l : Label, l.payload = p ∧ s = ⟨H .shape l.code⟩ := by
  rw [shapeOf]
  constructor
  · intro shape
    cases written : Cbor.encode p.toValue with
    | error cause => simp [written, Except.map] at shape
    | ok code =>
        rw [written] at shape
        exact ⟨⟨p, code, written⟩, rfl, (Except.ok.inj shape).symm⟩
  · rintro ⟨l, rfl, rfl⟩
    rw [l.written]
    rfl

theorem Indexer.shape_eq_ok_iff {N : Type} {ix : Indexer N} {q : N} {s : Shape} :
    ix.shape q = .ok s ↔
      ∃ l : Label, ix.reader.payload q = .ok l.payload ∧ s = ⟨ix.hasher .shape l.code⟩ := by
  have shape_of_payload {p : Payload} (read : ix.reader.payload q = .ok p) :
      ix.shape q = .ok s ↔ ix.hasher.shapeOf p = .ok s := by
    simp only [shape, read, bind, Except.bind]
    cases ix.hasher.shapeOf p <;> simp
  constructor
  · intro found
    cases read : ix.reader.payload q with
    | error e => simp [shape, read, bind, Except.bind] at found
    | ok p =>
        obtain ⟨l, rfl, same⟩ := Hasher.shapeOf_eq_ok_iff.mp ((shape_of_payload read).mp found)
        exact ⟨l, rfl, same⟩
  · rintro ⟨l, read, same⟩
    exact (shape_of_payload read).mpr (Hasher.shapeOf_eq_ok_iff.mpr ⟨l, rfl, same⟩)

/-- The hashes of the sub-trees of the calls' inputs of which `P` holds. -/
def hashesWhere {H : Hasher} (calls : List (Input H × NodeHash)) (P : Tree → Prop) :
    Set NodeHash :=
  {h | ∃ c ∈ calls, ∃ A, c.1.SubTree A ∧ P A ∧ A.hash H = h}

/-- The hashes under a shape are those of the sub-trees with this shape. -/
theorem Reached.mem_withShape_iff {H : Hasher} {calls : List (Input H × NodeHash)} {m : Index}
    (reached : Reached H calls m) {s : Shape} {h : NodeHash} :
    h ∈ m.withShape s ↔ h ∈ hashesWhere calls fun A => A.shape H = s := by
  obtain ⟨Ts, all, index⟩ := reached.exists_trees
  have none : Groups.hasMember (∅ : Index).shapes s h = false := Groups.hasMember_empty s h
  rw [Index.mem_withShape, (Index.extendsAll_of_putAll index).shapes, none]
  simp only [Bool.false_eq_true, false_or, mem_entries_iff all]
  constructor
  · rintro ⟨e, ⟨c, hc, A, sub, rfl⟩, shape, hash⟩
    rw [← A.hash_eq] at hash
    exact ⟨c, hc, A, sub, shape, hash⟩
  · rintro ⟨c, hc, A, sub, shape, hash⟩
    rw [A.hash_eq] at hash
    exact ⟨A.entry H, ⟨c, hc, A, sub, rfl⟩, shape, hash⟩

/-- Looking up the shape of a pattern finds the hashes of exactly those sub-trees whose payloads
have the digest of the pattern's payload.  If no other payload has this digest, these are the
sub-trees whose payloads are encoded like the pattern's, whatever is beneath them and whatever
is beneath the pattern. -/
theorem Reached.mem_withShape_pattern {N : Type} {ix : Indexer N} {q : N} {s : Shape}
    {calls : List (Input ix.hasher × NodeHash)} {m : Index}
    (reached : Reached ix.hasher calls m) (found : ix.shape q = .ok s) :
    ∃ l : Label, ix.reader.payload q = .ok l.payload ∧
      (∀ h, h ∈ m.withShape s ↔ h ∈ hashesWhere calls fun A =>
        ix.hasher .shape A.label.code = ix.hasher .shape l.code) ∧
      ((∀ c ∈ calls, ∀ A, c.1.SubTree A →
          ix.hasher .shape A.label.code = ix.hasher .shape l.code → A.label.code = l.code) →
        ∀ h, h ∈ m.withShape s ↔ h ∈ hashesWhere calls fun A => A.label.code = l.code) := by
  obtain ⟨l, read, rfl⟩ := Indexer.shape_eq_ok_iff.mp found
  have digest (h : NodeHash) : h ∈ m.withShape ⟨ix.hasher .shape l.code⟩ ↔
      h ∈ hashesWhere calls fun A => ix.hasher .shape A.label.code = ix.hasher .shape l.code := by
    rw [reached.mem_withShape_iff]
    simp only [Tree.shape, Hash.mk.injEq]
  refine ⟨l, read, digest, ?_⟩
  intro separated h
  rw [digest]
  constructor
  · rintro ⟨c, hc, A, sub, same, hash⟩
    exact ⟨c, hc, A, sub, separated c hc A sub same, hash⟩
  · rintro ⟨c, hc, A, sub, same, hash⟩
    exact ⟨c, hc, A, sub, congrArg (ix.hasher .shape) same, hash⟩

open Sample in
/-- The leaf 1 as a pattern, when the leaf 2 is in the index, which is spelled in another way. -/
theorem Reached.mem_withShape_pattern_spelling :
    ∃ (calls : List (Input Hasher.byLength × NodeHash)) (m : Index) (s : Shape),
      Reached .byLength calls m ∧ Spelling.indexer.shape 1 = .ok s ∧
      ∃ l : Label, Spelling.reader.payload 1 = .ok l.payload ∧
        (∀ h, h ∈ m.withShape s ↔ h ∈ hashesWhere calls fun A =>
          Hasher.byLength .shape A.label.code = Hasher.byLength .shape l.code) ∧
        ((∀ c ∈ calls, ∀ A, c.1.SubTree A →
            Hasher.byLength .shape A.label.code = Hasher.byLength .shape l.code →
              A.label.code = l.code) →
          ∀ h, h ∈ m.withShape s ↔ h ∈ hashesWhere calls fun A => A.label.code = l.code) := by
  have inserts : ((Spelling.input 2).insert ∅).toBool = true := by decide +kernel
  have shaped : (Spelling.indexer.shape 1).toBool = true := by decide +kernel
  obtain ⟨d, inserted⟩ := exists_eq_ok inserts
  obtain ⟨s, found⟩ := exists_eq_ok shaped
  have reached : Reached Spelling.indexer.hasher _ d.index :=
    Reached.empty.insert (Spelling.input 2) inserted
  exact ⟨_, d.index, s, reached, found, reached.mem_withShape_pattern found⟩

end SubtermIndex
