/-
# `SubtermIndex.Proofs.Collision` — collisions are found, and nothing else is

Every check compares two nodes on one level: their payloads and the hashes of their children.  Yet
it misses no pair of different sub-trees with one hash, at whatever depth they differ: if all
entries with one hash are written alike, then sub-trees with one hash are equal, level by level
(`same_of_consistent`).

The other way round, a call that is not rejected and fails has closed an entry that is written
differently from another one with its hash (`exists_of_not_consistent`), and two entries of this
kind come from different trees (`not_same_of_record_ne`).  Entries of the index and of the call's
own tree are treated alike, so it does not matter whether the collision is met while the tree is
walked or when it is merged.

Nothing is assumed of the digest.
-/
import SubtermIndex.Proofs.Reached
import SubtermIndex.Sample.Chains

namespace SubtermIndex

variable {H : Hasher}

theorem same_of_consistent {E : List Entry} (consistent : Index.Consistent H E) {S T : Tree}
    (fitsS : S.Fits) (fitsT : T.Fits) (hS : ∀ A ∈ S.subtrees, A.entry H ∈ E)
    (hT : ∀ A ∈ T.subtrees, A.entry H ∈ E) (h : S.hash H = T.hash H) : S.Same T := by
  refine Tree.same_of_hash_eq fitsS fitsT ?_ h
  intro A hA B hB same
  rw [Tree.hash_eq, Tree.hash_eq] at same
  exact consistent _ (hS A hA) _ (hT B hB) same

/-- Where adding entries to consistent ones spoils them, one of the new entries has the hash of
another entry and is written differently. -/
theorem exists_of_not_consistent {E F : List Entry} (consistent : Index.Consistent H E)
    (spoilt : ¬ Index.Consistent H (E ++ F)) :
    ∃ e ∈ F, ∃ f, (f ∈ F ∨ f ∈ E) ∧ e.hash H = f.hash H ∧ e.record ≠ f.record := by
  rw [Index.Consistent] at spoilt
  push Not at spoilt
  obtain ⟨e, he, f, hf, hash, record⟩ := spoilt
  rcases List.mem_append.mp he with he | he <;> rcases List.mem_append.mp hf with hf | hf
  · exact absurd (consistent e he f hf hash) record
  · exact ⟨f, hf, e, .inr he, hash.symm, record.symm⟩
  · exact ⟨e, he, f, .inr hf, hash, record⟩
  · exact ⟨e, he, f, .inl hf, hash, record⟩

/-- Entries with one hash that are written differently come from different trees with one hash. -/
theorem not_same_of_record_ne {A B : Tree} (hash : (A.entry H).hash H = (B.entry H).hash H)
    (record : (A.entry H).record ≠ (B.entry H).record) :
    A.hash H = B.hash H ∧ ¬ A.Same B := by
  constructor
  · rw [A.hash_eq, B.hash_eq, hash]
  · intro same
    exact record (same.entry H)

theorem collides_iff {x : Input H} {m : Index} (sound : ∀ e, x.walk ≠ .error (.rejected e)) :
    (∃ h, (x.insert m).mapError Failure.toError = .error (.collision h)) ↔
      ¬ ∃ d, x.insert m = .ok d := by
  have sound (e : TreeError) : x.insert m ≠ .error (.rejected e) := by
    intro rejected
    exact sound e (x.indexer.insert_eq_rejected_iff.mp rejected)
  cases inserted : x.insert m with
  | ok d => simp [Except.mapError]
  | error failure =>
      cases failure with
      | rejected e => exact absurd inserted (sound e)
      | storeConflict h => simp [Except.mapError, Failure.toError]
      | mergeConflict h => simp [Except.mapError, Failure.toError]

/-- What a call that fails without rejecting the tree has closed does not go together with the
index. -/
theorem not_consistent_of_collides {x : Input H} {m : Index} {Ts : List Tree}
    (index : IndexOf H Ts m) (sound : ∀ e, x.walk ≠ .error (.rejected e))
    (fails : ¬ ∃ d, x.insert m = .ok d) :
    ¬ Index.Consistent H (Ts.flatMap (Tree.entries H) ++ x.trace.closed) := by
  intro consistent
  have all : ∃ m', m.putAll H x.trace.closed = .ok m' := by
    obtain ⟨m', all⟩ := Index.putAll_empty_isOk_iff.mpr consistent
    rw [Index.putAll_append, index] at all
    exact ⟨m', all⟩
  cases outcome : x.trace.outcome with
  | ok h => exact fails (Input.exists_insert_of_trace index.wellFormed (by rw [← outcome]) all)
  | error e =>
      have alone : ∃ sub, (∅ : Index).putAll H x.trace.closed = .ok sub := by
        refine Index.putAll_empty_isOk_iff.mpr ?_
        intro e he f hf
        exact consistent e (List.mem_append_right _ he) f (List.mem_append_right _ hf)
      refine sound e ?_
      rw [x.walk_eq_commit]
      exact Trace.commit_eq_rejected.mpr ⟨outcome, alone⟩

/-- The sub-trees of the inputs of the calls, as they are stored. -/
theorem mem_entries_iff {calls : List (Input H × NodeHash)} {Ts : List Tree}
    (all : List.Forall₂ (fun c T => c.1.Reads T ∧ c.2 = T.hash H) calls Ts) {e : Entry} :
    e ∈ Ts.flatMap (Tree.entries H) ↔ ∃ c ∈ calls, ∃ A, c.1.SubTree A ∧ A.entry H = e := by
  rw [List.mem_flatMap]
  constructor
  · rintro ⟨T, hT, he⟩
    obtain ⟨c, hc, reads, -⟩ := exists_of_forall₂_left all.flip hT
    obtain ⟨A, hA, rfl⟩ := Tree.mem_entries.mp he
    exact ⟨c, hc, A, reads.subTree_iff.mpr hA, rfl⟩
  · rintro ⟨c, hc, A, sub, rfl⟩
    obtain ⟨T, hT, reads, -⟩ := exists_of_forall₂_left all hc
    exact ⟨T, hT, Tree.mem_entries.mpr ⟨A, reads.subTree_iff.mp sub, rfl⟩⟩

theorem Reached.same_of_hash_eq {calls : List (Input H × NodeHash)} {m : Index}
    (reached : Reached H calls m) {c d : Input H × NodeHash} (hc : c ∈ calls) (hd : d ∈ calls)
    {A B : Tree} (hA : c.1.SubTree A) (hB : d.1.SubTree B) (h : A.hash H = B.hash H) :
    A.Same B := by
  obtain ⟨Ts, all, index⟩ := reached.exists_trees
  have stored {c : Input H × NodeHash} (hc : c ∈ calls) {A : Tree} (hA : c.1.SubTree A) :
      ∀ A' ∈ A.subtrees, A'.entry H ∈ Ts.flatMap (Tree.entries H) := by
    intro A' hA'
    exact (mem_entries_iff all).mpr ⟨c, hc, A', hA.of_mem hA', rfl⟩
  exact same_of_consistent index.consistent (c.1.fits_of_subTree hA) (d.1.fits_of_subTree hB)
    (stored hc hA) (stored hd hB) h

/-- Collisions are found exactly where there are any, whatever the digest.

Let an index be reached by calls.  A further call that does not reject its tree meets a
collision if and only if a sub-tree of it has the hash of a different sub-tree, of the same tree
or of one that is indexed already.  And two trees that are indexed have one root hash if and
only if they are structurally equal. -/
theorem insert_collides_iff {calls : List (Input H × NodeHash)} {m : Index}
    (reached : Reached H calls m) :
    (∀ x : Input H, (∀ e, x.walk ≠ .error (.rejected e)) →
      ((∃ h, (x.insert m).mapError Failure.toError = .error (.collision h)) ↔
        ∃ A B, x.SubTree A ∧ (x.SubTree B ∨ ∃ c ∈ calls, c.1.SubTree B) ∧
          A.hash H = B.hash H ∧ ¬ A.Same B)) ∧
    ∀ c ∈ calls, ∀ d ∈ calls, ∃ S T, c.1.Reads S ∧ d.1.Reads T ∧ (c.2 = d.2 ↔ S.Same T) := by
  obtain ⟨Ts, all, index⟩ := reached.exists_trees
  constructor
  · intro x sound
    rw [collides_iff sound]
    constructor
    · intro fails
      obtain ⟨e, he, f, hf, hash, record⟩ := exists_of_not_consistent index.consistent
        (not_consistent_of_collides index sound fails)
      obtain ⟨A, hA, rfl⟩ := x.exists_subTree_of_mem_closed he
      rcases hf with hf | hf
      · obtain ⟨B, hB, rfl⟩ := x.exists_subTree_of_mem_closed hf
        exact ⟨A, B, hA, .inl hB, not_same_of_record_ne hash record⟩
      · obtain ⟨c, hc, B, hB, rfl⟩ := (mem_entries_iff all).mp hf
        exact ⟨A, B, hA, .inr ⟨c, hc, hB⟩, not_same_of_record_ne hash record⟩
    · rintro ⟨A, B, hA, hB, hash, different⟩ ⟨d, inserted⟩
      have reached' := reached.insert x inserted
      have last : (x, d.root) ∈ calls ++ [(x, d.root)] :=
        List.mem_append_right _ (List.mem_singleton_self _)
      rcases hB with hB | ⟨c, hc, hB⟩
      · exact different (reached'.same_of_hash_eq last last hA hB hash)
      · exact different (reached'.same_of_hash_eq last (List.mem_append_left _ hc) hA hB hash)
  · intro c hc d hd
    obtain ⟨S, -, readsS, hashS⟩ := exists_of_forall₂_left all hc
    obtain ⟨T, -, readsT, hashT⟩ := exists_of_forall₂_left all hd
    refine ⟨S, T, readsS, readsT, ?_⟩
    rw [hashS, hashT]
    constructor
    · intro same
      exact reached.same_of_hash_eq hc hd readsS.subTree readsT.subTree same
    · intro same
      exact same.hash_eq H

/-! ## Trees that differ at the bottom only

The roots of the three trees have one payload, and their children have one hash.  The first
two trees are equal, and both are indexed.  The third one is not equal to them, and what is
different in it stands two levels below its root. -/

namespace Sample.Chains

theorem fits_payload (place : Place) : (payload place).toValue.fits := by
  obtain ⟨ending, level⟩ := place
  cases ending <;> cases level <;> decide +kernel

def input (ending : Ending) : Input .byLength where
  indexer := indexer
  root := root ending
  digest := rfl
  fits place _ _ found := by
    obtain rfl := Except.ok.inj found
    exact fits_payload place

/-- The first two trees are indexed with one hash, and the third one cannot follow them. -/
theorem exists_reached :
    ∃ h m, Reached .byLength [(input .asInteger, h), (input .asFloat, h)] m ∧
      ((input .otherField).insert m).toBool = false := by
  have evaluates : (((input .asInteger).insert ∅).bind fun first =>
      ((input .asFloat).insert first.index).map fun second =>
        (first.root == second.root, ((input .otherField).insert second.index).toBool)).toOption =
      some (true, false) := by decide +kernel
  cases firstly : (input .asInteger).insert ∅ with
  | error failure => simp [firstly, Except.bind, Except.toOption] at evaluates
  | ok first =>
      cases secondly : (input .asFloat).insert first.index with
      | error failure =>
          simp [firstly, secondly, Except.bind, Except.map, Except.toOption] at evaluates
      | ok second =>
          simp only [firstly, secondly, Except.bind, Except.map, Except.toOption,
            Option.some.injEq, Prod.mk.injEq, beq_iff_eq] at evaluates
          obtain ⟨roots, fails⟩ := evaluates
          have reached := (Reached.empty.insert _ firstly).insert _ secondly
          rw [← roots] at reached
          exact ⟨first.root, second.index, reached, fails⟩

end Sample.Chains

open Sample Chains in
theorem insert_collides_iff_chains :
    ∃ h m, Reached .byLength [(input .asInteger, h), (input .asFloat, h)] m ∧
      (∀ e, (input .otherField).walk ≠ .error (.rejected e)) ∧
      (∃ k, ((input .otherField).insert m).mapError Failure.toError = .error (.collision k)) ∧
      (∃ A B, (input .otherField).SubTree A ∧ ((input .otherField).SubTree B ∨
          ∃ c ∈ [(input .asInteger, h), (input .asFloat, h)], c.1.SubTree B) ∧
        A.hash .byLength = B.hash .byLength ∧ ¬ A.Same B) ∧
      ∃ S T, (input .asInteger).Reads S ∧ (input .asFloat).Reads T ∧ S.Same T := by
  obtain ⟨h, m, reached, fails⟩ := exists_reached
  have sound : ∀ e, (input .otherField).walk ≠ .error (.rejected e) := by
    have succeeds : (input .otherField).walk.toBool = true := by decide +kernel
    intro e rejected
    rw [rejected] at succeeds
    exact Bool.false_ne_true succeeds
  have collision : ∃ k, ((input .otherField).insert m).mapError Failure.toError =
      .error (.collision k) := by
    refine (collides_iff sound).mpr ?_
    rintro ⟨d, inserted⟩
    rw [inserted] at fails
    cases fails
  obtain ⟨collides, roots⟩ := insert_collides_iff reached
  obtain ⟨S, T, readsS, readsT, same⟩ :=
    roots (input .asInteger, h) (.head _) (input .asFloat, h) (.tail _ (.head _))
  exact ⟨h, m, reached, sound, collision, (collides _ sound).mp collision, S, T, readsS, readsT,
    same.mp rfl⟩

end SubtermIndex
