/-
# `SubtermIndex.Proofs.Cbor.Writer` — to write a value is to append its encoding

The writer sorts a list where the encoder fills an ordered map, and it compares neighbours where
the encoder counts; both accept the same entries and put them in the same order
(`sortEntries_eq`).  So whatever conversions it uses, as long as they are exact, the writer
appends the encoding of a value to the output or stops with the same error (`write_eq`).

The keys of a record are written into outputs of their own, so the induction is over all outputs
at once.
-/
import SubtermIndex.Cbor.Writer
import SubtermIndex.Proofs.Cbor.Narrowing
import SubtermIndex.Proofs.Cbor.Encoding

namespace SubtermIndex.Cbor

open Std

/-! ## Sorting -/

section Sorting

variable {α : Type} {entries : List (Bytes × α)}

theorem compare_eq_lt {a b : Bytes} (le : (compare a b).isLE) (differ : a ≠ b) :
    compare a b = .lt := by
  cases order : compare a b with
  | lt => rfl
  | eq => exact absurd (LawfulEqOrd.eq_of_compare order) differ
  | gt =>
      rw [order] at le
      cases le

theorem isLE_total (a b : Bytes) : ((compare a b).isLE || (compare b a).isLE) = true := by
  have swap : compare b a = (compare a b).swap := OrientedOrd.eq_swap
  rw [swap]
  cases compare a b <;> rfl

/-- In a sorted list, neighbours show whether any two keys are equal. -/
theorem hasEqualNeighbours_eq_false_iff
    (sorted : entries.Pairwise fun a b => (compare a.1 b.1).isLE) :
    hasEqualNeighbours entries = false ↔ entries.Pairwise fun a b => compare a.1 b.1 = .lt := by
  induction entries with
  | nil => simp [hasEqualNeighbours]
  | cons a rest ih =>
      cases rest with
      | nil => simp [hasEqualNeighbours]
      | cons b rest =>
          obtain ⟨least, sorted⟩ := List.pairwise_cons.mp sorted
          have next := (List.pairwise_cons.mp sorted).1
          rw [hasEqualNeighbours, Bool.or_eq_false_iff, ih sorted, beq_eq_false_iff_ne,
            @List.pairwise_cons _ _ a]
          refine and_congr_left fun _ => ?_
          constructor
          · intro differ
            have less := compare_eq_lt (least b List.mem_cons_self) differ
            exact List.forall_mem_cons.mpr
              ⟨less, fun r mem => TransCmp.lt_of_lt_of_isLE less (next r mem)⟩
          · intro less same
            have := less b List.mem_cons_self
            rw [same, ReflOrd.compare_self] at this
            cases this

/-- Sorting a list does what filling an ordered map does. -/
theorem sortEntries_eq (entries : List (Bytes × α)) : sortEntries entries = sortByKey entries := by
  have perm := entries.mergeSort_perm fun a b => (compare a.1 b.1).isLE
  have sorted : (entries.mergeSort fun a b => (compare a.1 b.1).isLE).Pairwise
      fun a b => (compare a.1 b.1).isLE :=
    List.pairwise_mergeSort (fun _ _ _ => TransCmp.isLE_trans) (fun _ _ => isLE_total _ _) entries
  have ascending := hasEqualNeighbours_eq_false_iff sorted
  rw [sortEntries]
  split
  case isTrue same =>
    symm
    refine sortByKey_eq_error_iff.mpr ⟨rfl, fun differ => ?_⟩
    have apart := (perm.pairwise_iff fun h h' => h h'.symm).mpr differ
    rw [ascending.mpr (sorted.imp₂ (fun _ _ => compare_eq_lt) apart)] at same
    cases same
  case isFalse differ =>
    symm
    exact sortByKey_eq_ok_iff.mpr ⟨perm, ascending.mp (Bool.not_eq_true _ ▸ differ)⟩

end Sorting

/-! ## Writing -/

def appending (encoded : Except EncodeError Bytes) : Writer := fun out => encoded.map (out ++ ·)

variable {c : Conversions}

theorem writeItems_eq {items : List Value} (each : ∀ v ∈ items, write c v = appending (encode v)) :
    writeItems c items = appending ((items.mapM encode).map List.flatten) := by
  induction items with
  | nil =>
      funext out
      simp [writeItems, appending, pure, Except.pure, Except.map]
  | cons v rest ih =>
      rw [List.forall_mem_cons] at each
      funext out
      rw [writeItems, each.1, ih each.2, List.mapM_cons]
      cases encode v with
      | error e => rfl
      | ok bs => cases rest.mapM encode with
        | error e => rfl
        | ok xs => simp [appending, bind, Except.bind, pure, Except.pure, Except.map]

theorem writeKeys_eq {entries : Entries}
    (each : ∀ e ∈ entries, write c e.1 = appending (encode e.1) ∧
      write c e.2 = appending (encode e.2)) :
    writeKeys c entries = entries.mapM (behindKey fun e => appending (encode e.2)) := by
  induction entries with
  | nil => rfl
  | cons e rest ih =>
      obtain ⟨k, v⟩ := e
      rw [List.forall_mem_cons] at each
      rw [writeKeys, each.1.1, each.1.2, ih each.2, List.mapM_cons, behindKey]
      cases encode k <;> rfl

theorem writeSorted_eq (sorted : List (Bytes × Except EncodeError Bytes)) (out : Bytes)
    (done : List Bytes) :
    writeSorted (sorted.map (Prod.map id appending)) (out ++ done.reverse.flatten) =
      appending (joinEntries sorted done) out := by
  induction sorted generalizing done with
  | nil => rfl
  | cons r rest ih =>
      obtain ⟨key, value⟩ := r
      cases value with
      | error e => rfl
      | ok bs =>
          rw [joinEntries, ← ih (bs :: key :: done)]
          simp [writeSorted, appending, Except.map, bind, Except.bind]

/-- A value is written behind any output by appending its encoding. -/
theorem write_eq (exact : c.Exact) (v : Value) : write c v = appending (encode v) := by
  induction v using Value.induction with
  | null => rfl
  | bool truth => rfl
  | int n => rfl
  | float bits =>
      rw [write, c.encodeFloat_eq exact]
      rfl
  | text s =>
      funext out
      simp [write, encode, appending, Except.map]
  | bytes bs =>
      funext out
      simp [write, encode, appending, Except.map]
  | list items each =>
      funext out
      rw [write, writeItems_eq each, encode, encodeItems_eq]
      cases items.mapM encode <;> simp [appending, Except.map]
  | record entries each =>
      funext out
      rw [write, writeKeys_eq each, mapM_behindKey_map, encode_record_eq]
      cases entries.mapM (behindKey fun e => encode e.2) with
      | error e => rfl
      | ok keyed =>
          -- no key is at fault, so the entries are sorted, and written with their values
          simp only [bind, Except.bind, Except.map, sortEntries_eq, sortByKey_map, encodeRecord]
          cases sortByKey keyed with
          | error e => rfl
          | ok sorted =>
              have joined := writeSorted_eq sorted (out ++ head .record sorted.length) []
              rw [List.reverse_nil, List.flatten_nil, List.append_nil] at joined
              simp only [List.length_map, joined, appending]
              cases joinEntries sorted [] <;> simp [Except.map]
  | tag number content _ => rfl

end SubtermIndex.Cbor
