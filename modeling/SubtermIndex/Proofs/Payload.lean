/-
# `SubtermIndex.Proofs.Payload` — a payload forgets the order of the entries

A payload is the one arrangement of the given entries in which the encoded keys ascend
(`Payload.ofEntries_eq_ok_iff`).  Hence entries that are alike, in whatever order they come, make
payloads that are written alike (`Payload.exists_ofEntries`).

Written alike is not equal: the values are kept as they are, and a number among them may be
spelled in another way.
-/
import SubtermIndex.Payload
import SubtermIndex.Proofs.Cbor.Alike

namespace SubtermIndex

open Cbor

namespace Payload

abbrev Keyed := Bytes × (Value × Value)

def keyed (e : Value × Value) : Keyed := (keyOf e.1, e)

theorem map_snd_keyed (entries : Entries) : (entries.map keyed).map Prod.snd = entries := by
  rw [List.map_map]
  exact List.map_id entries

/-- The entries of a record behind their keys, in ascending order. -/
def sortedEntries (entries : Entries) : Except EncodeError (List Keyed) :=
  (entries.mapM (behindKey id)).bind sortByKey

theorem ofEntries_eq (entries : Entries) :
    ofEntries entries = (sortedEntries entries).map fun sorted => ⟨sorted.map Prod.snd⟩ := by
  have keyed : (entries.mapM fun e => (encode e.1).map fun key => (key, e)) =
      entries.mapM (behindKey id) := rfl
  rw [ofEntries, sortedEntries, keyed]
  cases entries.mapM (behindKey id) with
  | error e => rfl
  | ok keyed =>
      simp only [bind, Except.bind]
      cases sortByKey keyed <;> rfl

theorem sortedEntries_eq_ok_iff {entries : Entries} {rows : List Keyed} :
    sortedEntries entries = .ok rows ↔
      (∀ e ∈ entries, (code? e.1).isSome) ∧
        ∃ sorted : Entries, rows = sorted.map keyed ∧ sorted.Perm entries ∧ InKeyOrder sorted := by
  rw [sortedEntries, bind_eq_ok_iff]
  simp only [mapM_behindKey_eq_ok, sortByKey_eq_ok_iff]
  constructor
  · rintro ⟨_, ⟨keys, rfl⟩, perm, ascending⟩
    have own : rows = (rows.map Prod.snd).map keyed := by
      rw [List.map_map]
      refine (List.map_id rows).symm.trans (List.map_congr_left fun r mem => ?_)
      obtain ⟨e, -, rfl⟩ := List.mem_map.mp (perm.subset mem)
      rfl
    refine ⟨keys, rows.map Prod.snd, own, ?_, ?_⟩
    · exact (perm.map Prod.snd).trans (.of_eq (map_snd_keyed entries))
    · rw [own, List.pairwise_map] at ascending
      exact List.pairwise_map.mpr ascending
  · rintro ⟨keys, sorted, rfl, perm, ascending⟩
    exact ⟨_, ⟨keys, rfl⟩, perm.map keyed, List.pairwise_map.mpr (List.pairwise_map.mp ascending)⟩

/-- The payload of some entries has the same entries, in ascending order of their keys. -/
theorem ofEntries_eq_ok_iff {entries : Entries} {p : Payload} :
    ofEntries entries = .ok p ↔
      (∀ e ∈ entries, (code? e.1).isSome) ∧ p.entries.Perm entries ∧ InKeyOrder p.entries := by
  rw [ofEntries_eq]
  constructor
  · intro h
    cases sorts : sortedEntries entries with
    | error cause =>
        rw [sorts] at h
        cases h
    | ok rows =>
        rw [sorts] at h
        obtain ⟨keys, sorted, rfl, perm, ascending⟩ := sortedEntries_eq_ok_iff.mp sorts
        simp only [Except.map, map_snd_keyed] at h
        obtain rfl := Except.ok.inj h
        exact ⟨keys, perm, ascending⟩
  · rintro ⟨keys, perm, ascending⟩
    rw [sortedEntries_eq_ok_iff.mpr ⟨keys, p.entries, rfl, perm, ascending⟩, Except.map,
      map_snd_keyed]

/-- Entries that are alike in some order make payloads that are written alike. -/
theorem exists_ofEntries {entries between entries' : Entries} {p : Payload}
    (h : ofEntries entries = .ok p) (perm : entries.Perm between)
    (alike : List.Forall₂ Value.AlikeEntries between entries') :
    ∃ p', ofEntries entries' = .ok p' ∧ code? p.toValue = code? p'.toValue := by
  obtain ⟨all, same, ascending⟩ := ofEntries_eq_ok_iff.mp h
  obtain ⟨sorted, alike', perm'⟩ := List.perm_comp_forall₂ (same.trans perm) alike
  have keys : ∀ f ∈ entries', (code? f.1).isSome := by
    intro f hf
    obtain ⟨e, he, entry⟩ := exists_of_forall₂_left alike.flip hf
    rw [← entry.1.code?_eq]
    exact all e (perm.symm.subset he)
  refine ⟨⟨sorted⟩, ?_, code?_record_congr (.of_eq (Value.map_codes?_eq alike'))⟩
  exact ofEntries_eq_ok_iff.mpr ⟨keys, perm', (Value.inKeyOrder_iff alike').mp ascending⟩

end Payload

end SubtermIndex
