/-
# `SubtermIndex.Proofs.Payload.Accepted` — which entries make a payload

A payload is made of entries whose keys have encodings, all of them different
(`Payload.ofEntries_accepts`).  Nothing is asked of the values.  To encode a record is to make a
payload of its entries and to encode that, so what is refused for a value is refused by the second
step.

The two steps sort twice.  The second time nothing is left to be sorted, and so the record that
the payload becomes is written in its own order.
-/
import SubtermIndex.Proofs.Payload
import SubtermIndex.Proofs.Cbor.Accepted

namespace SubtermIndex

open Cbor

namespace Payload

theorem sortedEntries_map {entries : Entries} {rows : List Keyed}
    (h : sortedEntries entries = .ok rows) : sortedEntries (rows.map Prod.snd) = .ok rows := by
  obtain ⟨keys, sorted, rfl, perm, ascending⟩ := sortedEntries_eq_ok_iff.mp h
  rw [map_snd_keyed]
  exact sortedEntries_eq_ok_iff.mpr
    ⟨fun e mem => keys e (perm.subset mem), sorted, rfl, .refl sorted, ascending⟩

def joinSorted (sorted : List Keyed) : Except EncodeError Bytes :=
  (joinEntries (sorted.map (Prod.map id fun e => encode e.2)) []).map
    (head .record sorted.length ++ ·)

theorem encode_record_eq_bind (entries : Entries) :
    encode (.record entries) = (sortedEntries entries).bind joinSorted := by
  have keyed : entries.mapM (behindKey fun e => encode e.2) = _ :=
    mapM_behindKey_map id (fun e => encode e.2) entries
  rw [encode_record_eq, keyed, sortedEntries]
  cases entries.mapM (behindKey id) with
  | error e => rfl
  | ok keyed =>
      simp only [Except.map, Except.bind, encodeRecord, sortByKey_map]
      cases sortByKey keyed with
      | error e => rfl
      | ok sorted => simp [Except.map, joinSorted]

/-- To encode a record is to make a payload of its entries and to encode that. -/
theorem encode_record_eq_payload (entries : Entries) :
    encode (.record entries) = (ofEntries entries).bind fun p => encode p.toValue := by
  rw [encode_record_eq_bind, ofEntries_eq]
  cases h : sortedEntries entries with
  | error e => rfl
  | ok sorted =>
      simp only [Except.map, Except.bind, toValue, encode_record_eq_bind, sortedEntries_map h]

theorem exists_ofEntries_iff {entries : Entries} :
    (∃ p, ofEntries entries = .ok p) ↔
      (∀ e ∈ entries, ∃ key, encode e.1 = .ok key) ∧ ¬ Value.RepeatsKey (.record entries) := by
  have sorting : (∃ p, ofEntries entries = .ok p) ↔
      ∃ sorted, sortedEntries entries = .ok sorted := by
    rw [ofEntries_eq]
    cases sortedEntries entries <;> simp [Except.map]
  simp only [sorting, sortedEntries, bind_eq_ok_iff, mapM_behindKey_eq_ok, ← code?_isSome]
  constructor
  · rintro ⟨sorted, _, ⟨keys, rfl⟩, sorts⟩
    have apart := exists_sortByKey.mp ⟨sorted, sorts⟩
    rw [List.pairwise_map] at apart
    exact ⟨keys, (Value.not_repeatsKey_iff keys).mpr apart⟩
  · rintro ⟨keys, apart⟩
    have differ : (entries.map fun e => (keyOf e.1, id e)).Pairwise fun r s => r.1 ≠ s.1 :=
      List.pairwise_map.mpr ((Value.not_repeatsKey_iff keys).mp apart)
    obtain ⟨sorted, sorts⟩ := exists_sortByKey.mpr differ
    exact ⟨sorted, _, ⟨keys, rfl⟩, sorts⟩

/-! ## The main statement -/

/-- Entries make a payload when their keys are all encoded, and no two of them alike.  They are
encoded as a record when they make a payload and their values are encoded as well; and what is
wrong with a record is noticed when the payload is made, or else when that is encoded. -/
theorem ofEntries_accepts (entries : Entries) :
    ((∃ p, ofEntries entries = .ok p) ↔
      (∀ e ∈ entries, ∃ key, encode e.1 = .ok key) ∧ ¬ Value.RepeatsKey (.record entries)) ∧
    ((∃ x, encode (.record entries) = .ok x) ↔
      (∃ p, ofEntries entries = .ok p) ∧ ∀ e ∈ entries, ∃ x, encode e.2 = .ok x) ∧
    encode (.record entries) = (ofEntries entries).bind fun p => encode p.toValue := by
  refine ⟨exists_ofEntries_iff, ?_, encode_record_eq_payload entries⟩
  rw [exists_encode_record_iff, exists_ofEntries_iff]
  constructor
  · rintro ⟨written, apart⟩
    refine ⟨⟨?_, apart⟩, ?_⟩
    · intro e mem
      obtain ⟨r, hk, -⟩ := written e mem
      exact ⟨r.1, hk⟩
    · intro e mem
      obtain ⟨r, -, hv⟩ := written e mem
      exact ⟨r.2, hv⟩
  · rintro ⟨⟨keys, apart⟩, values⟩
    refine ⟨?_, apart⟩
    intro e mem
    obtain ⟨key, hk⟩ := keys e mem
    obtain ⟨value, hv⟩ := values e mem
    exact ⟨(key, value), hk, hv⟩

/-- `{"k": 1(null)}`, with a tag for a value. -/
def taggedField : Entries := [(.text "k", .tag 1 .null)]

/-- A payload with a tagged value is made, and cannot be encoded. -/
theorem ofEntries_taggedField :
    (∃ p, ofEntries taggedField = .ok p ∧ encode p.toValue = .error .tag) ∧
      encode (.record taggedField) = .error .tag := by
  have key : encode (.text "k") = .ok [0x61, 0x6b] := by decide +kernel
  have sorts : ofEntries taggedField = .ok ⟨taggedField⟩ := by
    refine ofEntries_eq_ok_iff.mpr ⟨?_, .refl _, List.pairwise_singleton _ _⟩
    intro e mem
    obtain rfl := List.mem_singleton.mp mem
    exact code?_isSome.mpr ⟨_, key⟩
  have fails : encode (.record taggedField) = .error .tag := by decide +kernel
  exact ⟨⟨_, sorts, fails⟩, fails⟩

end Payload

end SubtermIndex
