/-
# `SubtermIndex.Proofs.Payload.Canonical` — a payload is the canonical form of its entries

All orders of some entries make one and the same payload, and making a payload of the entries of a
payload changes nothing (`Payload.ofEntries_canonical`).  Nothing is lost on the way: the entries
are only put in order, the record they came from is encoded like the payload, and a field is found
by its name exactly when one of the entries has that name.

All keys of a payload are different, so it has one entry at most under a name, and a look-up may
stop at the first one that it finds.
-/
import SubtermIndex.Proofs.Payload.Accepted

namespace SubtermIndex

open Cbor

namespace Payload

variable {entries : Entries} {p : Payload}

/-! ## The order of the entries -/

theorem ofEntries_of_perm {others : Entries} (made : ofEntries entries = .ok p)
    (perm : others.Perm entries) : ofEntries others = .ok p := by
  obtain ⟨keys, same, ascending⟩ := ofEntries_eq_ok_iff.mp made
  refine ofEntries_eq_ok_iff.mpr ⟨?_, same.trans perm.symm, ascending⟩
  intro e mem
  exact keys e (perm.subset mem)

theorem exists_ascending_keys (made : ofEntries entries = .ok p) :
    ∃ keys, (p.entries.mapM fun e => encode e.1) = .ok keys ∧
      keys.Pairwise fun a b => compare a b = .lt := by
  obtain ⟨keys, same, ascending⟩ := ofEntries_eq_ok_iff.mp made
  refine ⟨p.entries.map fun e : Value × Value => keyOf e.1, ?_, ascending⟩
  rw [mapM_eq_ok_iff, List.forall₂_map_right_iff, List.forall₂_same]
  intro e mem
  obtain ⟨key, written⟩ := code?_isSome.mp (keys e (same.subset mem))
  rw [keyOf, code?_eq_some.mpr written, Option.getD_some, written]

theorem pairwise_key_ne (made : ofEntries entries = .ok p) :
    p.entries.Pairwise fun e f => e.1 ≠ f.1 := by
  obtain ⟨-, -, ascending⟩ := ofEntries_eq_ok_iff.mp made
  refine (List.pairwise_map.mp ascending).imp ?_
  intro e f less same
  rw [same] at less
  exact absurd (less.symm.trans Std.ReflCmp.compare_self) (by decide)

/-! ## Fields by name -/

def entriesUnder (name : String) (entries : Entries) : Entries :=
  entries.filter fun e => e.1.asText? = some name

theorem eq_text_of_asText? {v : Value} {s : String} (text : v.asText? = some s) : v = .text s := by
  cases v <;> simp_all [Value.asText?]

/-- A payload has at most one entry under a name, and that is the one which is looked up. -/
theorem entriesUnder_self (made : ofEntries entries = .ok p) (name : String) :
    entriesUnder name p.entries = (p.get? name).toList.map fun v => (.text name, v) := by
  have named : ∀ e ∈ entriesUnder name p.entries, e.1 = .text name := by
    intro e mem
    exact eq_text_of_asText? (by simpa using (List.mem_filter.mp mem).2)
  have apart : (entriesUnder name p.entries).Pairwise fun e f => e.1 ≠ f.1 :=
    (pairwise_key_ne made).filter _
  have found : p.get? name = (entriesUnder name p.entries).head?.map (·.2) := by
    rw [get?, entriesUnder, List.head?_filter]
  rw [found]
  generalize entriesUnder name p.entries = row at named apart
  match row with
  | [] => rfl
  | [e] =>
      have key := named e (List.mem_singleton_self e)
      simp [← key]
  | e :: f :: rest =>
      have ne := (List.pairwise_cons.mp apart).1 f List.mem_cons_self
      rw [named e List.mem_cons_self, named f (List.mem_cons_of_mem _ List.mem_cons_self)] at ne
      exact absurd rfl ne

/-- Among the entries of which a payload is made, at most one stands under a name. -/
theorem entriesUnder_eq (made : ofEntries entries = .ok p) (name : String) :
    entriesUnder name entries = (p.get? name).toList.map fun v => (.text name, v) := by
  obtain ⟨-, same, -⟩ := ofEntries_eq_ok_iff.mp made
  have perm : (entriesUnder name entries).Perm (entriesUnder name p.entries) := (same.filter _).symm
  rw [entriesUnder_self made] at perm
  cases looked : p.get? name with
  | none =>
      rw [looked] at perm
      exact perm.eq_nil
  | some v =>
      rw [looked] at perm
      exact perm.eq_singleton

theorem get?_eq_some_iff (made : ofEntries entries = .ok p) {name : String} {v : Value} :
    p.get? name = some v ↔ entriesUnder name entries = [(.text name, v)] := by
  rw [entriesUnder_eq made]
  cases p.get? name <;> simp

theorem get?_eq_none_iff (made : ofEntries entries = .ok p) {name : String} :
    p.get? name = none ↔ ∀ e ∈ entries, e.1.asText? ≠ some name := by
  have empty : p.get? name = none ↔ entriesUnder name entries = [] := by
    rw [entriesUnder_eq made]
    cases p.get? name <;> simp
  rw [empty, entriesUnder, List.filter_eq_nil_iff]
  simp

/-! ## The main statement -/

/-- A payload is the canonical form of the entries that it is made of.  Every order of them makes
it, and so do its own entries; these are the given ones with ascending encoded keys; it is
encoded like the record of the given entries; and a look-up finds the one entry of the name. -/
theorem ofEntries_canonical (made : ofEntries entries = .ok p) :
    (∀ others : Entries, others.Perm entries → ofEntries others = .ok p) ∧
      p.entries.Perm entries ∧
      (∃ keys, (p.entries.mapM fun e => encode e.1) = .ok keys ∧
        keys.Pairwise fun a b => compare a b = .lt) ∧
      ofEntries p.entries = .ok p ∧
      encode p.toValue = encode (.record entries) ∧
      ∀ name,
        (∀ v, p.get? name = some v ↔ entriesUnder name entries = [(.text name, v)]) ∧
          (p.get? name = none ↔ ∀ e ∈ entries, e.1.asText? ≠ some name) := by
  have perm := (ofEntries_eq_ok_iff.mp made).2.1
  refine ⟨?_, perm, exists_ascending_keys made, ofEntries_of_perm made perm, ?_, ?_⟩
  · intro others same
    exact ofEntries_of_perm made same
  · rw [encode_record_eq_payload, made]
    rfl
  · intro name
    exact ⟨fun v => get?_eq_some_iff made, get?_eq_none_iff made⟩

/-- `{"b": 1(null), "a": true}`, out of order and with a value that has no encoding. -/
def unorderedFields : Entries := [(.text "b", .tag 1 .null), (.text "a", .bool true)]

theorem ofEntries_canonical_unorderedFields :
    ofEntries unorderedFields = .ok ⟨unorderedFields.reverse⟩ ∧
      ofEntries unorderedFields.reverse = .ok ⟨unorderedFields.reverse⟩ ∧
      encode (.record unorderedFields.reverse) = encode (.record unorderedFields) ∧
      (Payload.mk unorderedFields.reverse).get? "b" = some (.tag 1 .null) ∧
      (Payload.mk unorderedFields.reverse).get? "c" = none := by
  have keys : ∀ e ∈ unorderedFields, (code? e.1).isSome := by decide +kernel
  have ascending : InKeyOrder unorderedFields.reverse := by decide +kernel
  have made : ofEntries unorderedFields = .ok ⟨unorderedFields.reverse⟩ :=
    ofEntries_eq_ok_iff.mpr ⟨keys, List.reverse_perm _, ascending⟩
  obtain ⟨-, -, -, again, written, fields⟩ := ofEntries_canonical made
  refine ⟨made, again, written, ?_, ?_⟩
  · exact ((fields "b").1 _).mpr rfl
  · exact (fields "c").2.mpr (by decide +kernel)

end Payload

end SubtermIndex
