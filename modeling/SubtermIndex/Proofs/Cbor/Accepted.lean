/-
# `SubtermIndex.Proofs.Cbor.Accepted` — which values have an encoding

A value has an encoding unless a tag occurs in it, or a record in which two entries have keys that
are encoded by the same bytes (`encode_accepts`).  To occur in a value is to stand anywhere below
it, in keys as well as in values.

The encoder stops at the first fault that it meets, and it meets them in an order of its own: all
keys of a record before any of its values, and the values in the order of the encoded keys.
Whichever fault it reports is there, and there are no others to report.  Which of several faults
it is, is not said here.

The induction is over values, and what it carries is the outcome of the encoding together with
what it tells about faults (`Outcome`).  A fault in a part is one of the whole
(`Outcome.of_part`), and a value without faults has parts without faults.
-/
import SubtermIndex.Proofs.Cbor.Occurs

namespace SubtermIndex.Cbor

namespace Value

/-! ## Faults -/

def IsTag (v : Value) : Prop := v.kind = .tag

def RepeatsKey (v : Value) : Prop :=
  ∃ entries, v = .record entries ∧
    ¬ entries.Pairwise fun e f => ¬ ∃ key, encode e.1 = .ok key ∧ encode f.1 = .ok key

theorem repeatsKey_record {entries : Entries} :
    RepeatsKey (.record entries) ↔
      ¬ entries.Pairwise fun e f => ¬ ∃ key, encode e.1 = .ok key ∧ encode f.1 = .ok key := by
  constructor
  · rintro ⟨_, same, repeated⟩
    cases same
    exact repeated
  · exact fun repeated => ⟨entries, rfl, repeated⟩

/-- Keys that are all encoded repeat one when two of their encodings are equal. -/
theorem not_repeatsKey_iff {entries : Entries} (keys : ∀ e ∈ entries, (code? e.1).isSome) :
    ¬ RepeatsKey (.record entries) ↔ entries.Pairwise fun e f => keyOf e.1 ≠ keyOf f.1 := by
  rw [repeatsKey_record, not_not]
  refine List.Pairwise.iff_of_mem fun {e f} he hf => not_congr ?_
  obtain ⟨key, hkey⟩ := Option.isSome_iff_exists.mp (keys e he)
  obtain ⟨key', hkey'⟩ := Option.isSome_iff_exists.mp (keys f hf)
  simp only [← code?_eq_some, keyOf, hkey, hkey', Option.some.injEq, Option.getD_some]
  exact exists_eq_right'

def Faultless (v : Value) : Prop := ¬ v.Somewhere IsTag ∧ ¬ v.Somewhere RepeatsKey

theorem faultless_scalar {v : Value} (collection : v.isCollection = false) (tag : v.kind ≠ .tag) :
    Faultless v := by
  rw [Faultless, somewhere_scalar collection tag, somewhere_scalar collection tag]
  refine ⟨tag, ?_⟩
  rintro ⟨entries, rfl, -⟩
  cases collection

theorem faultless_text (s : String) : Faultless (.text s) :=
  faultless_scalar rfl (by simp [kind])

theorem faultless_int (n : Integer) : Faultless (.int n) :=
  faultless_scalar rfl (by simp [kind])

theorem faultless_list {items : List Value} (each : ∀ v ∈ items, Faultless v) :
    Faultless (.list items) := by
  rw [Faultless, somewhere_list, somewhere_list]
  constructor
  · rintro (absurd | ⟨v, mem, there⟩)
    · cases absurd
    · exact (each v mem).1 there
  · rintro (⟨_, absurd, -⟩ | ⟨v, mem, there⟩)
    · cases absurd
    · exact (each v mem).2 there

theorem faultless_record {entries : Entries} (each : ∀ e ∈ entries, Faultless e.1 ∧ Faultless e.2)
    (keys : ¬ RepeatsKey (.record entries)) : Faultless (.record entries) := by
  rw [Faultless, somewhere_record, somewhere_record]
  constructor
  · rintro (absurd | ⟨e, mem, there | there⟩)
    · cases absurd
    · exact (each e mem).1.1 there
    · exact (each e mem).2.1 there
  · rintro (repeated | ⟨e, mem, there | there⟩)
    · exact keys repeated
    · exact (each e mem).1.2 there
    · exact (each e mem).2.2 there

/-- What the encoding of a value tells about the faults in it. -/
inductive Outcome (v : Value) : Except EncodeError Bytes → Prop
  | written (x : Bytes) : Faultless v → Outcome v (.ok x)
  | tag : v.Somewhere IsTag → Outcome v (.error .tag)
  | repeated : v.Somewhere RepeatsKey → Outcome v (.error .duplicateKey)

theorem Outcome.faultless {v : Value} {x : Bytes} (h : Outcome v (.ok x)) : Faultless v := by
  cases h with
  | written _ faultless => exact faultless

/-- A fault in a part is a fault of the whole. -/
theorem Outcome.of_part {v whole : Value} {e : EncodeError} (h : Outcome v (.error e))
    (part : ∀ P, Somewhere P v → Somewhere P whole) : Outcome whole (.error e) := by
  cases h with
  | tag there => exact .tag (part _ there)
  | repeated there => exact .repeated (part _ there)

end Value

open Value

/-! ## Lists and records that are refused -/

theorem exists_of_encode_list_eq_error {items : List Value} {e : EncodeError}
    (h : encode (.list items) = .error e) : ∃ v ∈ items, encode v = .error e := by
  rw [encode, encodeItems_eq] at h
  cases all : items.mapM encode with
  | error cause =>
      rw [all] at h
      cases h
      exact exists_of_mapM_eq_error all
  | ok xs =>
      rw [all] at h
      cases h

theorem exists_of_joinEntries_eq_error {sorted : List (Bytes × Except EncodeError Bytes)}
    {done : List Bytes} {e : EncodeError} (h : joinEntries sorted done = .error e) :
    ∃ r ∈ sorted, r.2 = .error e := by
  induction sorted generalizing done with
  | nil => cases h
  | cons r rest ih =>
      obtain ⟨key, value⟩ := r
      cases value with
      | error cause =>
          cases h
          exact ⟨_, List.mem_cons_self, rfl⟩
      | ok bs =>
          rw [joinEntries] at h
          obtain ⟨r, mem, fails⟩ := ih h
          exact ⟨r, List.mem_cons_of_mem _ mem, fails⟩

theorem encode_record_eq_error {entries : Entries} {e : EncodeError}
    (h : encode (.record entries) = .error e) :
    (∃ f ∈ entries, encode f.1 = .error e ∨ encode f.2 = .error e) ∨
      e = .duplicateKey ∧ RepeatsKey (.record entries) := by
  rw [encode_record_eq] at h
  rcases bind_eq_error_iff.mp h with keyFails | ⟨keyed, all, rest⟩
  · obtain ⟨f, mem, fails⟩ := exists_of_mapM_eq_error keyFails
    refine .inl ⟨f, mem, .inl ?_⟩
    rw [behindKey] at fails
    cases key : encode f.1 with
    | error cause =>
        rw [key] at fails
        cases fails
        rfl
    | ok bs =>
        rw [key] at fails
        cases fails
  · obtain ⟨keys, rfl⟩ := mapM_behindKey_eq_ok.mp all
    rw [encodeRecord] at rest
    split at rest
    case h_1 cause sorts =>
      -- all keys are encoded, so that sorting fails for equal ones only
      cases rest
      obtain ⟨rfl, same⟩ := sortByKey_eq_error_iff.mp sorts
      rw [List.pairwise_map] at same
      exact .inr ⟨rfl, not_not.mp (same ∘ (not_repeatsKey_iff keys).mp)⟩
    case h_2 sorted sorts =>
      cases joins : joinEntries sorted [] with
      | ok body =>
          rw [joins] at rest
          cases rest
      | error cause =>
          rw [joins] at rest
          cases rest
          obtain ⟨r, mem, fails⟩ := exists_of_joinEntries_eq_error joins
          have mem' := (sortByKey_eq_ok_iff.mp sorts).1.subset mem
          obtain ⟨f, hf, rfl⟩ := List.mem_map.mp mem'
          exact .inl ⟨f, hf, .inr fails⟩

/-! ## Lists and records that are written -/

theorem exists_encode_of_mem {items : List Value} {x : Bytes} (h : encode (.list items) = .ok x)
    {v : Value} (mem : v ∈ items) : ∃ y, encode v = .ok y := by
  obtain ⟨xs, codes, -⟩ := encode_list.mp h
  have : code? v ∈ xs.map some := codes ▸ List.mem_map_of_mem mem
  obtain ⟨y, -, hy⟩ := List.mem_map.mp this
  exact ⟨y, code?_eq_some.mp hy.symm⟩

theorem exists_encode_of_entry {entries : Entries} {x : Bytes}
    (h : encode (.record entries) = .ok x) {e : Value × Value} (mem : e ∈ entries) :
    ∃ r : Row, encode e.1 = .ok r.1 ∧ encode e.2 = .ok r.2 := by
  obtain ⟨rows, -, perm, -⟩ := encode_record.mp h
  obtain ⟨r, -, hr⟩ := List.mem_map.mp (perm.subset (List.mem_map_of_mem mem))
  exact ⟨r, codes?_eq_known.mp hr.symm⟩

/-- The keys of a record that is written are all different. -/
theorem not_repeatsKey_of_encode {entries : Entries} {x : Bytes}
    (h : encode (.record entries) = .ok x) : ¬ RepeatsKey (.record entries) := by
  obtain ⟨rows, ascending, perm, -⟩ := encode_record.mp h
  have written : ∀ e ∈ entries, (code? e.1).isSome := by
    intro e mem
    obtain ⟨r, hk, -⟩ := exists_encode_of_entry h mem
    rw [code?_eq_some.mpr hk]
    rfl
  have keys : (entries.map fun e => keyOf e.1).Perm (rows.map Prod.fst) := by
    have := perm.map fun c => c.1.getD []
    rwa [List.map_map, List.map_map] at this
  have apart : (rows.map Prod.fst).Nodup := by
    refine List.pairwise_map.mpr (ascending.imp ?_)
    rintro a b less same
    rw [same, Std.ReflOrd.compare_self] at less
    cases less
  exact (not_repeatsKey_iff written).mpr (List.pairwise_map.mp (keys.nodup_iff.mpr apart))

/-- A record is written when all its keys and values are, and no two keys alike. -/
theorem exists_encode_record_iff {entries : Entries} :
    (∃ x, encode (.record entries) = .ok x) ↔
      (∀ e ∈ entries, ∃ r : Row, encode e.1 = .ok r.1 ∧ encode e.2 = .ok r.2) ∧
        ¬ RepeatsKey (.record entries) := by
  constructor
  · rintro ⟨x, h⟩
    exact ⟨fun e mem => exists_encode_of_entry h mem, not_repeatsKey_of_encode h⟩
  · rintro ⟨written, apart⟩
    cases h : encode (.record entries) with
    | ok x => exact ⟨x, rfl⟩
    | error e =>
        rcases encode_record_eq_error h with ⟨f, mem, fails⟩ | ⟨-, repeated⟩
        · obtain ⟨r, hk, hv⟩ := written f mem
          simp [hk, hv] at fails
        · exact absurd repeated apart

/-! ## The main statements -/

theorem outcome_encode (v : Value) : Outcome v (encode v) := by
  induction v using Value.induction with
  | tag number content _ => exact .tag (somewhere_self rfl)
  | list items ih =>
      cases h : encode (.list items) with
      | error e =>
          obtain ⟨v, mem, fails⟩ := exists_of_encode_list_eq_error h
          exact (fails ▸ ih v mem).of_part fun P there => somewhere_list.mpr (.inr ⟨v, mem, there⟩)
      | ok x =>
          refine .written x (faultless_list ?_)
          intro v mem
          obtain ⟨y, hy⟩ := exists_encode_of_mem h mem
          exact (hy ▸ ih v mem).faultless
  | record entries ih =>
      cases h : encode (.record entries) with
      | error e =>
          rcases encode_record_eq_error h with ⟨f, mem, fails | fails⟩ | ⟨rfl, repeated⟩
          · exact (fails ▸ (ih f mem).1).of_part fun P there =>
              somewhere_record.mpr (.inr ⟨f, mem, .inl there⟩)
          · exact (fails ▸ (ih f mem).2).of_part fun P there =>
              somewhere_record.mpr (.inr ⟨f, mem, .inr there⟩)
          · exact .repeated (somewhere_self repeated)
      | ok x =>
          refine .written x (faultless_record ?_ (not_repeatsKey_of_encode h))
          intro f mem
          obtain ⟨r, hk, hv⟩ := exists_encode_of_entry h mem
          exact ⟨(hk ▸ (ih f mem).1).faultless, (hv ▸ (ih f mem).2).faultless⟩
  | _ => exact .written _ (faultless_scalar rfl (by simp [kind]))

theorem exists_encode_of_faultless {v : Value} (h : Faultless v) : ∃ x, encode v = .ok x := by
  cases outcome : encode v with
  | ok x => exact ⟨x, rfl⟩
  | error e =>
      cases outcome ▸ outcome_encode v with
      | tag there => exact absurd there h.1
      | repeated there => exact absurd there h.2

theorem code?_text_isSome (s : String) : (code? (.text s)).isSome :=
  code?_isSome.mpr (exists_encode_of_faultless (faultless_text s))

/-- A value has an encoding exactly when no tag and no record with a repeated key occurs in it; and
the fault that is reported for another one does occur in it. No value is reported as unsupported. -/
theorem encode_accepts (v : Value) :
    ((∃ x, encode v = .ok x) ↔ ¬ v.Somewhere IsTag ∧ ¬ v.Somewhere RepeatsKey) ∧
      ∀ e, encode v = .error e →
        e = .tag ∧ v.Somewhere IsTag ∨ e = .duplicateKey ∧ v.Somewhere RepeatsKey := by
  cases outcome : encode v with
  | ok x =>
      have faultless := (outcome ▸ outcome_encode v).faultless
      exact ⟨⟨fun _ => faultless, fun _ => ⟨x, rfl⟩⟩, by simp⟩
  | error e =>
      have faulty : e = .tag ∧ v.Somewhere IsTag ∨ e = .duplicateKey ∧ v.Somewhere RepeatsKey := by
        cases outcome ▸ outcome_encode v with
        | tag there => exact .inl ⟨rfl, there⟩
        | repeated there => exact .inr ⟨rfl, there⟩
      refine ⟨⟨by simp, ?_⟩, ?_⟩
      · rintro ⟨noTag, noRepeat⟩
        rcases faulty with ⟨-, there⟩ | ⟨-, there⟩
        · exact absurd there noTag
        · exact absurd there noRepeat
      · intro e' same
        cases same
        exact faulty

end SubtermIndex.Cbor
