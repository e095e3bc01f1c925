/-
# `SubtermIndex.Proofs.Cbor.Encoding` — what an encoding is made of

The encoder works with accumulators and an ordered map.  Here it is said once what it makes of a
list and of a record, in terms of the encodings of their parts (`encode_list`, `encode_record`):
the items one after another, and rows of key and value that stand in ascending order of the keys
and are, but for their order, the entries of the record.  Nothing after this module opens the
encoder.

Since the rows do not depend on the order of the entries, neither does the encoding; and values
that are equal as data have the same encoding (`encode_eq_of_equal`).

Three of the steps are worth a name.  Filling an ordered map is sorting, and fails for equal keys
and for nothing else (`sortByKey_eq_ok_iff`, `sortByKey_eq_error_iff`).  It looks at the keys
only, so that it may be done before or after the values are encoded (`sortByKey_map`).  And
ascending rows are determined by which rows they are (`InKeyOrder.eq_of_perm`).
-/
import SubtermIndex.Cbor.Encoding
import SubtermIndex.Proofs.BinaryFloat
import SubtermIndex.Proofs.Lists
import Mathlib.Data.List.Basic
import Mathlib.Data.List.Nodup
import Mathlib.Data.List.Perm.Basic
import Mathlib.Data.List.Perm.Subperm

namespace SubtermIndex.Cbor

open Std

/-! ## Induction over values -/

/-- Structural induction: what holds of a list if it holds of its items, of a record if it
holds of its keys and values, of a tagged value if it holds of its content, and of every
other value, holds of all. -/
theorem Value.induction {P : Value → Prop} (null : P .null) (bool : ∀ b, P (.bool b))
    (int : ∀ n, P (.int n)) (float : ∀ bits, P (.float bits)) (text : ∀ s, P (.text s))
    (bytes : ∀ bs, P (.bytes bs)) (list : ∀ items, (∀ v ∈ items, P v) → P (.list items))
    (record : ∀ entries : Entries, (∀ e ∈ entries, P e.1 ∧ P e.2) → P (.record entries))
    (tag : ∀ number content, P content → P (.tag number content)) (v : Value) : P v := by
  refine @Value.rec P (fun items => ∀ v ∈ items, P v)
    (fun entries => ∀ e ∈ entries, P e.1 ∧ P e.2) (fun e => P e.1 ∧ P e.2) null bool int float
    text bytes list record tag ?_ ?_ ?_ ?_ ?_ v
  · exact List.forall_mem_nil _
  · intro v rest hv hrest
    exact List.forall_mem_cons.mpr ⟨hv, hrest⟩
  · exact List.forall_mem_nil _
  · intro e rest he hrest
    exact List.forall_mem_cons.mpr ⟨he, hrest⟩
  · intro k v hk hv
    exact ⟨hk, hv⟩

/-! ## Sorting -/

section Sorting

variable {α : Type} {entries sorted : List (Bytes × α)}

/-- Entries that all find a place of their own in an ordered map have different keys,
and none of them was in the map. -/
theorem distinct_of_size_foldl (m : ExtTreeMap Bytes α)
    (h : (entries.foldl (fun m e => m.insert e.1 e.2) m).size = m.size + entries.length) :
    entries.Pairwise (fun a b => ¬ compare a.1 b.1 = .eq) ∧ ∀ e ∈ entries, e.1 ∉ m := by
  induction entries generalizing m with
  | nil => simp
  | cons e rest ih =>
      have upper : (rest.foldl (fun m e => m.insert e.1 e.2) (m.insert e.1 e.2)).size
          ≤ (m.insert e.1 e.2).size + rest.length := by
        rw [← ExtTreeMap.insertMany_list_eq_foldl]
        exact ExtTreeMap.size_insertMany_list_le
      have one := ExtTreeMap.size_insert_le (t := m) (k := e.1) (v := e.2)
      simp only [List.foldl_cons, List.length_cons] at h
      have new : e.1 ∉ m := by
        intro he
        rw [ExtTreeMap.size_insert, if_pos (ExtTreeMap.mem_iff_contains.mp he)] at upper
        omega
      obtain ⟨apart, outside⟩ := ih (m.insert e.1 e.2) (by omega)
      simp only [ExtTreeMap.mem_insert, not_or] at outside
      refine ⟨List.pairwise_cons.mpr ⟨fun e' he' => (outside e' he').1, apart⟩, ?_⟩
      exact List.forall_mem_cons.mpr ⟨new, fun e' he' => (outside e' he').2⟩

theorem sortByKey_eq_ok_iff :
    sortByKey entries = .ok sorted ↔
      sorted.Perm entries ∧ sorted.Pairwise (fun a b => compare a.1 b.1 = .lt) := by
  unfold sortByKey
  rw [← ExtTreeMap.ofList_eq_foldl]
  -- a map of entries with different keys has lost none of them
  have perm (apart : entries.Pairwise (fun a b => ¬ compare a.1 b.1 = .eq)) :
      (ExtTreeMap.ofList entries).toList.Perm entries := by
    have nodup : entries.Nodup := by
      refine apart.imp ?_
      rintro a _ h rfl
      exact h ReflOrd.compare_self
    refine (List.Subperm.perm_of_length_le (nodup.subperm ?_) ?_).symm
    · intro e he
      exact ExtTreeMap.mem_toList_iff_getElem?_eq_some.mpr
        (ExtTreeMap.getElem?_ofList_of_mem ReflOrd.compare_self apart he)
    · rw [ExtTreeMap.length_toList, ExtTreeMap.size_ofList apart]
  constructor
  · intro h
    dsimp only at h
    split at h
    case isTrue hsize =>
      rw [ExtTreeMap.ofList_eq_foldl] at hsize
      have apart := (distinct_of_size_foldl ∅ (by simpa using hsize)).1
      obtain rfl := Except.ok.inj h
      exact ⟨perm apart, ExtTreeMap.ordered_keys_toList⟩
    case isFalse => simp at h
  · rintro ⟨hperm, ascending⟩
    have apart : entries.Pairwise (fun a b => ¬ compare a.1 b.1 = .eq) := by
      refine (hperm.pairwise_iff fun h h' => h (OrientedCmp.eq_comm.mp h')).mp
        (ascending.imp ?_)
      intro a b h
      simp [h]
    rw [if_pos (ExtTreeMap.size_ofList apart)]
    congr 1
    -- two ascending lists of the same entries are one list
    refine ((perm apart).trans hperm.symm).eq_of_pairwise ?_
      ExtTreeMap.ordered_keys_toList ascending
    intro a b _ _ h h'
    have swap : compare a.1 b.1 = (compare b.1 a.1).swap := OrientedOrd.eq_swap
    rw [h, h'] at swap
    simp at swap

theorem exists_sortByKey :
    (∃ sorted, sortByKey entries = .ok sorted) ↔ entries.Pairwise fun a b => a.1 ≠ b.1 := by
  constructor
  · rintro ⟨sorted, h⟩
    obtain ⟨perm, ascending⟩ := sortByKey_eq_ok_iff.mp h
    refine (perm.pairwise_iff fun h h' => h h'.symm).mp (ascending.imp ?_)
    intro a b less same
    rw [same, ReflOrd.compare_self] at less
    cases less
  · intro apart
    have distinct : entries.Pairwise fun a b => ¬ compare a.1 b.1 = .eq :=
      apart.imp fun h h' => h (LawfulEqOrd.eq_of_compare h')
    rw [sortByKey, ← ExtTreeMap.ofList_eq_foldl, if_pos (ExtTreeMap.size_ofList distinct)]
    exact ⟨_, rfl⟩

theorem sortByKey_eq_error_iff {e : EncodeError} :
    sortByKey entries = .error e ↔
      e = .duplicateKey ∧ ¬ entries.Pairwise fun a b => a.1 ≠ b.1 := by
  rw [← exists_sortByKey, sortByKey]
  split
  · simp
  · simp [eq_comm]

theorem sortByKey_map {β : Type} (g : α → β) (entries : List (Bytes × α)) :
    sortByKey (entries.map (Prod.map id g)) =
      (sortByKey entries).map (List.map (Prod.map id g)) := by
  cases sorts : sortByKey entries with
  | ok sorted =>
      obtain ⟨perm, ascending⟩ := sortByKey_eq_ok_iff.mp sorts
      exact sortByKey_eq_ok_iff.mpr ⟨perm.map _, List.pairwise_map.mpr ascending⟩
  | error e =>
      obtain ⟨rfl, same⟩ := sortByKey_eq_error_iff.mp sorts
      refine sortByKey_eq_error_iff.mpr ⟨rfl, ?_⟩
      rw [List.pairwise_map]
      exact same

end Sorting

/-! ## Lists and records -/

def code? (v : Value) : Option Bytes := (encode v).toOption

theorem code?_eq_some {v : Value} {x : Bytes} : code? v = some x ↔ encode v = .ok x := by
  rw [code?]
  cases encode v <;> simp [Except.toOption]

theorem code?_isSome {v : Value} : (code? v).isSome ↔ ∃ x, encode v = .ok x := by
  simp only [Option.isSome_iff_exists, code?_eq_some]

def codes? (e : Value × Value) : Option Bytes × Option Bytes := (code? e.1, code? e.2)

abbrev Row := Bytes × Bytes

def Row.known (r : Row) : Option Bytes × Option Bytes := (some r.1, some r.2)

theorem codes?_eq_known {e : Value × Value} {r : Row} :
    codes? e = r.known ↔ encode e.1 = .ok r.1 ∧ encode e.2 = .ok r.2 := by
  rw [codes?, Row.known, Prod.mk.injEq, code?_eq_some, code?_eq_some]

def Row.bytes (r : Row) : Bytes := r.1 ++ r.2

/-- Rows in ascending order of their keys. -/
def Ascending (rows : List Row) : Prop := rows.Pairwise fun a b => compare a.1 b.1 = .lt

/-- The encoder goes through the items from left to right and stops at the first failure. -/
theorem encodeItems_eq (items : List Value) (done : List Bytes) :
    encodeItems items done =
      (items.mapM encode).map fun xs => done.reverse.flatten ++ xs.flatten := by
  induction items generalizing done with
  | nil => simp [encodeItems, Except.map, pure, Except.pure]
  | cons v rest ih =>
      rw [encodeItems, List.mapM_cons]
      cases encode v with
      | error e => rfl
      | ok bs =>
          simp only [ih]
          cases rest.mapM encode with
          | error e => rfl
          | ok xs => simp [Except.map, bind, Except.bind, pure, Except.pure]

theorem mapM_encode_eq_ok {items : List Value} {xs : List Bytes} :
    items.mapM encode = .ok xs ↔ items.map code? = xs.map some := by
  rw [mapM_eq_ok_iff, ← List.forall₂_eq_eq_eq, List.forall₂_map_left_iff,
    List.forall₂_map_right_iff]
  simp only [code?_eq_some]

/-- A list is its length and its items, one after another. -/
theorem encode_list {items : List Value} {x : Bytes} :
    encode (.list items) = .ok x ↔
      ∃ xs : List Bytes, items.map code? = xs.map some ∧
        x = head .list items.length ++ xs.flatten := by
  simp only [encode, encodeItems_eq, ← mapM_encode_eq_ok]
  cases items.mapM encode with
  | error e => simp [Except.map]
  | ok xs => simp [Except.map, eq_comm]

theorem joinEntries_eq_ok {sorted : List (Bytes × Except EncodeError Bytes)} {done : List Bytes}
    {x : Bytes} :
    joinEntries sorted done = .ok x ↔
      ∃ rows : List Row, sorted = rows.map (fun r => (r.1, .ok r.2)) ∧
        x = done.reverse.flatten ++ rows.flatMap Row.bytes := by
  induction sorted generalizing done with
  | nil =>
      simp only [joinEntries, Except.ok.injEq]
      constructor
      · rintro rfl
        exact ⟨[], rfl, by simp⟩
      · rintro ⟨rows, hrows, rfl⟩
        simp [List.map_eq_nil_iff.mp hrows.symm]
  | cons entry rest ih =>
      obtain ⟨key, value⟩ := entry
      cases value with
      | error e =>
          simp only [joinEntries, reduceCtorEq, false_iff]
          rintro ⟨rows, hrows, -⟩
          cases rows <;> simp at hrows
      | ok bs =>
          simp only [joinEntries, ih]
          constructor
          · rintro ⟨rows, rfl, rfl⟩
            exact ⟨(key, bs) :: rows, rfl, by simp [Row.bytes]⟩
          · rintro ⟨rows, hrows, rfl⟩
            cases rows with
            | nil => simp at hrows
            | cons r rows =>
                simp only [List.map_cons, List.cons.injEq, Prod.mk.injEq, Except.ok.injEq] at hrows
                obtain ⟨⟨rfl, rfl⟩, rfl⟩ := hrows
                exact ⟨rows, rfl, by simp [Row.bytes]⟩

theorem encodeRecord_eq_ok {entries : List (Bytes × Except EncodeError Bytes)} {x : Bytes} :
    encodeRecord entries = .ok x ↔
      ∃ rows : List Row, Ascending rows ∧ (rows.map fun r => (r.1, .ok r.2)).Perm entries ∧
        x = head .record entries.length ++ rows.flatMap Row.bytes := by
  have ascending_map (rows : List Row) :
      (rows.map fun r => ((r.1, .ok r.2) : Bytes × Except EncodeError Bytes)).Pairwise
        (fun a b => compare a.1 b.1 = .lt) ↔ Ascending rows := List.pairwise_map
  rw [encodeRecord]
  constructor
  · intro h
    split at h
    · simp at h
    case h_2 sorted hs =>
      obtain ⟨perm, ascending⟩ := sortByKey_eq_ok_iff.mp hs
      cases hj : joinEntries sorted [] with
      | error e => simp [hj, Except.map] at h
      | ok body =>
          obtain ⟨rows, rfl, rfl⟩ := joinEntries_eq_ok.mp hj
          simp only [hj, Except.map, Except.ok.injEq] at h
          refine ⟨rows, (ascending_map rows).mp ascending, perm, ?_⟩
          rw [← h, perm.length_eq]
          rfl
  · rintro ⟨rows, ascending, perm, rfl⟩
    rw [sortByKey_eq_ok_iff.mpr ⟨perm, (ascending_map rows).mpr ascending⟩]
    simp only [joinEntries_eq_ok.mpr ⟨rows, rfl, rfl⟩, Except.map, perm.length_eq]
    rfl

def keyOf (v : Value) : Bytes := (code? v).getD []

/-- Whether entries stand in ascending order of their encoded keys. -/
def InKeyOrder (entries : Entries) : Prop :=
  (entries.map fun e => keyOf e.1).Pairwise fun a b => compare a b = .lt

instance (entries : Entries) : Decidable (InKeyOrder entries) :=
  inferInstanceAs (Decidable (List.Pairwise _ _))

theorem InKeyOrder.eq_of_perm {entries entries' : Entries} (h : InKeyOrder entries)
    (h' : InKeyOrder entries') (perm : entries.Perm entries') : entries = entries' := by
  refine perm.eq_of_pairwise ?_ (List.pairwise_map.mp h) (List.pairwise_map.mp h')
  intro e f _ _ less greater
  rw [OrientedCmp.gt_of_lt greater] at less
  cases less

/-- What is made of an entry, behind its encoded key. -/
def behindKey {α : Type} (g : Value × Value → α) (e : Value × Value) :
    Except EncodeError (Bytes × α) :=
  (encode e.1).map fun key => (key, g e)

/-- Entries can be put behind their keys when all keys have encodings. -/
theorem mapM_behindKey_eq_ok {α : Type} {g : Value × Value → α} {entries : Entries}
    {keyed : List (Bytes × α)} :
    entries.mapM (behindKey g) = .ok keyed ↔
      (∀ e ∈ entries, (code? e.1).isSome) ∧ (entries.map fun e => (keyOf e.1, g e)) = keyed := by
  have one (e : Value × Value) (r : Bytes × α) :
      behindKey g e = .ok r ↔ (code? e.1).isSome ∧ (keyOf e.1, g e) = r := by
    rw [behindKey, keyOf, code?]
    cases encode e.1 <;> simp [Except.map, Except.toOption]
  rw [mapM_eq_ok_iff]
  simp only [one]
  rw [List.forall₂_and_left, ← List.forall₂_map_left_iff, List.forall₂_eq_eq_eq]

/-- What is made of what stands behind the keys may be made of it afterwards. -/
theorem mapM_behindKey_map {α β : Type} (g : Value × Value → α) (h : α → β) (entries : Entries) :
    entries.mapM (behindKey fun e => h (g e)) =
      (entries.mapM (behindKey g)).map (List.map (Prod.map id h)) := by
  rw [← mapM_map_result]
  congr 1
  funext e
  rw [behindKey, behindKey]
  cases encode e.1 <;> rfl

/-- The encoder goes through the keys first and stops at the first failure. -/
theorem encodeEntries_eq (entries : Entries) (done : List (Bytes × Except EncodeError Bytes)) :
    encodeEntries entries done =
      (entries.mapM (behindKey fun e => encode e.2)).bind fun keyed =>
        encodeRecord (done.reverse ++ keyed) := by
  induction entries generalizing done with
  | nil => simp [encodeEntries, Except.bind, pure, Except.pure]
  | cons e rest ih =>
      obtain ⟨k, v⟩ := e
      rw [encodeEntries, List.mapM_cons, behindKey]
      cases encode k with
      | error e => rfl
      | ok key =>
          simp only [ih]
          cases rest.mapM (behindKey fun e => encode e.2) with
          | error e => rfl
          | ok keyed => simp [Except.map, bind, Except.bind, pure, Except.pure]

/-- A record is sorted when all its keys have been encoded, and then its values are looked at. -/
theorem encode_record_eq (entries : Entries) :
    encode (.record entries) =
      (entries.mapM (behindKey fun e => encode e.2)).bind encodeRecord := by
  simp only [encode, encodeEntries_eq, List.reverse_nil, List.nil_append]

/-- A record is the number of its entries and the rows of its entries, in ascending order. -/
theorem encode_record {entries : Entries} {x : Bytes} :
    encode (.record entries) = .ok x ↔
      ∃ rows : List Row, Ascending rows ∧ (entries.map codes?).Perm (rows.map Row.known) ∧
        x = head .record entries.length ++ rows.flatMap Row.bytes := by
  -- the keys come first: all of them are encoded before the rows are looked at
  have written : encode (.record entries) = .ok x ↔ (∀ e ∈ entries, (code? e.1).isSome) ∧
      encodeRecord (entries.map fun e => (keyOf e.1, encode e.2)) = .ok x := by
    rw [encode_record_eq, bind_eq_ok_iff]
    simp only [mapM_behindKey_eq_ok]
    constructor
    · rintro ⟨_, ⟨keys, rfl⟩, rest⟩
      exact ⟨keys, rest⟩
    · rintro ⟨keys, rest⟩
      exact ⟨_, ⟨keys, rfl⟩, rest⟩
  rw [written, encodeRecord_eq_ok]
  simp only [List.length_map]
  constructor
  · rintro ⟨keys, rows, ascending, perm, rfl⟩
    refine ⟨rows, ascending, ?_, rfl⟩
    have := perm.map fun row => (some row.1, row.2.toOption)
    simp only [List.map_map] at this
    refine (List.Perm.of_eq (List.map_congr_left ?_)).trans this.symm
    intro e he
    obtain ⟨key, hk⟩ := Option.isSome_iff_exists.mp (keys e he)
    simp only [Function.comp, codes?, keyOf, hk, Option.getD_some]
    rfl
  · rintro ⟨rows, ascending, perm, rfl⟩
    have written : ∀ e ∈ entries, ∃ r : Row, encode e.1 = .ok r.1 ∧ encode e.2 = .ok r.2 := by
      intro e he
      obtain ⟨r, -, hr⟩ := List.mem_map.mp (perm.subset (List.mem_map_of_mem he))
      exact ⟨r, codes?_eq_known.mp hr.symm⟩
    refine ⟨?_, rows, ascending, ?_, rfl⟩
    · intro e he
      obtain ⟨r, hr, -⟩ := written e he
      simp [code?_eq_some.mpr hr]
    · have := perm.map fun c =>
        (c.1.getD [], c.2.elim (.error .tag) (.ok : Bytes → Except EncodeError Bytes))
      simp only [List.map_map] at this
      refine this.symm.trans (List.Perm.of_eq (List.map_congr_left ?_))
      intro e he
      obtain ⟨r, hk, hv⟩ := written e he
      simp [codes?, keyOf, code?_eq_some.mpr hk, code?_eq_some.mpr hv, hv]

/-! ## Encodings that agree -/

theorem code?_list_congr {items items' : List Value} (h : items.map code? = items'.map code?) :
    code? (.list items) = code? (.list items') := by
  have hlen : items.length = items'.length := by simpa using congrArg List.length h
  ext x
  simp only [code?_eq_some, encode_list, h, hlen]

/-- The order of the entries does not matter, and nothing of them does but their codes. -/
theorem code?_record_congr {entries entries' : Entries}
    (h : (entries.map codes?).Perm (entries'.map codes?)) :
    code? (.record entries) = code? (.record entries') := by
  have hlen : entries.length = entries'.length := by simpa using h.length_eq
  ext x
  simp only [code?_eq_some, encode_record, hlen, fun ys => List.Perm.congr_left h ys]

theorem eq_zero_of_shift {bits : UInt64} (h : bits <<< 1 = 0) :
    bits = 0 ∨ bits = 0x8000000000000000 := by
  have shifted : (bits <<< 1).toNat = 0 := by rw [h]; rfl
  rw [UInt64.toNat_shiftLeft, Nat.shiftLeft_eq] at shifted
  have lt := bits.toNat_lt
  have : bits.toNat * 2 % 2 ^ 64 = 0 := shifted
  rw [← UInt64.toNat_inj, ← UInt64.toNat_inj]
  change bits.toNat = 0 ∨ bits.toNat = 9223372036854775808
  omega

theorem encodeFloat_eq_of_equal {a b : UInt64} (h : Value.equalFloats a b = true) :
    encodeFloat a = encodeFloat b := by
  have zeros : encodeFloat 0 = encodeFloat 0x8000000000000000 := by decide +kernel
  simp only [Value.equalFloats, Bool.and_eq_true, Bool.or_eq_true, beq_iff_eq] at h
  rcases h.2 with rfl | ⟨ha, hb⟩
  · rfl
  · rcases eq_zero_of_shift ha with rfl | rfl <;> rcases eq_zero_of_shift hb with rfl | rfl <;>
      simp only [zeros]

mutual
/-- Values that are equal as data are encoded alike, or not at all. -/
theorem encode_eq_of_equal : ∀ {v w : Value}, v.equal w = true → encode v = encode w
  | .null, w, h => by cases w <;> simp_all [Value.equal]
  | .bool _, w, h => by cases w <;> simp_all [Value.equal]
  | .int n, w, h => by
      cases w <;> simp only [Value.equal, Bool.false_eq_true] at h
      rename_i m
      cases n; cases m
      simp_all
  | .float _, w, h => by
      cases w <;> simp only [Value.equal, Bool.false_eq_true] at h
      rw [encode, encode, encodeFloat_eq_of_equal h]
  | .text _, w, h => by cases w <;> simp_all [Value.equal]
  | .bytes _, w, h => by cases w <;> simp_all [Value.equal]
  | .list vs, w, h => by
      cases w <;> simp only [Value.equal, Bool.false_eq_true] at h
      obtain ⟨hlen, hitems⟩ := encodeItems_eq_of_equal h
      rw [encode, encode, hlen, hitems]
  | .record es, w, h => by
      cases w <;> simp only [Value.equal, Bool.false_eq_true] at h
      rw [encode, encode, encodeEntries_eq_of_equal h]
  | .tag _ _, w, h => by
      cases w <;> simp only [Value.equal, Bool.false_eq_true] at h
      rfl

theorem encodeItems_eq_of_equal : ∀ {vs ws : List Value}, Value.equalItems vs ws = true →
    vs.length = ws.length ∧ ∀ done, encodeItems vs done = encodeItems ws done
  | [], ws, h => by cases ws <;> simp_all [Value.equalItems]
  | v :: vs, ws, h => by
      cases ws with
      | nil => simp [Value.equalItems] at h
      | cons w ws =>
          simp only [Value.equalItems, Bool.and_eq_true] at h
          obtain ⟨hlen, hitems⟩ := encodeItems_eq_of_equal h.2
          refine ⟨by simp [hlen], ?_⟩
          intro done
          simp only [encodeItems, encode_eq_of_equal h.1, hitems]

theorem encodeEntries_eq_of_equal : ∀ {es fs : Entries}, Value.equalEntries es fs = true →
    ∀ done, encodeEntries es done = encodeEntries fs done
  | [], fs, h => by cases fs <;> simp_all [Value.equalEntries]
  | (k, v) :: es, fs, h => by
      cases fs with
      | nil => simp [Value.equalEntries] at h
      | cons f fs =>
          obtain ⟨l, w⟩ := f
          simp only [Value.equalEntries, Bool.and_eq_true] at h
          intro done
          simp only [encodeEntries, encode_eq_of_equal h.1.1, encode_eq_of_equal h.1.2,
            encodeEntries_eq_of_equal h.2]
end

end SubtermIndex.Cbor
