/-
# `SubtermIndex.Proofs.Hex` — which texts write bytes, and which write the same ones

A text writes `n` bytes if it is `2 * n` hexadecimal digits, of either case
(`exists_decode_ofText_iff`).  Two texts write the same bytes if they differ in the case of their
letters at most (`decode_ofText_iff_of_decode`).

The decoder works on bytes, and these statements are about characters.  A digit is an ASCII
character and a single byte, and no byte of any other character is a digit; lower case changes
ASCII letters only, one by one, whether they are taken as bytes or as characters
(`ofText_toLower`).
-/
import SubtermIndex.Hex
import SubtermIndex.Proofs.Bytes

namespace SubtermIndex.Hex

/-! ## Digits -/

def lower (b : UInt8) : UInt8 := if 65 ≤ b ∧ b ≤ 90 then b + 32 else b

section

variable {b v : UInt8}

/-- The value of a digit is known from its lower-case form, and the other way round. -/
theorem digitValue?_eq_some_iff :
    digitValue? b = some v ↔ v < 16 ∧ lower b = if v < 10 then v + 48 else v + 87 := by
  rw [digitValue?, lower]
  grind

theorem isSome_digitValue?_iff :
    (digitValue? b).isSome ↔ (48 ≤ b ∧ b ≤ 57) ∨ (97 ≤ b ∧ b ≤ 102) ∨ (65 ≤ b ∧ b ≤ 70) := by
  rw [digitValue?]
  grind

end

/-! ## Pairs of digits -/

/-- Whether a row of digits writes a row of bytes. -/
inductive Writes : Bytes → Bytes → Prop
  | nil : Writes [] []
  | pair {hi lo h l : UInt8} {rest bytes : Bytes} : digitValue? hi = some h →
      digitValue? lo = some l → Writes rest bytes →
      Writes (hi :: lo :: rest) ((h * 16 + l) :: bytes)

theorem decodePairs_eq_ok_iff {text done bytes : Bytes} {position : Nat}
    (even : text.length % 2 = 0) :
    decodePairs text position done = .ok bytes ↔
      ∃ more, Writes text more ∧ done.reverse ++ more = bytes := by
  fun_induction decodePairs text position done with
  | case1 hi lo rest position done none =>
      simp only [reduceCtorEq, false_iff]
      rintro ⟨_, ⟨-, digit⟩, -⟩
      simp_all
  | case2 hi lo rest position done h digit none =>
      simp only [reduceCtorEq, false_iff]
      rintro ⟨_, writes, -⟩
      cases writes
      simp_all
  | case3 hi lo rest position done h l digit digit' ih =>
      simp only [List.length_cons] at even
      rw [ih (by omega)]
      constructor
      · rintro ⟨more, writes, rfl⟩
        exact ⟨_, .pair digit' digit writes, by simp⟩
      · rintro ⟨_, writes, rfl⟩
        cases writes with
        | pair first second writes =>
            obtain rfl := Option.some.inj (digit'.symm.trans first)
            obtain rfl := Option.some.inj (digit.symm.trans second)
            exact ⟨_, writes, by simp⟩
  | case4 text position done few =>
      match text, few with
      | [], _ =>
          constructor
          · intro same
            exact ⟨[], .nil, (List.append_nil _).trans (Except.ok.inj same)⟩
          · rintro ⟨_, ⟨⟩, rfl⟩
            rw [List.append_nil]
      | [b], _ => simp at even
      | hi :: lo :: rest, few => exact (few hi lo rest rfl).elim

namespace Writes

variable {text text' bytes : Bytes}

theorem length_eq (h : Writes text bytes) : text.length = 2 * bytes.length := by
  induction h with
  | nil => rfl
  | pair _ _ _ ih => simp only [List.length_cons]; omega

theorem isSome_digitValue? (h : Writes text bytes) : ∀ b ∈ text, (digitValue? b).isSome := by
  induction h with
  | nil => exact nofun
  | pair hi lo _ ih =>
      rw [List.forall_mem_cons, List.forall_mem_cons, hi, lo]
      exact ⟨rfl, rfl, ih⟩

theorem exists_of_length {n : Nat} (length : text.length = 2 * n)
    (digits : ∀ b ∈ text, (digitValue? b).isSome) : ∃ bytes, Writes text bytes := by
  induction n generalizing text with
  | zero => exact ⟨[], List.eq_nil_of_length_eq_zero length ▸ .nil⟩
  | succ n ih =>
      match text, length with
      | hi :: lo :: rest, length =>
          rw [List.forall_mem_cons, List.forall_mem_cons] at digits
          simp only [List.length_cons] at length
          obtain ⟨h, digit⟩ := Option.isSome_iff_exists.mp digits.1
          obtain ⟨l, digit'⟩ := Option.isSome_iff_exists.mp digits.2.1
          obtain ⟨bytes, writes⟩ := ih (by omega) digits.2.2
          exact ⟨_, .pair digit digit' writes⟩

/-- A pair of digits is known from the byte that it writes. -/
theorem pair_inj {h l h' l' : UInt8} (small : h < 16 ∧ l < 16) (small' : h' < 16 ∧ l' < 16)
    (same : h * 16 + l = h' * 16 + l') : h = h' ∧ l = l' := by
  grind

theorem iff_map_lower_eq (h : Writes text bytes) :
    Writes text' bytes ↔ text'.map lower = text.map lower := by
  induction h generalizing text' with
  | nil =>
      constructor
      · rintro ⟨⟩
        rfl
      · intro same
        exact List.map_eq_nil_iff.mp same ▸ .nil
  | pair hi lo _ ih =>
      have high := digitValue?_eq_some_iff.mp hi
      have low := digitValue?_eq_some_iff.mp lo
      constructor
      · intro writes
        -- the byte that is written is a sum, and `cases` needs a variable there
        generalize same : _ :: _ = written at writes
        cases writes with
        | nil => simp at same
        | pair hi' lo' writes =>
            obtain ⟨byte, rfl⟩ := List.cons.inj same
            have high' := digitValue?_eq_some_iff.mp hi'
            have low' := digitValue?_eq_some_iff.mp lo'
            obtain ⟨rfl, rfl⟩ := pair_inj ⟨high.1, low.1⟩ ⟨high'.1, low'.1⟩ byte
            rw [List.map_cons, List.map_cons, List.map_cons, List.map_cons, ih.mp writes, high.2,
              high'.2, low.2, low'.2]
      · intro same
        match text' with
        | [] | [_] => simp at same
        | hi' :: lo' :: rest' =>
            simp only [List.map_cons, List.cons.injEq] at same
            obtain ⟨first, second, others⟩ := same
            exact .pair (digitValue?_eq_some_iff.mpr ⟨high.1, first.trans high.2⟩)
              (digitValue?_eq_some_iff.mpr ⟨low.1, second.trans low.2⟩) (ih.mpr others)

end Writes

theorem decode_eq_ok_iff {text bytes : Bytes} : decode text = .ok bytes ↔ Writes text bytes := by
  rw [decode]
  split
  case isTrue odd =>
    simp only [reduceCtorEq, false_iff]
    intro writes
    have := writes.length_eq
    omega
  case isFalse even => simp [decodePairs_eq_ok_iff (Nat.mod_two_ne_one.mp even)]

/-! ## Texts -/

def IsDigit (c : Char) : Prop :=
  ('0' ≤ c ∧ c ≤ '9') ∨ ('a' ≤ c ∧ c ≤ 'f') ∨ ('A' ≤ c ∧ c ≤ 'F')

instance (c : Char) : Decidable (IsDigit c) := by
  unfold IsDigit
  infer_instance

theorem isDigit_iff {c : Char} :
    IsDigit c ↔ c.toNat < 128 ∧ (digitValue? (UInt8.ofNat c.toNat)).isSome := by
  have above (d : Char) : d ≤ c ↔ d.toNat ≤ c.toNat := UInt32.le_iff_toNat_le
  have below (d : Char) : c ≤ d ↔ c.toNat ≤ d.toNat := UInt32.le_iff_toNat_le
  simp only [IsDigit, above, below, Char.reduceToNat, isSome_digitValue?_iff,
    UInt8.le_iff_toNat_le, UInt8.toNat_ofNat', UInt8.reduceToNat]
  omega

theorem forall_isSome_iff {s : String} :
    (∀ b ∈ Bytes.ofText s, (digitValue? b).isSome) ↔ ∀ c ∈ s.toList, IsDigit c := by
  rw [Bytes.ofText_eq_flatMap]
  constructor
  · intro digits c inside
    have here (b : UInt8) (part : b ∈ String.utf8EncodeChar c) : (digitValue? b).isSome :=
      digits b (List.mem_flatMap.mpr ⟨c, inside, part⟩)
    by_cases ascii : c.toNat < 128
    · rw [Bytes.utf8EncodeChar_of_lt ascii] at here
      exact isDigit_iff.mpr ⟨ascii, here _ (List.mem_singleton.mpr rfl)⟩
    · obtain ⟨b, part⟩ := List.exists_mem_of_ne_nil _ (String.utf8EncodeChar_ne_nil (c := c))
      have large := Bytes.le_of_mem_utf8EncodeChar (Nat.le_of_not_lt ascii) part
      have small := isSome_digitValue?_iff.mp (here b part)
      grind
  · intro digits b inside
    obtain ⟨c, known, part⟩ := List.mem_flatMap.mp inside
    obtain ⟨ascii, digit⟩ := isDigit_iff.mp (digits c known)
    rw [Bytes.utf8EncodeChar_of_lt ascii] at part
    rw [List.mem_singleton.mp part]
    exact digit

theorem toNat_toLower (c : Char) :
    c.toLower.toNat = if 65 ≤ c.toNat ∧ c.toNat ≤ 90 then c.toNat + 32 else c.toNat := by
  have capital : (c.val ≥ 'A'.val ∧ c.val ≤ 'Z'.val) ↔ 65 ≤ c.toNat ∧ c.toNat ≤ 90 := by
    simp only [ge_iff_le, UInt32.le_iff_toNat_le]
    rfl
  delta Char.toLower
  split
  case isTrue letter =>
    rw [if_pos (capital.mp letter)]
    show (c.val + 32).toNat = _
    have small := (capital.mp letter).2
    rw [UInt32.toNat_add]
    exact Nat.mod_eq_of_lt (Nat.lt_of_le_of_lt (Nat.add_le_add_right small 32) (by decide))
  case isFalse other => rw [if_neg fun letter => other (capital.mpr letter)]

theorem utf8EncodeChar_toLower (c : Char) :
    String.utf8EncodeChar c.toLower = (String.utf8EncodeChar c).map lower := by
  have value := toNat_toLower c
  by_cases ascii : c.toNat < 128
  · have ascii' : c.toLower.toNat < 128 := by
      rw [value]
      split <;> omega
    rw [Bytes.utf8EncodeChar_of_lt ascii, Bytes.utf8EncodeChar_of_lt ascii', value,
      List.map_singleton, lower]
    have letter : (65 ≤ UInt8.ofNat c.toNat ∧ UInt8.ofNat c.toNat ≤ 90) ↔
        65 ≤ c.toNat ∧ c.toNat ≤ 90 := by
      simp only [UInt8.le_iff_toNat_le, UInt8.toNat_ofNat', UInt8.reduceToNat]
      omega
    simp only [letter]
    split
    · rw [UInt8.ofNat_add]
      rfl
    · rfl
  · have same : c.toLower = c := Char.toNat_inj.mp (by rw [value, if_neg (by omega)])
    have fixed (b : UInt8) (inside : b ∈ String.utf8EncodeChar c) : lower b = id b := by
      have large := Bytes.le_of_mem_utf8EncodeChar (Nat.le_of_not_lt ascii) inside
      rw [lower, if_neg (by grind)]
      rfl
    rw [same, List.map_congr_left fixed, List.map_id]

/-- The bytes of a text in lower case are those of the text, with their letters in lower case. -/
theorem ofText_toLower (s : String) : Bytes.ofText s.toLower = (Bytes.ofText s).map lower := by
  have mapped : s.toLower = s.map Char.toLower := rfl
  rw [mapped, Bytes.ofText_eq_flatMap, String.toList_map, List.flatMap_map,
    Bytes.ofText_eq_flatMap, List.map_flatMap]
  simp only [utf8EncodeChar_toLower]

/-- A text writes `n` bytes if it is twice as many digits. -/
theorem exists_decode_ofText_iff {s : String} {n : Nat} :
    (∃ bytes, decode (Bytes.ofText s) = .ok bytes ∧ bytes.length = n) ↔
      s.length = 2 * n ∧ ∀ c ∈ s.toList, IsDigit c := by
  have length (digits : ∀ c ∈ s.toList, IsDigit c) : (Bytes.ofText s).length = s.length := by
    rw [Bytes.ofText_eq_flatMap,
      Bytes.flatMap_utf8EncodeChar_of_lt fun c inside => (isDigit_iff.mp (digits c inside)).1,
      List.length_map, String.length_toList]
  simp only [decode_eq_ok_iff]
  constructor
  · rintro ⟨bytes, writes, rfl⟩
    have digits := forall_isSome_iff.mp writes.isSome_digitValue?
    exact ⟨(length digits).symm.trans writes.length_eq, digits⟩
  · rintro ⟨count, digits⟩
    have long := (length digits).trans count
    obtain ⟨bytes, writes⟩ := Writes.exists_of_length long (forall_isSome_iff.mpr digits)
    exact ⟨bytes, writes, by have := writes.length_eq; omega⟩

/-- A text writes the same bytes as another one if the two are the same in lower case. -/
theorem decode_ofText_iff_of_decode {s t : String} {bytes : Bytes}
    (decoded : decode (Bytes.ofText s) = .ok bytes) :
    decode (Bytes.ofText t) = .ok bytes ↔ t.toLower = s.toLower := by
  rw [decode_eq_ok_iff, (decode_eq_ok_iff.mp decoded).iff_map_lower_eq, ← ofText_toLower,
    ← ofText_toLower]
  exact ⟨Bytes.ofText_inj, congrArg _⟩

end SubtermIndex.Hex
