/-
# `SubtermIndex.Proofs.Cbor.Number` — where a head or a number ends

A head says itself how many bytes follow it, so that two heads in front of any two byte strings
are told apart (`head_append_inj`).  The same holds of numbers: of integers because they are
nothing but a head, of floats because their first byte gives the width of the pattern behind it.

Heads are written in five forms and could be treated case by case.  Instead a head is described by
two numbers, what stands in the low bits of its first byte and how many bytes follow (`head_eq`).
The first determines the second, and then the argument is read off the bytes.

A float that is an integer is written as one, and every NaN as the same pattern.  Otherwise the
bytes show the double itself (`Fraction.append_inj`): by the width first, and within a width
because a pattern and its number determine each other.
-/
import SubtermIndex.Proofs.BinaryFloat
import SubtermIndex.Cbor.Encoding

namespace SubtermIndex

theorem Bytes.littleEndianValue_littleEndian (count n : Nat) :
    littleEndianValue (littleEndian count n) = n % 256 ^ count := by
  induction count generalizing n with
  | zero => simp [littleEndian, littleEndianValue, Nat.mod_one]
  | succ count ih =>
      have split : 256 ^ (count + 1) = 256 * 256 ^ count := Nat.pow_succ'
      rw [littleEndian, littleEndianValue, ih, UInt8.toNat_ofNat', split, Nat.mod_mul]

theorem Bytes.bigEndianValue_bigEndian (count n : Nat) :
    bigEndianValue (bigEndian count n) = n % 256 ^ count := by
  rw [bigEndianValue, bigEndian, List.reverse_reverse, littleEndianValue_littleEndian]

theorem Bytes.bigEndian_inj {count n n' : Nat} (hn : n < 256 ^ count) (hn' : n' < 256 ^ count)
    (h : Bytes.bigEndian count n = Bytes.bigEndian count n') : n = n' := by
  have := congrArg Bytes.bigEndianValue h
  rwa [Bytes.bigEndianValue_bigEndian, Bytes.bigEndianValue_bigEndian, Nat.mod_eq_of_lt hn,
    Nat.mod_eq_of_lt hn'] at this

theorem Bytes.bigEndian_append_inj {count n n' : Nat} {s t : Bytes} (hn : n < 256 ^ count)
    (hn' : n' < 256 ^ count)
    (h : Bytes.bigEndian count n ++ s = Bytes.bigEndian count n' ++ t) : n = n' ∧ s = t := by
  obtain ⟨hb, rfl⟩ := List.append_inj h (by simp)
  exact ⟨Bytes.bigEndian_inj hn hn' hb, rfl⟩

namespace Cbor

/-! ## Heads -/

def headLow (n : Nat) : Nat :=
  if n < 24 then n else if n < 0x100 then 24 else if n < 0x10000 then 25
  else if n < 0x100000000 then 26 else 27

def headWidth (n : Nat) : Nat :=
  if n < 24 then 0 else if n < 0x100 then 1 else if n < 0x10000 then 2
  else if n < 0x100000000 then 4 else 8

theorem head_eq (major : Major) (n : Nat) :
    head major n =
      UInt8.ofNat (major.code * 32 + headLow n) :: Bytes.bigEndian (headWidth n) n := by
  rw [head, headLow, headWidth]
  split_ifs <;> rfl

theorem headLow_lt (n : Nat) : headLow n < 32 := by
  rw [headLow]
  split_ifs <;> omega

theorem Major.code_lt (major : Major) : major.code < 6 := by
  cases major <;> decide

/-- The first byte of a head shows its kind. -/
theorem toNat_first (major : Major) (n : Nat) :
    (UInt8.ofNat (major.code * 32 + headLow n)).toNat = major.code * 32 + headLow n := by
  have := headLow_lt n
  have := major.code_lt
  rw [UInt8.toNat_ofNat']
  omega

theorem Major.code_inj {major major' : Major} (h : major.code = major'.code) : major = major' := by
  cases major <;> cases major' <;> first | rfl | simp [Major.code] at h

/-- The low bits give the width, and are the number itself if no bytes follow. -/
theorem headWidth_of_headLow {n n' : Nat} (h : headLow n = headLow n') :
    headWidth n = headWidth n' ∧ (n < 24 → n = n') := by
  unfold headLow at h
  unfold headWidth
  split_ifs at h ⊢ <;> omega

theorem lt_of_headWidth {n : Nat} (hn : n < 2 ^ 64) : 24 ≤ n → n < 256 ^ headWidth n := by
  rw [headWidth]
  split_ifs <;> omega

theorem head_append_inj {major major' : Major} {n n' : Nat} {s t : Bytes} (hn : n < 2 ^ 64)
    (hn' : n' < 2 ^ 64) (h : head major n ++ s = head major' n' ++ t) :
    major = major' ∧ n = n' ∧ s = t := by
  simp only [head_eq, List.cons_append, List.cons.injEq] at h
  obtain ⟨first, rest⟩ := h
  have first := congrArg UInt8.toNat first
  simp only [toNat_first] at first
  have := headLow_lt n
  have := headLow_lt n'
  have low : headLow n = headLow n' := by omega
  obtain ⟨width, small⟩ := headWidth_of_headLow low
  refine ⟨Major.code_inj (by omega), ?_⟩
  rw [width] at rest
  rcases lt_or_ge n 24 with hlt | hge
  · obtain rfl := small hlt
    exact ⟨rfl, List.append_cancel_left rest⟩
  · have hge' : 24 ≤ n' := by
      by_contra hlt
      have := (headWidth_of_headLow low.symm).2 (by omega)
      omega
    refine Bytes.bigEndian_append_inj ?_ (lt_of_headWidth hn' hge') rest
    exact width ▸ lt_of_headWidth hn hge

/-! ## Integers -/

theorem encodeInteger_append_inj {n n' : Integer} {s t : Bytes}
    (h : encodeInteger n ++ s = encodeInteger n' ++ t) : n = n' ∧ s = t := by
  obtain ⟨n, lower, upper⟩ := n
  obtain ⟨n', lower', upper'⟩ := n'
  unfold encodeInteger at h
  simp only [Integer.mk.injEq] at h ⊢
  split_ifs at h
  all_goals
    obtain ⟨kind, value, rest⟩ := head_append_inj (by omega) (by omega) h
    first
    | exact ⟨by omega, rest⟩
    | simp at kind

/-! ## Floats -/

theorem half_infinity_pos : 0 < BinaryFormat.half.infinity := by decide

theorem single_infinity_pos : 0 < BinaryFormat.single.infinity := by decide

theorem toNat_lt_double (bits : UInt64) : bits.toNat < 2 * BinaryFormat.double.signWeight :=
  lt_of_lt_of_eq bits.toNat_lt (by decide)

/-- The half-width pattern of a double that has one. -/
inductive HalfPattern (bits : UInt64) : Nat → Prop
  | nan : BinaryFormat.double.decode bits.toNat = .nan → HalfPattern bits quietNaN
  | infinite {negative} : BinaryFormat.double.decode bits.toNat = .infinite negative →
      HalfPattern bits (BinaryFormat.half.withSign negative BinaryFormat.half.infinity)
  | finite {negative m e p} : BinaryFormat.double.decode bits.toNat = .finite negative m e →
      BinaryFormat.half.pattern? negative m e = some p → HalfPattern bits p

/-- What a double is written as when it is no integer of the format. -/
inductive Fraction (bits : UInt64) : Bytes → Prop
  | half {p} : HalfPattern bits p → Fraction bits (0xf9 :: Bytes.bigEndian 2 p)
  | single {negative m e p} : BinaryFormat.double.decode bits.toNat = .finite negative m e →
      BinaryFormat.single.pattern? negative m e = some p →
      Fraction bits (0xfa :: Bytes.bigEndian 4 p)
  | double : Fraction bits (0xfb :: Bytes.bigEndian 8 bits.toNat)

def IsInteger (bits : UInt64) (n : Integer) : Prop :=
  ∃ negative m e, BinaryFormat.double.decode bits.toNat = .finite negative m e ∧
    (n.val : ℚ) = signed negative m e

theorem Integer.ofInt?_eq_some_iff {n : Int} {k : Integer} : ofInt? n = some k ↔ k.val = n := by
  rw [ofInt?]
  constructor
  · intro h
    split at h
    · cases h
      rfl
    · cases h
  · rintro rfl
    exact dif_pos ⟨k.lower, k.upper⟩

def integerOf? (bits : UInt64) : Option Integer :=
  match BinaryFormat.double.decode bits.toNat with
  | .finite negative m e => (integer? negative m e).bind Integer.ofInt?
  | _ => none

theorem integerOf?_eq_some_iff {bits : UInt64} {n : Integer} :
    integerOf? bits = some n ↔ IsInteger bits n := by
  rw [integerOf?]
  constructor
  · intro h
    split at h
    case h_1 negative m e hd =>
      obtain ⟨k, hk, hn⟩ := Option.bind_eq_some_iff.mp h
      rw [integer?_eq_some_iff, ← Integer.ofInt?_eq_some_iff.mp hn] at hk
      exact ⟨negative, m, e, hd, hk⟩
    case h_2 => cases h
  · rintro ⟨negative, m, e, hd, hn⟩
    simp only [hd, integer?_eq_some_iff.mpr hn, Option.bind_some]
    exact Integer.ofInt?_eq_some_iff.mpr rfl

theorem isInteger_iff {bits : UInt64} {n : Integer} {negative : Bool} {m : Nat} {e : Int}
    (hd : BinaryFormat.double.decode bits.toNat = .finite negative m e) :
    IsInteger bits n ↔ (integer? negative m e).bind Integer.ofInt? = some n := by
  rw [← integerOf?_eq_some_iff, integerOf?, hd]

theorem not_isNaN_of_isInteger {bits : UInt64} {n : Integer} (h : IsInteger bits n) :
    Value.isNaN bits = false := by
  obtain ⟨negative, m, e, hd, -⟩ := h
  rw [Value.isNaN, hd]
  rfl

theorem encodeFloat_of_isInteger {bits : UInt64} {n : Integer} (h : IsInteger bits n) :
    encodeFloat bits = encodeInteger n := by
  obtain ⟨negative, m, e, hd, -⟩ := id h
  simp only [encodeFloat, hd, (isInteger_iff hd).mp h]

/-- A double is written as the integer that it is, or else as a fraction. -/
theorem encodeFloat_cases (bits : UInt64) :
    (∃ n, IsInteger bits n) ∨ Fraction bits (encodeFloat bits) := by
  cases hd : BinaryFormat.double.decode bits.toNat with
  | nan =>
      right
      simp only [encodeFloat, hd]
      exact .half (.nan hd)
  | infinite negative =>
      right
      simp only [encodeFloat, hd]
      exact .half (.infinite hd)
  | finite negative m e =>
      cases hi : (integer? negative m e).bind Integer.ofInt? with
      | some n => exact .inl ⟨n, (isInteger_iff hd).mpr hi⟩
      | none =>
          right
          simp only [encodeFloat, hd, hi, encodeFraction]
          split
          case h_1 h hh => exact .half (.finite hd hh)
          case h_2 =>
            split
            case h_1 p hp => exact .single hd hp
            case h_2 => exact .double

/-! ## Fractions -/

/-- Doubles that stand for one finite number are one pattern. -/
theorem eq_of_finite {a b : UInt64} {negative m m' e e'}
    (ha : BinaryFormat.double.decode a.toNat = .finite negative m e)
    (hb : BinaryFormat.double.decode b.toNat = .finite negative m' e')
    (eq : magnitude m e = magnitude m' e') : a = b :=
  UInt64.toNat_inj.mp
    (BinaryFormat.eq_of_decode (toNat_lt_double a) (toNat_lt_double b) ha hb eq)

theorem eq_of_infinite {a b : UInt64} {negative}
    (ha : BinaryFormat.double.decode a.toNat = .infinite negative)
    (hb : BinaryFormat.double.decode b.toNat = .infinite negative) : a = b := by
  refine UInt64.toNat_inj.mp ?_
  rw [BinaryFormat.decode_eq_infinite (toNat_lt_double a) ha,
    BinaryFormat.decode_eq_infinite (toNat_lt_double b) hb]

theorem HalfPattern.lt {bits : UInt64} {p : Nat} (h : HalfPattern bits p) : p < 256 ^ 2 := by
  cases h with
  | nan => decide
  | @infinite negative _ => cases negative <;> decide
  | finite _ hp => exact BinaryFormat.pattern?_lt half_infinity_pos hp

theorem ne_quietNaN {negative m e p} (h : BinaryFormat.half.pattern? negative m e = some p) :
    p ≠ quietNaN := by
  have : p ≠ BinaryFormat.half.withSign false quietNaN :=
    BinaryFormat.pattern?_ne half_infinity_pos h (by decide) (by decide)
  exact this

theorem ne_infinity {negative negative' m e p}
    (h : BinaryFormat.half.pattern? negative m e = some p) :
    p ≠ BinaryFormat.half.withSign negative' BinaryFormat.half.infinity :=
  BinaryFormat.pattern?_ne half_infinity_pos h le_rfl (by decide)

theorem infinity_ne_quietNaN (negative : Bool) :
    BinaryFormat.half.withSign negative BinaryFormat.half.infinity ≠ quietNaN := by
  cases negative <;> decide

/-- Doubles are told apart by their half-width patterns, but for NaNs. -/
theorem HalfPattern.inj {a b : UInt64} {p q : Nat} (ha : HalfPattern a p) (hb : HalfPattern b q)
    (h : p = q) :
    a = b ∨ BinaryFormat.double.decode a.toNat = .nan ∧
      BinaryFormat.double.decode b.toNat = .nan := by
  cases ha with
  | nan da =>
      cases hb with
      | nan db => exact .inr ⟨da, db⟩
      | infinite _ => exact absurd h.symm (infinity_ne_quietNaN _)
      | finite _ hq => exact absurd h.symm (ne_quietNaN hq)
  | infinite da =>
      cases hb with
      | nan _ => exact absurd h (infinity_ne_quietNaN _)
      | infinite db =>
          have hsign := (BinaryFormat.withSign_inj (by decide) (by decide) h).1
          exact .inl (eq_of_infinite da (hsign ▸ db))
      | finite _ hq => exact absurd h.symm (ne_infinity hq)
  | finite da hp =>
      cases hb with
      | nan _ => exact absurd h (ne_quietNaN hp)
      | infinite _ => exact absurd h (ne_infinity hp)
      | finite db hq =>
          subst h
          obtain ⟨rfl, eq⟩ := BinaryFormat.pattern?_inj half_infinity_pos hp hq
          exact .inl (eq_of_finite da db eq)

/-- A fraction ends where its first byte says, and NaNs apart it shows which double it is. -/
theorem Fraction.append_inj {a b : UInt64} {x y s t : Bytes} (ha : Fraction a x)
    (hb : Fraction b y) (h : x ++ s = y ++ t) :
    (a = b ∨ BinaryFormat.double.decode a.toNat = .nan ∧
      BinaryFormat.double.decode b.toNat = .nan) ∧ s = t := by
  cases ha <;> cases hb <;> simp only [List.cons_append, List.cons.injEq] at h
  case half.half p hp q hq =>
    obtain ⟨rfl, rfl⟩ := Bytes.bigEndian_append_inj hp.lt hq.lt h.2
    exact ⟨hp.inj hq rfl, rfl⟩
  case single.single da hp _ _ _ _ db hq =>
    have hlt := BinaryFormat.pattern?_lt single_infinity_pos hp
    have hlt' := BinaryFormat.pattern?_lt single_infinity_pos hq
    obtain ⟨rfl, rfl⟩ := Bytes.bigEndian_append_inj hlt hlt' h.2
    obtain ⟨rfl, eq⟩ := BinaryFormat.pattern?_inj single_infinity_pos hp hq
    exact ⟨.inl (eq_of_finite da db eq), rfl⟩
  case double.double =>
    obtain ⟨hbits, rfl⟩ := Bytes.bigEndian_append_inj a.toNat_lt b.toNat_lt h.2
    exact ⟨.inl (UInt64.toNat_inj.mp hbits), rfl⟩
  all_goals exact absurd h.1 (by decide)

end Cbor

end SubtermIndex
