/-
# `SubtermIndex.Proofs.Cbor.Narrowing` — conversions that may round write what is exact

To write a double by trying conversions takes one assumption on them: a number that the narrower
format holds is not changed (`Conversions.Exact`).  How they round any other number does not show,
since a result that is not the same number is given up (`Conversions.encodeFloat_eq`).

Rounding to nearest is of this kind (`nearest_exact`): a number that the format holds is at no
distance from itself.

Numbers are compared by the program in units of the lower of their two last places, where both are
integers (`isSameNumber_iff`), and in the proofs as rationals.
-/
import SubtermIndex.Cbor.Narrowing
import SubtermIndex.Proofs.Cbor.Number

namespace SubtermIndex

namespace FloatDatum

/-! ## Numbers in units -/

theorem signed_eq_inUnits {last e : Int} (le : last ≤ e) (negative : Bool) (m : Nat) :
    signed negative m e = inUnits negative m (e - last).toNat * 2 ^ last := by
  have split : (2 : ℚ) ^ e = 2 ^ (e - last).toNat * 2 ^ last := by
    rw [← zpow_natCast, ← zpow_add₀ (by norm_num)]
    congr 1
    omega
  rw [signed, inUnits, magnitude, Nat.shiftLeft_eq, split]
  split
  · push_cast
    ring
  · push_cast
    ring

/-- Numbers are compared by counting units of the lower of their two last places. -/
theorem isSameNumber_iff {d d' : FloatDatum} : d.isSameNumber d' = true ↔ d.SameNumber d' := by
  constructor
  · intro h
    cases d <;> cases d' <;> try cases h
    case infinite.infinite negative negative' =>
      obtain rfl := eq_of_beq h
      exact .infinite negative
    case finite.finite negative m e negative' m' e' =>
      have units := eq_of_beq h
      refine .finite ?_
      rw [signed_eq_inUnits (min_le_left e e'), signed_eq_inUnits (min_le_right e e'), units]
  · intro h
    cases h with
    | infinite negative => exact beq_self_eq_true negative
    | @finite negative negative' m m' e e' eq =>
        rw [signed_eq_inUnits (min_le_left e e'), signed_eq_inUnits (min_le_right e e')] at eq
        have units := mul_right_cancel₀ (by positivity) eq
        exact beq_iff_eq.mpr (by exact_mod_cast units)

/-! ## Integers -/

theorem signed_ofInt (n : Int) : signed (n < 0) n.natAbs 0 = n := by
  rw [signed, magnitude, zpow_zero, mul_one]
  rcases lt_or_ge n 0 with neg | nonneg
  · have abs : (n.natAbs : Int) = -n := Int.ofNat_natAbs_of_nonpos neg.le
    rw [if_pos (decide_eq_true neg), ← Int.cast_natCast, abs, Int.cast_neg, neg_neg]
  · have abs : (n.natAbs : Int) = n := Int.natAbs_of_nonneg nonneg
    rw [if_neg (by simpa using nonneg), ← Int.cast_natCast, abs]

theorem sameNumber_ofInt_iff {negative : Bool} {m : Nat} {e n : Int} :
    SameNumber (.finite negative m e) (.ofInt n) ↔ integer? negative m e = some n := by
  rw [integer?_eq_some_iff, ofInt]
  constructor
  · intro h
    cases h with
    | finite eq => rw [eq, signed_ofInt]
  · intro eq
    exact .finite (by rw [signed_ofInt, eq])

/-- A number is an integer when it has no fraction, and then it is what is left of it. -/
theorem integer?_eq (negative : Bool) (m : Nat) (e : Int) :
    integer? negative m e =
      if isWhole (.finite negative m e) then some (inUnits negative (m >>> (-e).toNat) e.toNat)
      else none := by
  rw [integer?_eq_map]
  cases e with
  | ofNat up =>
      have whole : isWhole (.finite negative m (.ofNat up)) = true := by simp [isWhole, Nat.mod_one]
      have below : (-(Int.ofNat up)).toNat = 0 := by simp
      rw [if_pos whole, below]
      rfl
  | negSucc down =>
      have below : (-(Int.negSucc down)).toNat = down + 1 := rfl
      have above : (Int.negSucc down).toNat = 0 := rfl
      simp only [scaled?, isWhole, inUnits, below, above, Nat.shiftLeft_zero, beq_iff_eq]
      by_cases whole : m % 1 <<< (down + 1) = 0
      · rw [if_pos whole, if_pos whole]
        rfl
      · rw [if_neg whole, if_neg whole]
        rfl

end FloatDatum

namespace Cbor

open FloatDatum BinaryFormat

theorem Integer.saturate_val (k : Integer) : saturate k.val = k.val := by
  have lower := k.lower
  have upper := k.upper
  rw [saturate]
  omega

/-- No integer becomes one of the format by being cut off. -/
theorem Integer.ofInt?_saturate (n : Int) : ofInt? (saturate n) = ofInt? n := by
  unfold ofInt?
  by_cases h : -0x10000000000000000 ≤ n ∧ n < 0x10000000000000000
  · rw [Integer.saturate_val ⟨n, h.1, h.2⟩]
  · rw [dif_neg h, dif_neg]
    rw [saturate]
    omega

namespace Conversions

/-- A number that the target of a conversion holds is not changed by it. -/
structure Exact (c : Conversions) : Prop where
  half (bits : UInt64) : BinaryFormat.half.Holds (BinaryFormat.double.decode bits.toNat) →
    (BinaryFormat.half.decode (c.toHalf bits).toNat).SameNumber
      (BinaryFormat.double.decode bits.toNat)
  single (bits : UInt64) : BinaryFormat.single.Holds (BinaryFormat.double.decode bits.toNat) →
    (BinaryFormat.single.decode (c.toSingle bits).toNat).SameNumber
      (BinaryFormat.double.decode bits.toNat)
  integer (n : Int) : saturate n = n → BinaryFormat.double.Holds (.ofInt n) →
    (BinaryFormat.double.decode (c.ofInt128 n).toNat).SameNumber (.ofInt n)

variable {c : Conversions} {bits : UInt64} {negative : Bool} {m : Nat} {e : Int}

theorem integer?_eq (exact : c.Exact)
    (hd : BinaryFormat.double.decode bits.toNat = .finite negative m e) :
    c.integer? bits = (SubtermIndex.integer? negative m e).bind Integer.ofInt? := by
  rw [integer?, hd, FloatDatum.integer?_eq]
  split
  case isFalse => rfl
  case isTrue whole =>
    obtain ⟨n, hn⟩ : ∃ n, n = inUnits negative (m >>> (-e).toNat) e.toNat := ⟨_, rfl⟩
    rw [toInt128, ← hn, Integer.ofInt?_saturate, Option.bind_some]
    cases hk : Integer.ofInt? n with
    | none => rfl
    | some k =>
        have number : SameNumber (.finite negative m e) (.ofInt k.val) := by
          rw [sameNumber_ofInt_iff, FloatDatum.integer?_eq, if_pos whole, ← hn,
            Integer.ofInt?_eq_some_iff.mp hk]
        have held : BinaryFormat.double.Holds (.ofInt k.val) :=
          ⟨bits.toNat, toNat_lt_double bits, hd ▸ number⟩
        refine Option.filter_some_pos ?_
        exact isSameNumber_iff.mpr ((exact.integer k.val k.saturate_val held).trans number.symm)

/-- A conversion finds the pattern of a number other than zero, if there is one. -/
theorem pattern?_eq_converted {f : BinaryFormat} {converted : Nat} (hf : 0 < f.infinity)
    (lt : converted < 2 * f.signWeight) (hm : m ≠ 0)
    (exact : f.Holds (.finite negative m e) →
      (f.decode converted).SameNumber (.finite negative m e)) :
    f.pattern? negative m e =
      if (f.decode converted).isSameNumber (.finite negative m e) then some converted
      else none := by
  split
  case isTrue same =>
    rw [pattern?_eq_some_iff hf hm]
    exact ⟨lt, isSameNumber_iff.mp same⟩
  case isFalse differ =>
    rw [pattern?_eq_none_iff hf]
    intro held
    exact differ (isSameNumber_iff.mpr (exact held))

theorem encodeFraction_eq (exact : c.Exact)
    (hd : BinaryFormat.double.decode bits.toNat = .finite negative m e) (hm : m ≠ 0) :
    c.encodeFraction bits = Cbor.encodeFraction bits negative m e := by
  have half := pattern?_eq_converted half_infinity_pos (c.toHalf bits).toNat_lt hm
    (hd ▸ exact.half bits)
  have single := pattern?_eq_converted single_infinity_pos (c.toSingle bits).toNat_lt hm
    (hd ▸ exact.single bits)
  rw [encodeFraction, Cbor.encodeFraction, hd, half, single]
  split_ifs <;> rfl

/-- Conversions that keep what they can keep write every double as it is written exactly. -/
theorem encodeFloat_eq (exact : c.Exact) (bits : UInt64) :
    c.encodeFloat bits = Cbor.encodeFloat bits := by
  rw [encodeFloat, Cbor.encodeFloat]
  cases hd : BinaryFormat.double.decode bits.toNat with
  | nan => rfl
  | infinite negative => rfl
  | finite negative m e =>
      dsimp only
      rw [integer?_eq exact hd]
      cases hi : (SubtermIndex.integer? negative m e).bind Integer.ofInt? with
      | some n => rfl
      | none =>
          -- Zero has two patterns in every width, but it is an integer and does not come here.
          have hm : m ≠ 0 := by
            rintro rfl
            have zero : SubtermIndex.integer? negative 0 e = some 0 :=
              integer?_eq_some_iff.mpr (by simp [signed, magnitude])
            rw [zero] at hi
            cases hi
          exact encodeFraction_eq exact hd hm

end Conversions

/-! ## Rounding to nearest -/

theorem rounded_eq_of_scaled? {m n : Nat} {shift : Int} (h : scaled? m shift = some n) :
    rounded m shift = n := by
  cases shift with
  | ofNat up => exact Option.some.inj h
  | negSucc down =>
      rw [scaled?] at h
      split at h
      case isTrue whole =>
        have pos : 0 < 1 <<< down := by
          rw [Nat.one_shiftLeft]
          exact Nat.two_pow_pos down
        rw [rounded, whole, if_neg (by omega)]
        exact Option.some.inj h
      case isFalse => cases h

theorem nearest_eq_of_pattern? {f : BinaryFormat} {negative : Bool} {m x : Nat} {e : Int}
    (h : f.pattern? negative m e = some x) : f.nearest (.finite negative m e) = x := by
  rw [pattern?] at h
  rw [nearest]
  split at h
  case isTrue hm =>
    rw [if_pos hm]
    exact Option.some.inj h
  case isFalse hm =>
    dsimp only at h ⊢
    rw [if_neg hm]
    split at h
    · cases h
    case h_2 significand scaled =>
      split at h
      case isTrue small =>
        rw [rounded_eq_of_scaled? scaled, min_eq_right small.le]
        exact Option.some.inj h
      case isFalse => cases h

theorem sameNumber_nearest {f : BinaryFormat} {d : FloatDatum} (hf : 0 < f.infinity)
    (held : f.Holds d) :
    f.nearest d < 2 * f.signWeight ∧ (f.decode (f.nearest d)).SameNumber d := by
  cases d with
  | nan =>
      obtain ⟨x, -, same⟩ := held
      generalize f.decode x = d at same
      cases same
  | infinite negative =>
      rw [nearest, decode_infinity]
      exact ⟨withSign_lt f.infinity_lt_signWeight, .infinite negative⟩
  | finite negative m e =>
      obtain ⟨x, hx⟩ := Option.isSome_iff_exists.mp ((pattern?_isSome_iff hf).mpr held)
      rw [nearest_eq_of_pattern? hx]
      exact ⟨pattern?_lt hf hx, sameNumber_of_pattern? hf hx⟩

theorem Conversions.nearest_exact : Conversions.nearest.Exact where
  half bits held := by
    obtain ⟨lt, same⟩ := sameNumber_nearest half_infinity_pos held
    rw [Conversions.nearest]
    dsimp only
    rwa [UInt16.toNat_ofNat_of_lt' lt]
  single bits held := by
    obtain ⟨lt, same⟩ := sameNumber_nearest single_infinity_pos held
    rw [Conversions.nearest]
    dsimp only
    rwa [UInt32.toNat_ofNat_of_lt' lt]
  integer n _ held := by
    obtain ⟨lt, same⟩ := sameNumber_nearest (by decide) held
    rw [Conversions.nearest]
    dsimp only
    rwa [UInt64.toNat_ofNat_of_lt' lt]

end Cbor

end SubtermIndex
