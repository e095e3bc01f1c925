/-
# `SubtermIndex.Proofs.BinaryFloat` — a pattern and its exact number determine each other

Every finite pattern of a format stands for one significand at one exponent, and these are in
*normal form*: either the significand fills its width, or the exponent is the least one
(`BinaryFormat.Normal`).  A number has at most one normal form, and a pattern is put together from
the normal form of its number.  Hence two numbers that are written by one pattern are equal
(`pattern?_inj`), and two patterns that stand for one number are equal (`eq_of_decode`).

Numbers are rationals here, so that a normal form is compared with what it stands for and not with
the shifts that computed it.

That normal forms are unique rests on the leading place of a number, which is the logarithm of its
significand moved by its exponent (`magnitude_bounds`, `log2_add_eq`).  It is the same for all
spellings of the number, and it determines the exponent of the normal form (`Normal.exponent_eq`).
The widths of the formats enter only through the two place values of a pattern, that of the
exponent and that of the sign.
-/
import SubtermIndex.BinaryFloat
import Mathlib.Algebra.Order.Field.Power
import Mathlib.Data.Rat.Cast.Order
import Mathlib.Tactic.FieldSimp
import Mathlib.Tactic.Linarith
import Mathlib.Tactic.Positivity
import Mathlib.Tactic.Ring

namespace SubtermIndex

def magnitude (m : Nat) (exponent : Int) : ℚ := m * 2 ^ exponent

def signed (negative : Bool) (m : Nat) (exponent : Int) : ℚ :=
  if negative then -magnitude m exponent else magnitude m exponent

theorem magnitude_nonneg (m : Nat) (e : Int) : 0 ≤ magnitude m e := by
  rw [magnitude]
  positivity

/-! ## Integers -/

theorem scaled?_ofNat (m up : Nat) : scaled? m (.ofNat up) = some (m * 2 ^ up) := by
  rw [scaled?, Nat.shiftLeft_eq]

theorem scaled?_negSucc (m down : Nat) :
    scaled? m (.negSucc down)
      = if m % 2 ^ (down + 1) = 0 then some (m / 2 ^ (down + 1)) else none := by
  rw [scaled?, Nat.one_shiftLeft, Nat.shiftRight_eq_div_pow]

theorem scaled?_eq_some_iff {m n : Nat} {shift : Int} :
    scaled? m shift = some n ↔ (n : ℚ) = magnitude m shift := by
  cases shift with
  | ofNat up =>
      rw [scaled?_ofNat, Option.some.injEq, magnitude, Int.ofNat_eq_natCast, zpow_natCast]
      constructor
      · rintro rfl
        push_cast
        rfl
      · intro h
        exact_mod_cast h.symm
  | negSucc down =>
      have hpow : 0 < 2 ^ (down + 1) := Nat.two_pow_pos _
      have key : (n : ℚ) = magnitude m (Int.negSucc down) ↔ n * 2 ^ (down + 1) = m := by
        rw [magnitude, zpow_negSucc, eq_mul_inv_iff_mul_eq₀ (by positivity)]
        exact_mod_cast Iff.rfl
      rw [key, scaled?_negSucc]
      constructor
      · intro h
        split at h
        case isTrue hm =>
          obtain rfl := Option.some.inj h
          exact Nat.div_mul_cancel (Nat.dvd_of_mod_eq_zero hm)
        case isFalse => simp at h
      · rintro rfl
        simp [Nat.mul_div_cancel _ hpow]

theorem integer?_eq_map (negative : Bool) (m : Nat) (e : Int) :
    integer? negative m e
      = (scaled? m e).map fun k : Nat => if negative then -(k : Int) else k := by
  rw [integer?]
  cases scaled? m e <;> rfl

/-- `integer?` finds the integer that a number is, if it is one. -/
theorem integer?_eq_some_iff {negative : Bool} {m : Nat} {e n : Int} :
    integer? negative m e = some n ↔ (n : ℚ) = signed negative m e := by
  simp only [integer?_eq_map, Option.map_eq_some_iff, scaled?_eq_some_iff]
  constructor
  · rintro ⟨k, hk, rfl⟩
    rw [signed]
    split <;> push_cast <;> rw [hk]
  · intro h
    have hm := magnitude_nonneg m e
    refine ⟨n.natAbs, ?_⟩
    cases negative with
    | true =>
        have hn : (n : ℚ) ≤ 0 := by rw [h]; simpa [signed] using hm
        have habs : (n.natAbs : Int) = -n :=
          Int.ofNat_natAbs_of_nonpos (by exact_mod_cast hn)
        refine ⟨?_, by simp only [if_true, habs, neg_neg]⟩
        rw [← Int.cast_natCast, habs, Int.cast_neg, h]
        simp [signed]
    | false =>
        have hn : (0 : ℚ) ≤ n := by rw [h]; simpa [signed] using hm
        have habs : (n.natAbs : Int) = n := Int.natAbs_of_nonneg (by exact_mod_cast hn)
        refine ⟨?_, by simpa using habs⟩
        rw [← Int.cast_natCast, habs, h]
        simp [signed]

/-! ## Leading places -/

theorem magnitude_bounds {m : Nat} (hm : m ≠ 0) (e : Int) :
    2 ^ (m.log2 + e) ≤ magnitude m e ∧ magnitude m e < 2 ^ (m.log2 + e + 1) := by
  have lower : (2 : ℚ) ^ (m.log2 : Int) ≤ m := by
    rw [zpow_natCast]
    exact_mod_cast Nat.log2_self_le hm
  have upper : (m : ℚ) < 2 ^ ((m.log2 : Int) + 1) := by
    have : m < 2 ^ (m.log2 + 1) := Nat.lt_log2_self
    exact_mod_cast this
  constructor
  · rw [zpow_add₀ (by norm_num), magnitude]
    exact mul_le_mul_of_nonneg_right lower (by positivity)
  · rw [add_right_comm, zpow_add₀ (by norm_num), magnitude]
    exact mul_lt_mul_of_pos_right upper (by positivity)

theorem log2_add_eq {m m' : Nat} {e e' : Int} (hm : m ≠ 0) (hm' : m' ≠ 0)
    (eq : magnitude m e = magnitude m' e') : m.log2 + e = m'.log2 + e' := by
  obtain ⟨lower, upper⟩ := magnitude_bounds hm e
  obtain ⟨lower', upper'⟩ := magnitude_bounds hm' e'
  rw [← eq] at lower' upper'
  have le := (zpow_lt_zpow_iff_right₀ one_lt_two).mp (lower.trans_lt upper')
  have ge := (zpow_lt_zpow_iff_right₀ one_lt_two).mp (lower'.trans_lt upper)
  omega

theorem magnitude_ne_zero {m : Nat} (hm : m ≠ 0) (e : Int) : magnitude m e ≠ 0 := by
  have : (m : ℚ) ≠ 0 := by exact_mod_cast hm
  rw [magnitude]
  positivity

namespace BinaryFormat

variable {f : BinaryFormat}

/-! ## Normal forms -/

/-- The significand fills its width, or the exponent is the least one. -/
def Normal (f : BinaryFormat) (m : Nat) (e : Int) : Prop :=
  (e = f.minExponent ∧ m < 2 ^ f.fractionBits) ∨
    (f.minExponent ≤ e ∧ 2 ^ f.fractionBits ≤ m ∧ m < 2 * 2 ^ f.fractionBits)

/-- The pattern of a normal form, without its sign. -/
def packed (f : BinaryFormat) (m : Nat) (e : Int) : Nat :=
  (e - f.minExponent).toNat * 2 ^ f.fractionBits + m

theorem Normal.lt {m : Nat} {e : Int} (h : f.Normal m e) : m < 2 * 2 ^ f.fractionBits := by
  rcases h with ⟨-, h⟩ | ⟨-, -, h⟩ <;> omega

theorem Normal.le {m : Nat} {e : Int} (h : f.Normal m e) : f.minExponent ≤ e := by
  rcases h with ⟨h, -⟩ | ⟨h, -, -⟩ <;> omega

theorem Normal.full {m : Nat} {e : Int} (h : f.Normal m e) (lt : f.minExponent < e) :
    2 ^ f.fractionBits ≤ m := by
  rcases h with ⟨h, -⟩ | ⟨-, h, -⟩ <;> omega

theorem Normal.magnitude_lt {m m' : Nat} {e e' : Int} (h : f.Normal m e) (h' : f.Normal m' e')
    (lt : e < e') : magnitude m e < magnitude m' e' := by
  have full : 2 ^ f.fractionBits ≤ m' := h'.full (lt_of_le_of_lt h.le lt)
  have hm : (m : ℚ) < 2 * m' := by
    have : m < 2 * m' := lt_of_lt_of_le h.lt (by omega)
    exact_mod_cast this
  have hpow : (2 : ℚ) ^ (e + 1) ≤ 2 ^ e' := zpow_le_zpow_right₀ (by norm_num) (by omega)
  calc magnitude m e < 2 * m' * 2 ^ e := mul_lt_mul_of_pos_right hm (by positivity)
    _ = m' * 2 ^ (e + 1) := by rw [zpow_add_one₀ (by norm_num)]; ring
    _ ≤ magnitude m' e' := mul_le_mul_of_nonneg_left hpow (by positivity)

theorem Normal.eq_of_magnitude_eq {m m' : Nat} {e e' : Int} (h : f.Normal m e)
    (h' : f.Normal m' e') (eq : magnitude m e = magnitude m' e') : m = m' ∧ e = e' := by
  rcases lt_trichotomy e e' with lt | rfl | lt
  · exact absurd eq (h.magnitude_lt h' lt).ne
  · have : (m : ℚ) = m' := mul_right_cancel₀ (by positivity) eq
    exact ⟨by exact_mod_cast this, rfl⟩
  · exact absurd eq (h'.magnitude_lt h lt).ne'

theorem Normal.packed_lt {m m' : Nat} {e e' : Int} (h : f.Normal m e) (h' : f.Normal m' e')
    (lt : e < e') : f.packed m e < f.packed m' e' := by
  have full : 2 ^ f.fractionBits ≤ m' := h'.full (lt_of_le_of_lt h.le lt)
  have step : (e - f.minExponent).toNat + 1 ≤ (e' - f.minExponent).toNat := by
    have := h.le
    omega
  have := Nat.mul_le_mul_right (2 ^ f.fractionBits) step
  have := h.lt
  rw [Nat.succ_mul] at *
  unfold packed
  omega

theorem Normal.eq_of_packed_eq {m m' : Nat} {e e' : Int} (h : f.Normal m e)
    (h' : f.Normal m' e') (eq : f.packed m e = f.packed m' e') : m = m' ∧ e = e' := by
  rcases lt_trichotomy e e' with lt | rfl | lt
  · exact absurd eq (h.packed_lt h' lt).ne
  · exact ⟨Nat.add_left_cancel eq, rfl⟩
  · exact absurd eq (h'.packed_lt h lt).ne'

/-! ## Signs -/

theorem signWeight_eq (f : BinaryFormat) :
    f.signWeight = 2 ^ f.exponentBits * 2 ^ f.fractionBits := by
  rw [signWeight, Nat.one_shiftLeft, Nat.pow_add]

theorem infinity_eq (f : BinaryFormat) :
    f.infinity = (2 ^ f.exponentBits - 1) * 2 ^ f.fractionBits := by
  rw [infinity, Nat.shiftLeft_eq, Nat.one_shiftLeft]

theorem signWeight_pos (f : BinaryFormat) : 0 < f.signWeight := by
  rw [signWeight_eq]
  positivity

theorem infinity_lt_signWeight (f : BinaryFormat) : f.infinity < f.signWeight := by
  have h : 2 ^ f.exponentBits - 1 < 2 ^ f.exponentBits :=
    Nat.sub_lt (Nat.two_pow_pos _) Nat.one_pos
  rw [infinity_eq, signWeight_eq]
  exact Nat.mul_lt_mul_of_pos_right h (Nat.two_pow_pos _)

theorem withSign_inj {negative negative' : Bool} {a b : Nat} (ha : a < f.signWeight)
    (hb : b < f.signWeight) (h : f.withSign negative a = f.withSign negative' b) :
    negative = negative' ∧ a = b := by
  unfold withSign at h
  cases negative <;> cases negative' <;> simp at h ⊢ <;> omega

theorem withSign_lt {negative : Bool} {a : Nat} (ha : a < f.signWeight) :
    f.withSign negative a < 2 * f.signWeight := by
  rw [withSign]
  split <;> omega

theorem withSign_mod {bits : Nat} (h : bits < 2 * f.signWeight) :
    f.withSign (decide (bits / f.signWeight % 2 = 1)) (bits % f.signWeight) = bits := by
  have hpos := f.signWeight_pos
  have hdiv : bits / f.signWeight < 2 := Nat.div_lt_of_lt_mul (by rwa [Nat.mul_comm])
  have hsum := Nat.div_add_mod bits f.signWeight
  generalize bits / f.signWeight = q at *
  rw [withSign]
  obtain rfl | rfl : q = 0 ∨ q = 1 := by omega
  · simpa using hsum
  · simpa using hsum

theorem withSign_magnitude {negative : Bool} {a : Nat} (ha : a < f.signWeight) :
    f.withSign negative a % f.signWeight = a := by
  rw [withSign]
  split
  · rw [Nat.add_mod_left, Nat.mod_eq_of_lt ha]
  · exact Nat.mod_eq_of_lt ha

theorem withSign_sign {negative : Bool} {a : Nat} (ha : a < f.signWeight) :
    decide (f.withSign negative a / f.signWeight % 2 = 1) = negative := by
  rw [withSign]
  cases negative with
  | true => simp [Nat.add_div_left _ f.signWeight_pos, Nat.div_eq_of_lt ha]
  | false => simp [Nat.div_eq_of_lt ha]

/-! ## Reading a pattern -/

/-- A finite pattern stands for the normal form that it is put together from. -/
theorem decode_eq_finite {bits : Nat} {negative : Bool} {m : Nat} {e : Int}
    (hb : bits < 2 * f.signWeight) (h : f.decode bits = .finite negative m e) :
    f.Normal m e ∧ f.packed m e < f.infinity ∧ bits = f.withSign negative (f.packed m e) := by
  have hpos : 0 < 2 ^ f.fractionBits := Nat.two_pow_pos _
  have hmod := Nat.mod_lt (bits % f.signWeight) hpos
  have hsum := Nat.div_add_mod (bits % f.signWeight) (2 ^ f.fractionBits)
  have hsign := withSign_mod hb
  simp only [decode, Nat.shiftRight_eq_div_pow, Nat.one_shiftLeft] at h
  generalize bits % f.signWeight / 2 ^ f.fractionBits = biased at *
  generalize bits % f.signWeight % 2 ^ f.fractionBits = fraction at *
  split at h
  · simp at h
  split at h
  · simp at h
  have small : bits % f.signWeight < f.infinity := by omega
  split at h
  case isTrue hz =>
    -- the exponent field is zero: a subnormal pattern, without the leading bit
    simp only [FloatDatum.finite.injEq] at h
    obtain ⟨rfl, rfl, rfl⟩ := h
    rw [hz, Nat.mul_zero, Nat.zero_add] at hsum
    have hp : f.packed fraction f.minExponent = bits % f.signWeight := by simp [packed, hsum]
    rw [hp, hsign]
    exact ⟨.inl ⟨rfl, hmod⟩, small, rfl⟩
  case isFalse hz =>
    -- the leading bit is not stored, and it adds one to the exponent field
    simp only [FloatDatum.finite.injEq] at h
    obtain ⟨rfl, rfl, rfl⟩ := h
    have hk : (f.minExponent + ↑(biased - 1) - f.minExponent).toNat + 1 = biased := by omega
    have hp : f.packed (2 ^ f.fractionBits + fraction) (f.minExponent + ↑(biased - 1))
        = bits % f.signWeight := by
      rw [packed, ← Nat.add_assoc, ← Nat.succ_mul, Nat.succ_eq_add_one, hk, Nat.mul_comm]
      exact hsum
    rw [hp, hsign]
    exact ⟨.inr ⟨by omega, by omega, by omega⟩, small, rfl⟩

theorem decode_eq_infinite {bits : Nat} {negative : Bool} (hb : bits < 2 * f.signWeight)
    (h : f.decode bits = .infinite negative) : bits = f.withSign negative f.infinity := by
  have hsign := withSign_mod hb
  simp only [decode] at h
  split at h
  · simp at h
  split at h
  case isTrue hm =>
    simp only [FloatDatum.infinite.injEq] at h
    rw [← h, ← hm, hsign]
  case isFalse => split at h <;> simp at h

theorem eq_of_decode {a b : Nat} {negative : Bool} {m m' : Nat} {e e' : Int}
    (ha : a < 2 * f.signWeight) (hb : b < 2 * f.signWeight)
    (da : f.decode a = .finite negative m e) (db : f.decode b = .finite negative m' e')
    (eq : magnitude m e = magnitude m' e') : a = b := by
  obtain ⟨na, -, rfl⟩ := decode_eq_finite ha da
  obtain ⟨nb, -, rfl⟩ := decode_eq_finite hb db
  obtain ⟨rfl, rfl⟩ := na.eq_of_magnitude_eq nb eq
  rfl

/-! ## Writing a number -/

/-- Where the last place of a number may stand, its significand is in normal form. -/
theorem normal_of_scaled {m significand : Nat} {e : Int} (hm : m ≠ 0)
    (h : scaled? m (e - max f.minExponent (e + m.log2 - f.fractionBits)) = some significand) :
    f.Normal significand (max f.minExponent (e + m.log2 - f.fractionBits)) := by
  obtain ⟨last, hlast⟩ : ∃ last, last = max f.minExponent (e + m.log2 - f.fractionBits) :=
    ⟨_, rfl⟩
  rw [← hlast] at h ⊢
  rw [scaled?_eq_some_iff] at h
  obtain ⟨lower, upper⟩ := magnitude_bounds hm (e - last)
  rw [← h] at lower upper
  have hlt : significand < 2 * 2 ^ f.fractionBits := by
    have : (significand : ℚ) < 2 ^ ((f.fractionBits : Int) + 1) :=
      upper.trans_le (zpow_le_zpow_right₀ (by norm_num) (by omega))
    rw [zpow_add_one₀ (by norm_num), zpow_natCast] at this
    rw [Nat.mul_comm]
    exact_mod_cast this
  rcases le_or_gt (e + m.log2 - f.fractionBits) f.minExponent with hle | hgt
  · rcases lt_or_ge significand (2 ^ f.fractionBits) with hs | hs
    · exact .inl ⟨by omega, hs⟩
    · exact .inr ⟨by omega, hs, hlt⟩
  · refine .inr ⟨by omega, ?_, hlt⟩
    have : (2 : ℚ) ^ (f.fractionBits : Int) ≤ significand :=
      (zpow_le_zpow_right₀ (by norm_num) (by omega)).trans lower
    rw [zpow_natCast] at this
    exact_mod_cast this

/-- A pattern is put together from the normal form of the number that it is written for. -/
theorem pattern?_eq_some {negative : Bool} {m x : Nat} {e : Int} (hf : 0 < f.infinity)
    (h : f.pattern? negative m e = some x) :
    ∃ m' e', f.Normal m' e' ∧ magnitude m' e' = magnitude m e ∧
      x = f.withSign negative (f.packed m' e') ∧ f.packed m' e' < f.infinity := by
  rw [pattern?] at h
  split at h
  case isTrue hm =>
    subst hm
    have hp : f.packed 0 f.minExponent = 0 := by simp [packed]
    refine ⟨0, f.minExponent, .inl ⟨rfl, Nat.two_pow_pos _⟩, by simp [magnitude], ?_, ?_⟩
    · rw [hp]
      exact (Option.some.inj h).symm
    · rwa [hp]
  case isFalse hm =>
    dsimp only at h
    split at h
    · simp at h
    case h_2 significand hs =>
      split at h
      case isTrue hlt =>
        rw [Nat.shiftLeft_eq] at h hlt
        refine ⟨significand, _, normal_of_scaled hm hs, ?_, (Option.some.inj h).symm, hlt⟩
        rw [magnitude, scaled?_eq_some_iff.mp hs, magnitude, mul_assoc,
          ← zpow_add₀ (by norm_num), sub_add_cancel]
        rfl
      case isFalse => simp at h

theorem pattern?_inj {negative negative' : Bool} {m m' x : Nat} {e e' : Int} (hf : 0 < f.infinity)
    (h : f.pattern? negative m e = some x) (h' : f.pattern? negative' m' e' = some x) :
    negative = negative' ∧ magnitude m e = magnitude m' e' := by
  obtain ⟨k, d, nk, hk, rfl, ltk⟩ := pattern?_eq_some hf h
  obtain ⟨k', d', nk', hk', eq, ltk'⟩ := pattern?_eq_some hf h'
  have hsign := f.infinity_lt_signWeight
  obtain ⟨rfl, same⟩ := withSign_inj (by omega) (by omega) eq
  obtain ⟨rfl, rfl⟩ := nk.eq_of_packed_eq nk' same
  exact ⟨rfl, hk.symm.trans hk'⟩

/-- A pattern that is written for a number is no pattern of an infinity or of a NaN. -/
theorem pattern?_ne {negative negative' : Bool} {m x y : Nat} {e : Int} (hf : 0 < f.infinity)
    (h : f.pattern? negative m e = some x) (hy : f.infinity ≤ y) (hy' : y < f.signWeight) :
    x ≠ f.withSign negative' y := by
  rintro rfl
  obtain ⟨k, d, -, -, eq, lt⟩ := pattern?_eq_some hf h
  have := withSign_inj hy' (by omega) eq
  omega

theorem pattern?_lt {negative : Bool} {m x : Nat} {e : Int} (hf : 0 < f.infinity)
    (h : f.pattern? negative m e = some x) : x < 2 * f.signWeight := by
  obtain ⟨k, d, -, -, rfl, lt⟩ := pattern?_eq_some hf h
  exact withSign_lt (lt.trans f.infinity_lt_signWeight)

/-! ## Every number that a format holds is written -/

/-- The exponent of a normal form is the one that is tried for every spelling of the number. -/
theorem Normal.exponent_eq {m m' : Nat} {e e' : Int} (h : f.Normal m' e') (hm : m ≠ 0)
    (eq : magnitude m' e' = magnitude m e) :
    e' = max f.minExponent (e + m.log2 - f.fractionBits) := by
  have hm' : m' ≠ 0 := by
    rintro rfl
    exact magnitude_ne_zero hm e (by rw [← eq, magnitude, Nat.cast_zero, zero_mul])
  have place := log2_add_eq hm' hm eq
  rcases h with ⟨least, short⟩ | ⟨le, full, short⟩
  · have : m'.log2 < f.fractionBits := (Nat.log2_lt hm').mpr short
    omega
  · have below : f.fractionBits ≤ m'.log2 := (Nat.le_log2 hm').mpr full
    have above : m'.log2 < f.fractionBits + 1 := (Nat.log2_lt hm').mpr (by rw [Nat.pow_succ]; omega)
    omega

/-- A number with a normal form that is small enough is written. -/
theorem pattern?_of_normal {negative : Bool} {m m' : Nat} {e e' : Int} (h : f.Normal m' e')
    (hm : m ≠ 0) (eq : magnitude m' e' = magnitude m e) (small : f.packed m' e' < f.infinity) :
    f.pattern? negative m e = some (f.withSign negative (f.packed m' e')) := by
  have last := h.exponent_eq hm eq
  have scaled : scaled? m (e - e') = some m' := by
    rw [scaled?_eq_some_iff, magnitude, zpow_sub₀ (by norm_num), mul_div_assoc']
    rw [eq_div_iff (by positivity)]
    exact eq
  rw [pattern?, if_neg hm]
  dsimp only
  rw [← last, scaled]
  dsimp only
  rw [Nat.shiftLeft_eq]
  exact if_pos small

/-- A normal form is read off the pattern that is put together from it. -/
theorem decode_withSign_packed {m : Nat} {e : Int} (h : f.Normal m e) (negative : Bool)
    (small : f.packed m e < f.infinity) :
    f.decode (f.withSign negative (f.packed m e)) = .finite negative m e := by
  have below := small.trans f.infinity_lt_signWeight
  have full : 0 < 2 ^ f.fractionBits := Nat.two_pow_pos _
  simp only [decode, withSign_magnitude below, withSign_sign below, Nat.shiftRight_eq_div_pow,
    Nat.one_shiftLeft]
  rw [if_neg (by omega), if_neg (by omega)]
  rcases h with ⟨rfl, short⟩ | ⟨le, enough, short⟩
  · have packed : f.packed m f.minExponent = m := by simp [BinaryFormat.packed]
    rw [packed, if_pos (Nat.div_eq_of_lt short), Nat.mod_eq_of_lt short]
  · obtain ⟨fraction, rfl⟩ := Nat.exists_eq_add_of_le enough
    obtain ⟨steps, rfl⟩ : ∃ steps : Nat, e = f.minExponent + steps :=
      ⟨(e - f.minExponent).toNat, by omega⟩
    have packed : f.packed (2 ^ f.fractionBits + fraction) (f.minExponent + steps) =
        fraction + 2 ^ f.fractionBits * (steps + 1) := by
      rw [BinaryFormat.packed, add_sub_cancel_left, Int.toNat_natCast]
      ring
    have biased :
        (fraction + 2 ^ f.fractionBits * (steps + 1)) / 2 ^ f.fractionBits = steps + 1 := by
      rw [Nat.add_mul_div_left _ _ full, Nat.div_eq_of_lt (by omega), Nat.zero_add]
    have rest : (fraction + 2 ^ f.fractionBits * (steps + 1)) % 2 ^ f.fractionBits = fraction := by
      rw [Nat.add_mul_mod_self_left, Nat.mod_eq_of_lt (by omega)]
    rw [packed, biased, rest, if_neg (Nat.succ_ne_zero steps), Nat.add_sub_cancel]

theorem decode_infinity (f : BinaryFormat) (negative : Bool) :
    f.decode (f.withSign negative f.infinity) = .infinite negative := by
  have below := f.infinity_lt_signWeight
  simp only [decode, withSign_magnitude below, withSign_sign below]
  rw [if_neg (lt_irrefl _)]
  rfl

end BinaryFormat

/-! ## Data that are one number -/

theorem eq_of_signed_eq {negative negative' : Bool} {m m' : Nat} {e e' : Int} (hm : m ≠ 0)
    (eq : signed negative m e = signed negative' m' e') :
    negative = negative' ∧ magnitude m e = magnitude m' e' := by
  have pos : 0 < magnitude m e := (magnitude_nonneg m e).lt_of_ne' (magnitude_ne_zero hm e)
  have nonneg := magnitude_nonneg m' e'
  unfold signed at eq
  cases negative <;> cases negative' <;> simp only [if_true, Bool.false_eq_true, if_false] at eq
  · exact ⟨rfl, eq⟩
  · linarith
  · linarith
  · exact ⟨rfl, neg_inj.mp eq⟩

namespace FloatDatum

/-- Two infinities of one sign, or two spellings of one rational number. -/
inductive SameNumber : FloatDatum → FloatDatum → Prop
  | infinite (negative : Bool) : SameNumber (.infinite negative) (.infinite negative)
  | finite {negative negative' : Bool} {m m' : Nat} {e e' : Int} :
      signed negative m e = signed negative' m' e' →
      SameNumber (.finite negative m e) (.finite negative' m' e')

theorem SameNumber.symm {d d' : FloatDatum} (h : d.SameNumber d') : d'.SameNumber d := by
  cases h with
  | infinite negative => exact .infinite negative
  | finite eq => exact .finite eq.symm

theorem SameNumber.trans {d d' d'' : FloatDatum} (h : d.SameNumber d') (h' : d'.SameNumber d'') :
    d.SameNumber d'' := by
  cases h with
  | infinite negative => exact h'
  | finite eq =>
      cases h' with
      | finite eq' => exact .finite (eq.trans eq')

end FloatDatum

namespace BinaryFormat

variable {f : BinaryFormat}

def Holds (f : BinaryFormat) (d : FloatDatum) : Prop :=
  ∃ x, x < 2 * f.signWeight ∧ (f.decode x).SameNumber d

/-- A pattern stands for the number that it is written for. -/
theorem sameNumber_of_pattern? {negative : Bool} {m x : Nat} {e : Int} (hf : 0 < f.infinity)
    (h : f.pattern? negative m e = some x) : (f.decode x).SameNumber (.finite negative m e) := by
  obtain ⟨m', e', normal, eq, rfl, small⟩ := pattern?_eq_some hf h
  rw [decode_withSign_packed normal negative small]
  exact .finite (by rw [signed, signed, eq])

/-- A number other than zero is written by the one pattern that stands for it. -/
theorem pattern?_eq_some_iff {negative : Bool} {m x : Nat} {e : Int} (hf : 0 < f.infinity)
    (hm : m ≠ 0) :
    f.pattern? negative m e = some x ↔
      x < 2 * f.signWeight ∧ (f.decode x).SameNumber (.finite negative m e) := by
  constructor
  · intro h
    exact ⟨pattern?_lt hf h, sameNumber_of_pattern? hf h⟩
  · rintro ⟨lt, same⟩
    generalize hd : f.decode x = d at same
    cases same with
    | finite number =>
        obtain ⟨normal, small, rfl⟩ := decode_eq_finite lt hd
        obtain ⟨rfl, eq⟩ := eq_of_signed_eq hm number.symm
        exact pattern?_of_normal normal hm eq.symm small

/-- A number is written exactly when the format has a pattern for it. -/
theorem pattern?_isSome_iff {negative : Bool} {m : Nat} {e : Int} (hf : 0 < f.infinity) :
    (f.pattern? negative m e).isSome ↔ f.Holds (.finite negative m e) := by
  rw [Option.isSome_iff_exists]
  constructor
  · rintro ⟨x, h⟩
    exact ⟨x, pattern?_lt hf h, sameNumber_of_pattern? hf h⟩
  · rintro ⟨x, lt, same⟩
    by_cases hm : m = 0
    · exact ⟨_, if_pos hm⟩
    · exact ⟨x, (pattern?_eq_some_iff hf hm).mpr ⟨lt, same⟩⟩

theorem pattern?_eq_none_iff {negative : Bool} {m : Nat} {e : Int} (hf : 0 < f.infinity) :
    f.pattern? negative m e = none ↔ ¬ f.Holds (.finite negative m e) := by
  rw [← pattern?_isSome_iff hf, Option.not_isSome_iff_eq_none]

end BinaryFormat

end SubtermIndex
