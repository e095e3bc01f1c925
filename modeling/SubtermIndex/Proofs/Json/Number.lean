/-
# `SubtermIndex.Proofs.Json.Number` — natural numbers are read as they are written

The digits of a number below 2 ^ 64 are taken in one by one, and none of them is too much
(`ofIntegral_decimal`).  What they amount to is never too large for a double
(`isTooLarge_eq_false`).  So the number is read for what it is, if a byte follows that cannot
belong to it (`gives_readNumber`).

What is said about numbers goes no further than what settings write.  How signs, fractions and
exponents are read is left to the reader.
-/
import SubtermIndex.Proofs.Json.Value
import SubtermIndex.Proofs.Bytes

namespace SubtermIndex.Json

/-! ## Digits -/

def decimal (n : Nat) : Bytes := (Nat.toDigits 10 n).map byte

section

variable {m n k : Nat}

theorem decimal_of_lt (small : n < 10) : decimal n = [byte (Nat.digitChar n)] := by
  rw [decimal, Nat.toDigits_of_lt_base small]
  rfl

theorem decimal_append (positive : 0 < m) (small : k < 10) :
    decimal (10 * m + k) = decimal m ++ [byte (Nat.digitChar k)] := by
  rw [decimal, ← Nat.toDigits_append_toDigits (by decide) positive small, List.map_append,
    Nat.toDigits_of_lt_base small]
  rfl

theorem digit_digitChar (small : k < 10) :
    isDigit (byte (Nat.digitChar k)) = true ∧ digitValue (byte (Nat.digitChar k)) = k ∧
      (byte (Nat.digitChar k) = byte '0' → k = 0) := by
  have all : ∀ k ∈ List.range 10, isDigit (byte (Nat.digitChar k)) = true ∧
      digitValue (byte (Nat.digitChar k)) = k ∧ (byte (Nat.digitChar k) = byte '0' → k = 0) := by
    decide
  exact all k (List.mem_range.mpr small)

theorem ofText_toString (n : Nat) : Bytes.ofText (toString n) = decimal n := by
  rw [Nat.toString_eq_ofList_toDigits, Bytes.ofText_ofList, Bytes.flatMap_utf8EncodeChar_of_lt]
  · rfl
  · intro c inside
    have digit := Nat.isDigit_of_mem_toDigits (by decide) (by decide) inside
    have bounds : 48 ≤ c.val ∧ c.val ≤ 57 := by simpa [Char.isDigit] using digit
    exact Nat.lt_of_le_of_lt (UInt32.le_iff_toNat_le.mp bounds.2) (by decide)

theorem isDigit_of_mem_decimal {b : UInt8} (inside : b ∈ decimal n) : isDigit b = true := by
  induction n using Nat.base_induction 10 (by decide) with
  | single n small =>
      rw [decimal_of_lt small, List.mem_singleton] at inside
      exact inside ▸ (digit_digitChar small).1
  | digit m k small positive ih =>
      rw [decimal_append positive small, List.mem_append, List.mem_singleton] at inside
      rcases inside with inside | rfl
      · exact ih inside
      · exact (digit_digitChar small).1

theorem isBlank_of_isDigit {b : UInt8} (digit : isDigit b = true) : isBlank b = false := by
  have apart (c : Char) (other : isDigit (byte c) = false) : (b == byte c) = false := by
    rw [beq_eq_false_iff_ne]
    rintro rfl
    simp [other] at digit
  rw [isBlank, apart ' ' rfl, apart '\t' rfl, apart '\n' rfl, apart '\r' rfl]
  rfl

/-- A number begins with a digit, and with a zero only if it is zero. -/
theorem exists_decimal_eq_cons (n : Nat) :
    ∃ b ds, decimal n = b :: ds ∧ isDigit b = true ∧ (b = byte '0' → n = 0) := by
  induction n using Nat.base_induction 10 (by decide) with
  | single n small =>
      obtain ⟨digit, -, zero⟩ := digit_digitChar small
      exact ⟨_, [], decimal_of_lt small, digit, zero⟩
  | digit m k small positive ih =>
      obtain ⟨b, ds, begins, digit, zero⟩ := ih
      refine ⟨b, ds ++ [byte (Nat.digitChar k)], ?_, digit, fun first => ?_⟩
      · rw [decimal_append positive small, begins]
        rfl
      · exact absurd (zero first) (Nat.ne_of_gt positive)

/-- The digits of a number that fits are taken in completely. -/
theorem ofIntegral_decimal (fits : n ≤ maxSignificand) :
    Digits.ofIntegral (decimal n) = ⟨n, 0, true⟩ := by
  induction n using Nat.base_induction 10 (by decide) with
  | single n small =>
      have value := (digit_digitChar small).2.1
      rw [decimal_of_lt small, Digits.ofIntegral, List.foldl_cons, List.foldl_nil]
      simp [value, fits]
  | digit m k small positive ih =>
      have value := (digit_digitChar small).2.1
      have before := ih (by omega)
      rw [Digits.ofIntegral] at before ⊢
      rw [decimal_append positive small, List.foldl_append, before, List.foldl_cons, List.foldl_nil]
      simp [value, fits, Nat.mul_comm m 10]

end

/-! ## Numbers -/

theorem roundToDouble_le {n : Nat} (positive : 0 < n) : roundToDouble n ≤ 2 * n := by
  rw [roundToDouble]
  generalize rounded : 1 <<< (n.log2 - 52) = unit
  have small : unit ≤ n := by
    rw [← rounded, Nat.one_shiftLeft]
    exact Nat.le_trans (Nat.pow_le_pow_right (by decide) (Nat.sub_le ..))
      (Nat.log2_self_le (Nat.ne_of_gt positive))
  have low : n / unit * unit ≤ n := Nat.div_mul_le_self ..
  split
  · rw [Nat.succ_mul]
    omega
  · omega

/-- A number that fits into 64 bits is not too large for a double. -/
theorem isTooLarge_eq_false {n : Nat} (fits : n ≤ maxSignificand) : isTooLarge n 0 = false := by
  have one : roundToDouble (Nat.pow 10 (0 : Int).toNat) = 1 := by decide
  have large : 2 * maxSignificand < overflowBound := by decide +kernel
  rw [isTooLarge, one]
  rcases Nat.eq_zero_or_pos n with rfl | positive
  · rfl
  · have bound := roundToDouble_le positive
    have below : roundToDouble n < overflowBound := by omega
    simp [below]

def endsNumber (b : UInt8) : Bool :=
  !isDigit b && b != byte '.' && b != byte 'e' && b != byte 'E'

/-- Behind a mark nothing is read if there is none. -/
theorem readAfter_of_not {α β : Type} {s : Bytes} {isMark : UInt8 → Bool} {reader : Reader β}
    {add : α → β → α} {p : Parsed α s} {b : UInt8} {rest : Bytes} (left : p.rest = b :: rest)
    (other : isMark b = false) : readAfter isMark reader add p = .ok p := by
  rw [readAfter]
  split
  case h_1 => rfl
  case h_2 b' rest' left' =>
    obtain ⟨rfl, -⟩ := List.cons.inj (left.symm.trans left')
    simp [other]

theorem gives_readDigits {ds : Bytes} {b : UInt8} (rest : Bytes) (some : ds ≠ [])
    (digits : ∀ d ∈ ds, isDigit d = true) (ends : isDigit b = false) :
    Gives (readDigits (ds ++ b :: rest)) ds (b :: rest) := by
  cases ds with
  | nil => exact absurd rfl some
  | cons d more =>
      rw [List.forall_mem_cons] at digits
      rw [List.cons_append, readDigits, if_pos digits.1, gives_ok]
      simp [List.takeWhile_append_of_pos digits.2, List.dropWhile_append_of_pos digits.2, ends]

theorem gives_readIntegral {n : Nat} {b : UInt8} (rest : Bytes) (fits : n ≤ maxSignificand)
    (ends : isDigit b = false) :
    Gives (readIntegral (decimal n ++ b :: rest)) ⟨n, 0, true⟩ (b :: rest) := by
  obtain ⟨d, ds, begins, -, zero⟩ := exists_decimal_eq_cons n
  obtain ⟨p, found, value, left⟩ := gives_readDigits rest
    (by simp [begins] : decimal n ≠ []) (fun _ => isDigit_of_mem_decimal) ends
  have noLeadingZero : ¬ (p.value.head? = some (byte '0') && 1 < p.value.length) = true := by
    rw [value, begins]
    intro leads
    simp only [List.head?_cons, Option.some.injEq, Bool.and_eq_true, decide_eq_true_eq] at leads
    obtain ⟨first, long⟩ := leads
    rw [zero first, decimal_of_lt (by decide)] at begins
    simp [← begins] at long
  rw [readIntegral]
  simp only [found, noLeadingZero]
  exact gives_ok.mpr ⟨by rw [Parsed.value_map, value, ofIntegral_decimal fits], left⟩

/-- A natural number is read for what it is. -/
theorem gives_readNumber {n : UInt64} {b : UInt8} {rest : Bytes} (ends : endsNumber b = true) :
    Gives (readNumber (decimal n.toNat ++ b :: rest)) (.natural n) (b :: rest) := by
  have fits : n.toNat ≤ maxSignificand := Nat.le_of_lt_succ n.toNat_lt
  obtain ⟨d, ds, begins, digit, -⟩ := exists_decimal_eq_cons n.toNat
  have noSign : d ≠ byte '-' := by
    rintro rfl
    exact absurd digit (by decide)
  simp only [endsNumber, Bool.and_eq_true, Bool.not_eq_true', bne_iff_ne] at ends
  obtain ⟨⟨⟨noDigit, noPoint⟩, noLittle⟩, noLarge⟩ := ends
  obtain ⟨p, found, value, left⟩ := gives_readIntegral rest fits noDigit
  have unsigned : readNumber (decimal n.toNat ++ b :: rest) =
      readUnsigned (decimal n.toNat ++ b :: rest) := by
    rw [begins, List.cons_append, readNumber, if_neg noSign]
  have noExponent : (b == byte 'e' || b == byte 'E') = false := by simp [noLittle, noLarge]
  rw [unsigned, readUnsigned, found]
  dsimp only
  rw [readAfter_of_not left (by simp [noPoint])]
  dsimp only
  rw [readAfter_of_not left noExponent]
  dsimp only
  rw [if_neg (by simp [value, isTooLarge_eq_false fits]), gives_ok]
  exact ⟨by simp [value, Digits.toNumber], left⟩

end SubtermIndex.Json
