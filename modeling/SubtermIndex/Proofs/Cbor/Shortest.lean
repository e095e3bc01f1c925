/-
# `SubtermIndex.Proofs.Cbor.Shortest` — numbers are exact and as short as they can be

A head has five forms, and an argument that fits one of them fits every longer one.  A reader of
all five (`readHead?`) finds the argument that was written, and finds it behind no shorter head
(`readHead?_eq_some`): hence an integer is written by the shortest head that is read as that
integer.

A double is written as the integer that it is.  Any other is written in one of three widths, as a
pattern of the same number, and no narrower width has such a pattern (`encode_number`).

The reader is there for the statement only.  That a form is the shortest cannot be said without
saying what the longer ones mean, and the program never writes those.
-/
import SubtermIndex.Proofs.Cbor.Narrowing

namespace SubtermIndex

/-! ## Big-endian numbers -/

theorem Bytes.littleEndian_littleEndianValue (bs : Bytes) :
    littleEndian bs.length (littleEndianValue bs) = bs := by
  induction bs with
  | nil => rfl
  | cons b rest ih =>
      have := b.toNat_lt
      have low : UInt8.ofNat (b.toNat + 256 * littleEndianValue rest) = b := by
        apply UInt8.toNat_inj.mp
        rw [UInt8.toNat_ofNat']
        omega
      have high : (b.toNat + 256 * littleEndianValue rest) / 256 = littleEndianValue rest := by
        omega
      rw [List.length_cons, littleEndianValue, littleEndian, low, high, ih]

theorem Bytes.bigEndian_bigEndianValue (bs : Bytes) :
    bigEndian bs.length (bigEndianValue bs) = bs := by
  have := littleEndian_littleEndianValue bs.reverse
  rw [List.length_reverse] at this
  rw [bigEndian, bigEndianValue, this, List.reverse_reverse]

theorem Bytes.bigEndianValue_lt (bs : Bytes) : bigEndianValue bs < 256 ^ bs.length := by
  have := bigEndianValue_bigEndian bs.length (bigEndianValue bs)
  rw [bigEndian_bigEndianValue] at this
  rw [this]
  exact Nat.mod_lt _ (by positivity)

namespace Cbor

/-! ## Reading heads -/

/-- How many bytes the argument of a head takes if it is not in the low five bits themselves. -/
def argumentWidth? (low : Nat) : Option Nat :=
  if low = 24 then some 1
  else if low = 25 then some 2
  else if low = 26 then some 4
  else if low = 27 then some 8
  else none

def readHead? : Bytes → Option ((Nat × Nat) × Bytes)
  | [] => none
  | first :: rest =>
      let code := first.toNat / 32
      let low := first.toNat % 32
      if low < 24 then some ((code, low), rest)
      else
        match argumentWidth? low with
        | none => none
        | some width =>
            if rest.length < width then none
            else some ((code, Bytes.bigEndianValue (rest.take width)), rest.drop width)

def readInteger? (bs : Bytes) : Option (Int × Bytes) :=
  match readHead? bs with
  | some ((0, n), rest) => some (n, rest)
  | some ((1, n), rest) => some (-1 - n, rest)
  | _ => none

theorem argumentWidth?_headLow {n : Nat} (hn : 24 ≤ n) :
    argumentWidth? (headLow n) = some (headWidth n) := by
  have small : ¬ n < 24 := by omega
  rw [headLow, headWidth, if_neg small, if_neg small]
  split_ifs <;> rfl

/-- What is read is what was written: no argument is cut off. -/
theorem readHead?_head (major : Major) {n : Nat} (hn : n < 2 ^ 64) (rest : Bytes) :
    readHead? (head major n ++ rest) = some ((major.code, n), rest) := by
  have low := headLow_lt n
  have hcode : (major.code * 32 + headLow n) / 32 = major.code := by omega
  have hlow : (major.code * 32 + headLow n) % 32 = headLow n := by omega
  rw [head_eq, List.cons_append, readHead?, toNat_first, hcode, hlow]
  rcases lt_or_ge n 24 with small | large
  · have immediate : headLow n = n := if_pos small
    have nothing : headWidth n = 0 := if_pos small
    rw [immediate, nothing, if_pos small]
    rfl
  · have spelled : ¬ headLow n < 24 := by
      rw [headLow]
      split_ifs <;> omega
    have value : Bytes.bigEndianValue (Bytes.bigEndian (headWidth n) n) = n := by
      rw [Bytes.bigEndianValue_bigEndian, Nat.mod_eq_of_lt (lt_of_headWidth hn large)]
    rw [if_neg spelled, argumentWidth?_headLow large]
    dsimp only
    rw [if_neg (by simp), List.take_left' (by simp), List.drop_left' (by simp), value]

/-- An argument has no shorter form than its own, and only one form as short as that. -/
theorem headWidth_le {low width n : Nat} (hw : argumentWidth? low = some width)
    (hn : n < 256 ^ width) : headWidth n ≤ width ∧ (headWidth n = width → headLow n = low) := by
  rw [argumentWidth?] at hw
  rw [headWidth, headLow]
  split_ifs at hw
  all_goals
    obtain rfl := Option.some.inj hw
    subst low
    refine ⟨by split_ifs <;> omega, ?_⟩
    intro same
    split_ifs at same ⊢ <;> omega

/-- A byte string that is read as a head is the shortest such, or a longer one. -/
theorem readHead?_eq_some {major : Major} {n : Nat} {y : Bytes}
    (h : readHead? y = some ((major.code, n), [])) :
    y = head major n ∨ (head major n).length < y.length := by
  cases y with
  | nil => cases h
  | cons first rest =>
      have whole : UInt8.ofNat (first.toNat / 32 * 32 + first.toNat % 32) = first := by
        rw [Nat.div_add_mod', UInt8.ofNat_toNat]
      rw [readHead?] at h
      generalize first.toNat % 32 = low at *
      split at h
      case isTrue small =>
        -- the argument stands in the first byte, and there is no other form as short
        obtain ⟨⟨hcode, rfl⟩, rfl⟩ := by simpa only [Option.some.injEq, Prod.mk.injEq] using h
        have immediate : headLow low = low := if_pos small
        have nothing : headWidth low = 0 := if_pos small
        left
        rw [head_eq, immediate, nothing, ← hcode, whole]
        rfl
      case isFalse =>
        split at h
        case h_1 => cases h
        case h_2 width hw =>
          split at h
          case isTrue => cases h
          case isFalse enough =>
            obtain ⟨⟨hcode, value⟩, nothing⟩ := by
              simpa only [Option.some.injEq, Prod.mk.injEq] using h
            have length : rest.length = width := by
              have := List.drop_eq_nil_iff.mp nothing
              omega
            rw [List.take_of_length_le length.le] at value
            have bound : n < 256 ^ width := by
              rw [← length, ← value]
              exact Bytes.bigEndianValue_lt rest
            obtain ⟨le, same⟩ := headWidth_le hw bound
            -- the form that was read is longer than the proper one, or is the proper one
            rcases le.lt_or_eq with less | eq
            · right
              rw [head_eq]
              simp [length, less]
            · left
              rw [head_eq, eq, same eq, ← hcode, whole, ← value, ← length,
                Bytes.bigEndian_bigEndianValue]

/-! ## Integers -/

theorem readInteger?_encodeInteger (n : Integer) (rest : Bytes) :
    readInteger? (encodeInteger n ++ rest) = some (n.val, rest) := by
  have lower := n.lower
  have upper := n.upper
  rw [encodeInteger]
  split
  case isTrue nonneg =>
    have value : (n.val.toNat : Int) = n.val := Int.toNat_of_nonneg nonneg
    rw [readInteger?, readHead?_head .unsigned (by omega)]
    exact congrArg (fun k : Int => some (k, rest)) value
  case isFalse neg =>
    have value : -1 - ((-1 - n.val).toNat : Int) = n.val := by omega
    rw [readInteger?, readHead?_head .negative (by omega)]
    exact congrArg (fun k : Int => some (k, rest)) value

theorem readInteger?_eq_some {n : Integer} {y : Bytes} (h : readInteger? y = some (n.val, [])) :
    y = encodeInteger n ∨ (encodeInteger n).length < y.length := by
  rw [readInteger?] at h
  split at h
  case h_1 k rest hk =>
    obtain ⟨value, rfl⟩ := by simpa only [Option.some.injEq, Prod.mk.injEq] using h
    have written : encodeInteger n = head .unsigned k := by
      rw [encodeInteger, ← value, if_pos (by omega), Int.toNat_natCast]
    rw [written]
    exact readHead?_eq_some hk
  case h_2 k rest hk =>
    obtain ⟨value, rfl⟩ := by simpa only [Option.some.injEq, Prod.mk.injEq] using h
    have written : encodeInteger n = head .negative k := by
      rw [encodeInteger, ← value, if_neg (by omega)]
      congr 1
      omega
    rw [written]
    exact readHead?_eq_some hk
  case h_3 => cases h

/-- What an integer is written as: a head that is read as this integer, and the shortest one. -/
structure WritesInteger (n : Integer) (x : Bytes) : Prop where
  read (rest : Bytes) : readInteger? (x ++ rest) = some (n.val, rest)
  shortest (y : Bytes) : readInteger? y = some (n.val, []) → y = x ∨ x.length < y.length

theorem writesInteger (n : Integer) : WritesInteger n (encodeInteger n) where
  read := readInteger?_encodeInteger n
  shortest _ := readInteger?_eq_some

/-! ## Floats -/

inductive Width where
  | half | single | double

namespace Width

def format : Width → BinaryFormat
  | half => .half
  | single => .single
  | double => .double

def size : Width → Nat
  | half => 2
  | single => 4
  | double => 8

def first : Width → UInt8
  | half => 0xf9
  | single => 0xfa
  | double => 0xfb

def write (w : Width) (pattern : Nat) : Bytes := w.first :: Bytes.bigEndian w.size pattern

theorem pow_size (w : Width) : 256 ^ w.size = 2 * w.format.signWeight := by
  cases w <;> decide

end Width

/-- What a double is written as: all NaNs as one pattern, a number that is an integer of the
format as that integer, and any other in the narrowest width that holds it. -/
structure WritesFloat (bits : UInt64) (x : Bytes) : Prop where
  nan : BinaryFormat.double.decode bits.toNat = .nan → x = [0xf9, 0x7e, 0x00]
  integer (n : Integer) : IsInteger bits n → x = encodeInteger n
  other : BinaryFormat.double.decode bits.toNat ≠ .nan → (∀ n, ¬ IsInteger bits n) →
    ∃ (w : Width) (pattern : Nat), x = w.write pattern ∧ pattern < 256 ^ w.size ∧
      (w.format.decode pattern).SameNumber (BinaryFormat.double.decode bits.toNat) ∧
      ∀ narrower : Width, narrower.size < w.size →
        ¬ narrower.format.Holds (BinaryFormat.double.decode bits.toNat)

/-- The widths are tried from the narrowest on. -/
theorem exists_width {bits : UInt64} {negative : Bool} {m : Nat} {e : Int}
    (hd : BinaryFormat.double.decode bits.toNat = .finite negative m e) :
    ∃ (w : Width) (pattern : Nat), encodeFraction bits negative m e = w.write pattern ∧
      pattern < 256 ^ w.size ∧ (w.format.decode pattern).SameNumber (.finite negative m e) ∧
      ∀ narrower : Width, narrower.size < w.size →
        ¬ narrower.format.Holds (.finite negative m e) := by
  rw [encodeFraction]
  cases half : BinaryFormat.half.pattern? negative m e with
  | some p =>
      refine ⟨.half, p, rfl, BinaryFormat.pattern?_lt half_infinity_pos half,
        BinaryFormat.sameNumber_of_pattern? half_infinity_pos half, ?_⟩
      intro narrower less
      cases narrower <;> exact absurd less (by decide)
  | none =>
      have notHalf := (BinaryFormat.pattern?_eq_none_iff half_infinity_pos).mp half
      cases single : BinaryFormat.single.pattern? negative m e with
      | some p =>
          refine ⟨.single, p, rfl, BinaryFormat.pattern?_lt single_infinity_pos single,
            BinaryFormat.sameNumber_of_pattern? single_infinity_pos single, ?_⟩
          intro narrower less
          cases narrower with
          | half => exact notHalf
          | single => exact absurd less (by decide)
          | double => exact absurd less (by decide)
      | none =>
          have notSingle := (BinaryFormat.pattern?_eq_none_iff single_infinity_pos).mp single
          refine ⟨.double, bits.toNat, rfl, bits.toNat_lt, ?_, ?_⟩
          · exact hd ▸ .finite rfl
          · intro narrower less
            cases narrower with
            | half => exact notHalf
            | single => exact notSingle
            | double => exact absurd less (by decide)

theorem writesFloat (bits : UInt64) : WritesFloat bits (encodeFloat bits) where
  nan hd := by
    have quiet : (0xf9 :: Bytes.bigEndian 2 quietNaN : Bytes) = [0xf9, 0x7e, 0x00] := by decide
    rw [encodeFloat, hd]
    exact quiet
  integer _ := encodeFloat_of_isInteger
  other number fractional := by
    rw [encodeFloat]
    cases hd : BinaryFormat.double.decode bits.toNat with
    | nan => exact absurd hd number
    | infinite negative =>
        refine ⟨.half, _, rfl, ?_, ?_, ?_⟩
        · rw [Width.pow_size]
          exact BinaryFormat.withSign_lt (by decide)
        · exact BinaryFormat.decode_infinity .half negative ▸ .infinite negative
        · intro narrower less
          cases narrower <;> exact absurd less (by decide)
    | finite negative m e =>
        dsimp only
        cases hi : (integer? negative m e).bind Integer.ofInt? with
        | none => exact exists_width hd
        | some n => exact absurd ((isInteger_iff hd).mpr hi) (fractional n)

/-! ## The main statement -/

/-- Whatever conversions a double is narrowed by, as long as they change nothing that they can
keep: a double is written as its number, and an integer as itself, in the fewest bytes that the
format has for it. -/
theorem encode_number {c : Conversions} (exact : c.Exact) :
    (∀ bits, encode (.float bits) = .ok (c.encodeFloat bits) ∧
      WritesFloat bits (c.encodeFloat bits)) ∧
      ∀ n : Integer, encode (.int n) = .ok (encodeInteger n) ∧
        WritesInteger n (encodeInteger n) := by
  refine ⟨?_, ?_⟩
  · intro bits
    rw [Conversions.encodeFloat_eq exact]
    exact ⟨rfl, writesFloat bits⟩
  · intro n
    exact ⟨rfl, writesInteger n⟩

/-- `1.5` takes the half width, `-1.0` is the integer, and `-2 ^ 64` is the last integer with a
head. -/
theorem encode_number_nearest :
    Conversions.nearest.Exact ∧ WritesFloat 0x3ff8000000000000 [0xf9, 0x3e, 0x00] ∧
      WritesFloat 0xbff0000000000000 [0x20] ∧
      WritesInteger ⟨-0x10000000000000000, by decide, by decide⟩
        [0x3b, 0xff, 0xff, 0xff, 0xff, 0xff, 0xff, 0xff, 0xff] := by
  obtain ⟨floats, integers⟩ := encode_number Conversions.nearest_exact
  have fraction : Conversions.nearest.encodeFloat 0x3ff8000000000000 = [0xf9, 0x3e, 0x00] := by
    decide +kernel
  have whole : Conversions.nearest.encodeFloat 0xbff0000000000000 = [0x20] := by
    decide +kernel
  exact ⟨Conversions.nearest_exact, fraction ▸ (floats _).2, whole ▸ (floats _).2, (integers _).2⟩

end Cbor

end SubtermIndex
