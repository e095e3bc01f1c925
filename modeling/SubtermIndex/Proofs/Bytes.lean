/-
# `SubtermIndex.Proofs.Bytes` — the bytes of a text

A text is its characters one after the other.  A character below 128 is a single byte, and all
bytes of any other one are 128 or greater, so that whoever looks for certain ASCII characters may
as well look for their bytes.

The readers of JSON look for bytes.  What is read back from a text is said in terms of its
characters, and this is where the two meet.
-/
import SubtermIndex.Bytes

namespace SubtermIndex.Bytes

/-- The bytes of a text are those of its characters. -/
theorem ofText_eq_flatMap (s : String) : ofText s = s.toList.flatMap String.utf8EncodeChar := by
  rw [ofText, String.toUTF8_eq_toByteArray, ← String.utf8Encode_toList, List.utf8Encode,
    List.toList_data_toByteArray]

@[simp] theorem ofText_ofList (cs : List Char) :
    ofText (String.ofList cs) = cs.flatMap String.utf8EncodeChar := by
  rw [ofText_eq_flatMap, String.toList_ofList]

@[simp] theorem ofText_append (s t : String) : ofText (s ++ t) = ofText s ++ ofText t := by
  simp [ofText_eq_flatMap]

@[simp] theorem ofText_toString (c : Char) : ofText c.toString = String.utf8EncodeChar c := by
  rw [Char.toString_eq_singleton, ofText_eq_flatMap, String.toList_singleton,
    List.flatMap_singleton]

theorem ofText_inj {s t : String} (h : ofText s = ofText t) : s = t := by
  have same : s.toUTF8 = t.toUTF8 := by
    apply ByteArray.ext
    exact Array.toList_inj.mp h
  exact String.toByteArray_inj.mp same

theorem fromUTF8?_ofText (s : String) :
    String.fromUTF8? (ByteArray.mk (ofText s).toArray) = some s := by
  have bytes : ByteArray.mk (ofText s).toArray = s.toByteArray := rfl
  rw [bytes, String.fromUTF8?, dif_pos s.isValidUTF8]
  rfl

/-! ## Single characters -/

variable {c : Char}

theorem utf8EncodeChar_of_lt (ascii : c.toNat < 128) :
    String.utf8EncodeChar c = [UInt8.ofNat c.toNat] := by
  have size : c.utf8Size = 1 :=
    Char.utf8Size_eq_one_iff.mpr (UInt32.le_iff_toNat_le.mpr (Nat.le_of_lt_succ ascii))
  rw [String.utf8EncodeChar_eq_singleton size]
  rfl

theorem le_or_of_le {b mark : UInt8} (high : 128 ≤ mark) : 128 ≤ b ||| mark := by
  rw [UInt8.le_iff_toNat_le, UInt8.toNat_or]
  exact Nat.le_trans (UInt8.le_iff_toNat_le.mp high) Nat.right_le_or

theorem le_of_mem_utf8EncodeChar (large : 128 ≤ c.toNat) {b : UInt8}
    (inside : b ∈ String.utf8EncodeChar c) : 128 ≤ b := by
  have size : c.utf8Size ≠ 1 := by
    intro one
    have small := UInt32.le_iff_toNat_le.mp (Char.utf8Size_eq_one_iff.mp one)
    exact Nat.not_le_of_lt (Nat.lt_succ_of_le small) large
  rcases c.utf8Size_eq with one | two | three | four
  · exact absurd one size
  · simp only [String.utf8EncodeChar_eq_cons_cons two, List.mem_cons, List.not_mem_nil,
      or_false] at inside
    rcases inside with rfl | rfl <;> exact le_or_of_le (by decide)
  · simp only [String.utf8EncodeChar_eq_cons_cons_cons three, List.mem_cons, List.not_mem_nil,
      or_false] at inside
    rcases inside with rfl | rfl | rfl <;> exact le_or_of_le (by decide)
  · simp only [String.utf8EncodeChar_eq_cons_cons_cons_cons four, List.mem_cons, List.not_mem_nil,
      or_false] at inside
    rcases inside with rfl | rfl | rfl | rfl <;> exact le_or_of_le (by decide)

/-- A text of ASCII characters has one byte for each. -/
theorem flatMap_utf8EncodeChar_of_lt {cs : List Char} (ascii : ∀ c ∈ cs, c.toNat < 128) :
    cs.flatMap String.utf8EncodeChar = cs.map fun c => UInt8.ofNat c.toNat := by
  induction cs with
  | nil => rfl
  | cons c rest ih =>
      rw [List.forall_mem_cons] at ascii
      rw [List.flatMap_cons, utf8EncodeChar_of_lt ascii.1, ih ascii.2]
      rfl

end SubtermIndex.Bytes
