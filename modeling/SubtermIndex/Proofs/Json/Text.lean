/-
# `SubtermIndex.Proofs.Json.Text` — strings are read as they are written

Every character is written in one of three ways: as itself, as a backslash and a letter, or by its
number.  Each way is read as the bytes of that character (`Written.gives_readContent`), and by
induction a text as its own (`gives_readText`).

The reader takes bytes, and a character that is written as itself may have several of them.  All
of them stand for themselves (`isPlain_of_mem`): the bytes of a character beyond ASCII are neither
controls nor quotes nor backslashes.
-/
import SubtermIndex.Proofs.Json.Reading
import SubtermIndex.Proofs.Bytes

namespace SubtermIndex.Json

variable {rest done bytes end? : Bytes}

/-! ## The content of a string -/

def IsPlain (b : UInt8) : Prop := b ≠ byte '"' ∧ b ≠ byte '\\' ∧ 32 ≤ b

theorem gives_readContent_plain {part : Bytes} (plain : ∀ b ∈ part, IsPlain b) :
    Gives (readContent (part ++ rest) done) bytes end? ↔
      Gives (readContent rest (part.reverse ++ done)) bytes end? := by
  induction part generalizing done with
  | nil => rfl
  | cons b more ih =>
      rw [List.forall_mem_cons] at plain
      obtain ⟨noQuote, noBackslash, large⟩ := plain.1
      have small : ¬ b < 32 := UInt8.not_lt.mpr large
      rw [List.cons_append, readContent, if_neg noQuote, if_neg noBackslash, if_neg small,
        gives_widen, ih plain.2]
      simp

/-- An escape stands for the bytes that it is read as. -/
theorem gives_readContent_escape {s part : Bytes} (escape : Gives (readEscape s) part rest) :
    Gives (readContent (byte '\\' :: s) done) bytes end? ↔
      Gives (readContent rest (part.reverse ++ done)) bytes end? := by
  obtain ⟨p, found, rfl, rfl⟩ := escape
  rw [readContent, if_neg (by decide), if_pos rfl]
  simp only [found, gives_widen]

/-! ## Numbers of characters -/

theorem hexValue?_digitChar {n : Nat} (small : n < 16) :
    hexValue? (byte (Nat.digitChar n)) = some n := by
  have all : ∀ m ∈ List.range 16, hexValue? (byte (Nat.digitChar m)) = some m := by decide
  exact all n (List.mem_range.mpr small)

theorem utf8EncodeChar_digitChar {n : Nat} (small : n < 16) :
    String.utf8EncodeChar (Nat.digitChar n) = [byte (Nat.digitChar n)] := by
  have all : ∀ m ∈ List.range 16, (Nat.digitChar m).toNat < 128 := by decide
  exact Bytes.utf8EncodeChar_of_lt (all n (List.mem_range.mpr small))

theorem gives_readHex4 (rest : Bytes) {n : Nat} (small : n < 256) :
    Gives (readHex4 (byte '0' :: byte '0' :: byte (Nat.digitChar (n / 16)) ::
      byte (Nat.digitChar (n % 16)) :: rest)) n rest := by
  have zero : hexValue? (byte '0') = some 0 := rfl
  have high : hexValue? (byte (Nat.digitChar (n / 16))) = some (n / 16) :=
    hexValue?_digitChar (by omega)
  have low : hexValue? (byte (Nat.digitChar (n % 16))) = some (n % 16) :=
    hexValue?_digitChar (by omega)
  simp only [readHex4, zero, high, low, gives_ok, and_true]
  omega

/-- An ASCII character is read from its number. -/
theorem gives_readEscape_number {c : Char} (ascii : c.toNat < 128) :
    Gives (readEscape (byte 'u' :: byte '0' :: byte '0' :: byte (Nat.digitChar (c.toNat / 16)) ::
      byte (Nat.digitChar (c.toNat % 16)) :: rest)) (String.utf8EncodeChar c) rest := by
  obtain ⟨p, found, value, left⟩ := gives_readHex4 rest (Nat.lt_trans ascii (by decide))
  have noLow : isLowSurrogate p.value = false := by
    rw [value, isLowSurrogate, decide_eq_false (by omega)]
    rfl
  have noHigh : isHighSurrogate p.value = false := by
    rw [value, isHighSurrogate, decide_eq_false (by omega)]
    rfl
  have text : Bytes.ofText (Char.ofNat c.toNat).toString = String.utf8EncodeChar c := by
    rw [Char.ofNat_toNat, Bytes.ofText_toString]
  rw [readEscape, if_pos rfl, gives_map_widen, readCodePoint]
  simp only [found, noLow, noHigh, Bool.false_eq_true, if_false, gives_ok]
  exact ⟨_, ⟨value, left⟩, text⟩

/-! ## Characters -/

/-- The ways in which a character may be written. -/
inductive Written (c : Char) : Bytes → Prop
  | plain : (∀ b ∈ String.utf8EncodeChar c, IsPlain b) → Written c (String.utf8EncodeChar c)
  | letter (letter : UInt8) {b : UInt8} : letter ≠ byte 'u' → escapedByte? letter = some b →
      String.utf8EncodeChar c = [b] → Written c [byte '\\', letter]
  | number : c.toNat < 128 → Written c [byte '\\', byte 'u', byte '0', byte '0',
      byte (Nat.digitChar (c.toNat / 16)), byte (Nat.digitChar (c.toNat % 16))]

/-- A character is read as its own bytes, in whichever way it is written. -/
theorem Written.gives_readContent {c : Char} {part : Bytes} (written : Written c part) :
    Gives (readContent (part ++ rest) done) bytes end? ↔
      Gives (readContent rest ((String.utf8EncodeChar c).reverse ++ done)) bytes end? := by
  cases written with
  | plain all => exact gives_readContent_plain all
  | @letter letter b other escaped char =>
      have escape : Gives (readEscape (letter :: rest)) [b] rest := by
        rw [readEscape, if_neg other]
        simp only [escaped, gives_ok, and_self]
      rw [char]
      exact gives_readContent_escape escape
  | number ascii =>
      exact gives_readContent_escape (gives_readEscape_number ascii)

/-- A character that is no control character, no quote and no backslash is written as itself. -/
theorem isPlain_of_mem {c : Char} (noQuote : c ≠ '"') (noBackslash : c ≠ '\\')
    (large : 32 ≤ c.toNat) : ∀ b ∈ String.utf8EncodeChar c, IsPlain b := by
  intro b inside
  by_cases ascii : c.toNat < 128
  · rw [Bytes.utf8EncodeChar_of_lt ascii, List.mem_singleton] at inside
    subst inside
    have other (d : Char) (unlike : c ≠ d) (small : d.toNat < 128) :
        UInt8.ofNat c.toNat ≠ byte d := by
      intro same
      have values := congrArg UInt8.toNat same
      rw [byte, UInt8.toNat_ofNat', UInt8.toNat_ofNat'] at values
      exact unlike (Char.toNat_inj.mp (by omega))
    refine ⟨other _ noQuote (by decide), other _ noBackslash (by decide), ?_⟩
    rw [UInt8.le_iff_toNat_le, UInt8.toNat_ofNat']
    show 32 ≤ _
    omega
  · have high := Bytes.le_of_mem_utf8EncodeChar (Nat.le_of_not_lt ascii) inside
    have apart (b' : UInt8) (low : b' < 128) : b ≠ b' := by
      rintro rfl
      exact UInt8.not_lt.mpr high low
    exact ⟨apart _ (by decide), apart _ (by decide), UInt8.le_trans (by decide) high⟩

theorem written_writeChar (c : Char) : Written c (Bytes.ofText (writeChar c)) := by
  rw [writeChar]
  split_ifs with quote backslash back feed line carriage tab low control
  · exact quote ▸ .letter (byte '"') (by decide) rfl rfl
  · exact backslash ▸ .letter (byte '\\') (by decide) rfl rfl
  · exact back ▸ .letter (byte 'b') (by decide) rfl rfl
  · exact feed ▸ .letter (byte 'f') (by decide) rfl rfl
  · exact line ▸ .letter (byte 'n') (by decide) rfl rfl
  · exact carriage ▸ .letter (byte 'r') (by decide) rfl rfl
  · exact tab ▸ .letter (byte 't') (by decide) rfl rfl
  · -- One digit is written, and read behind a third zero.
    have number := Written.number (c := c) (by omega)
    rw [Nat.div_eq_of_lt low, Nat.mod_eq_of_lt low] at number
    rw [Bytes.ofText_append, Bytes.ofText_ofList (Nat.toDigits ..), Nat.toDigits_of_lt_base low,
      List.flatMap_singleton, utf8EncodeChar_digitChar low]
    exact number
  · have number := Written.number (c := c) (by omega)
    rw [Bytes.ofText_append, Bytes.ofText_ofList (Nat.toDigits ..),
      Nat.toDigits_of_base_le (by decide) (by omega),
      Nat.toDigits_of_lt_base (by omega), List.flatMap_append, List.flatMap_singleton,
      List.flatMap_singleton, utf8EncodeChar_digitChar (by omega),
      utf8EncodeChar_digitChar (by omega)]
    exact number
  · rw [Bytes.ofText_toString]
    exact .plain (isPlain_of_mem quote backslash (Nat.le_of_not_lt control))

/-! ## Texts -/

def content (s : String) : Bytes := Bytes.ofText (String.join (s.toList.map writeChar))

theorem ofText_writeText (s : String) :
    Bytes.ofText (writeText s) = byte '"' :: (content s ++ [byte '"']) := by
  rw [writeText, Bytes.ofText_append, Bytes.ofText_append]
  rfl

theorem gives_readContent_join (cs : List Char) (rest done : Bytes) :
    Gives (readContent (Bytes.ofText (String.join (cs.map writeChar)) ++ byte '"' :: rest) done)
      (done.reverse ++ cs.flatMap String.utf8EncodeChar) rest := by
  induction cs generalizing done with
  | nil =>
      show Gives (readContent (byte '"' :: rest) done) _ _
      rw [readContent, if_pos rfl, List.flatMap_nil, List.append_nil]
      exact gives_ok.mpr ⟨rfl, rfl⟩
  | cons c more ih =>
      rw [List.map_cons, String.join_cons, Bytes.ofText_append, List.append_assoc,
        (written_writeChar c).gives_readContent]
      have others := ih ((String.utf8EncodeChar c).reverse ++ done)
      rw [List.reverse_append, List.reverse_reverse, List.append_assoc] at others
      exact others

/-- A text is read from the string that it is written as. -/
theorem gives_readText {s : String} :
    Gives (readText (content s ++ byte '"' :: rest)) s rest := by
  obtain ⟨p, found, value, left⟩ := gives_readContent_join s.toList rest []
  have bytes : p.value = Bytes.ofText s := by
    rw [value, Bytes.ofText_eq_flatMap]
    rfl
  rw [readText]
  simp only [content, found, bytes, Bytes.fromUTF8?_ofText, gives_ok]
  exact ⟨rfl, left⟩

end SubtermIndex.Json
