/-
# `SubtermIndex.Proofs.Settings.Validity` — which settings can be used, and that they can be kept

Settings are valid if the field has a name, a tree may have children, and the key, if there is
one, is 64 hexadecimal digits (`validate_eq_ok_iff`).  Such settings have an indexer
(`indexer_eq_ok_iff`), and written settings that are read again are the same ones or are refused
for the same reason (`survives_writing`).

A key is kept as the text that was given, and two texts may be the same key.  So settings that
differ in the case of a letter are different settings with one indexer.
-/
import SubtermIndex.Proofs.Settings.Writing
import SubtermIndex.Proofs.Hex

namespace SubtermIndex

/-! ## Keys -/

/-- Whether a text is a key: 64 hexadecimal digits, of either case. -/
def IsKey (text : String) : Prop := text.length = 64 ∧ ∀ c ∈ text.toList, Hex.IsDigit c

theorem ofBytes?_eq_some_iff {bytes : Bytes} {d : Digest} :
    Digest.ofBytes? bytes = some d ↔ bytes = d.bytes := by
  rw [Digest.ofBytes?]
  constructor
  · intro made
    split at made
    · obtain rfl := Option.some.inj made
      rfl
    · simp at made
  · rintro rfl
    rw [dif_pos d.length_bytes]

/-- A key is read if its digits write its bytes. -/
theorem readKey_eq_ok_iff {text : String} {key : Digest} :
    readKey text = .ok key ↔ Hex.decode (Bytes.ofText text) = .ok key.bytes := by
  rw [readKey]
  cases Hex.decode (Bytes.ofText text) with
  | error fault => simp
  | ok bytes =>
      rw [Except.ok.injEq, ← ofBytes?_eq_some_iff]
      cases made : Digest.ofBytes? bytes <;> simp [made]

theorem exists_readKey_iff {text : String} : (∃ key, readKey text = .ok key) ↔ IsKey text := by
  rw [IsKey, ← Hex.exists_decode_ofText_iff (n := 32)]
  simp only [readKey_eq_ok_iff]
  constructor
  · rintro ⟨key, decoded⟩
    exact ⟨_, decoded, key.length_bytes⟩
  · rintro ⟨bytes, decoded, length⟩
    exact ⟨⟨bytes, length⟩, decoded⟩

/-- Two texts are the same key if they differ in the case of letters at most. -/
theorem readKey_iff_toLower_eq {text text' : String} {key : Digest}
    (read : readKey text = .ok key) : readKey text' = .ok key ↔ text'.toLower = text.toLower := by
  rw [readKey_eq_ok_iff] at read ⊢
  exact Hex.decode_ofText_iff_of_decode read

theorem DigestChoice.exists_hasher_iff {choice : DigestChoice} :
    (∃ hasher, choice.hasher = .ok hasher) ↔ ∀ text, choice = .keyed text → IsKey text := by
  cases choice with
  | plain => exact ⟨fun _ => nofun, fun _ => ⟨_, rfl⟩⟩
  | keyed text =>
      simp only [DigestChoice.keyed.injEq, forall_eq', hasher, ← exists_readKey_iff]
      cases readKey text <;> simp [Except.map]

namespace Settings

variable {c : Settings}

/-! ## Checking settings -/

theorem validate_eq_ok_iff :
    c.validate = .ok () ↔ c.childrenField ≠ "" ∧ c.maxDepth ≠ 0 ∧
      ∀ text, c.digest = .keyed text → IsKey text := by
  rw [← DigestChoice.exists_hasher_iff, validate]
  by_cases named : c.childrenField = ""
  · simp [named]
  · rw [if_neg (by simpa using named)]
    by_cases deep : c.maxDepth = 0
    · simp [deep]
    · rw [if_neg deep]
      cases c.digest.hasher <;> simp [named, deep, SettingsError.ofKey, Except.map]

def indexerWith (c : Settings) (hasher : Hasher) : Indexer Cbor.Value where
  reader := NodeReader.ofField c.childrenField
  hasher := hasher
  maxDepth := c.maxDepth.toNat
  splitDepth := c.splitDepth.toNat

theorem indexer_of_error {e : SettingsError} (invalid : c.validate = .error e) :
    c.indexer = .error e := by
  rw [indexer, invalid]
  rfl

theorem exists_indexer_of_valid (valid : c.validate = .ok ()) :
    ∃ hasher, c.digest.hasher = .ok hasher ∧ c.indexer = .ok (c.indexerWith hasher) := by
  obtain ⟨hasher, known⟩ :=
    DigestChoice.exists_hasher_iff.mpr (validate_eq_ok_iff.mp valid).2.2
  refine ⟨hasher, known, ?_⟩
  rw [indexer, valid, known]
  rfl

theorem indexer_eq_error_iff {e : SettingsError} :
    c.indexer = .error e ↔ c.validate = .error e := by
  refine ⟨fun failed => ?_, indexer_of_error⟩
  cases valid : c.validate with
  | error e' => exact congrArg _ (Except.error.inj ((indexer_of_error valid).symm.trans failed))
  | ok =>
      obtain ⟨hasher, -, made⟩ := exists_indexer_of_valid valid
      simp [made] at failed

/-- Valid settings have an indexer, which is made of what they hold. -/
theorem indexer_eq_ok_iff {ix : Indexer Cbor.Value} :
    c.indexer = .ok ix ↔ c.validate = .ok () ∧
      ∃ hasher, c.digest.hasher = .ok hasher ∧ c.indexerWith hasher = ix := by
  constructor
  · intro made
    cases valid : c.validate with
    | error e => simp [indexer_of_error valid] at made
    | ok =>
        obtain ⟨hasher, known, made'⟩ := exists_indexer_of_valid valid
        exact ⟨rfl, hasher, known, Except.ok.inj (made'.symm.trans made)⟩
  · rintro ⟨valid, hasher, known, rfl⟩
    obtain ⟨hasher', known', made⟩ := exists_indexer_of_valid valid
    obtain rfl := Except.ok.inj (known.symm.trans known')
    exact made

/-- Settings survive being written and read.  What is read is `c` if this is valid, or else what is
wrong with it.  It is valid if the field is not empty, the depth is not 0 and the key, if there is
one, is 64 hexadecimal digits; and exactly then there is an indexer, with the field, the digest and
the limits of `c`.  The key of other settings has the same bytes if it differs in the case of its
letters at most. -/
theorem survives_writing (c : Settings) :
    read (Bytes.ofText (write c)) = (c.validate.map fun _ => c) ∧
    (c.validate = .ok () ↔ c.childrenField ≠ "" ∧ c.maxDepth ≠ 0 ∧
      ∀ text, c.digest = .keyed text → IsKey text) ∧
    (∀ ix, c.indexer = .ok ix ↔ c.validate = .ok () ∧
      ∃ hasher, c.digest.hasher = .ok hasher ∧ ix.reader = NodeReader.ofField c.childrenField ∧
        ix.hasher = hasher ∧ ix.maxDepth = c.maxDepth.toNat ∧
        ix.splitDepth = c.splitDepth.toNat) ∧
    ((∃ ix, c.indexer = .ok ix) ↔ c.validate = .ok ()) ∧
    (∀ e, c.indexer = .error e ↔ c.validate = .error e) ∧
    ∀ (c' : Settings) (text text' : String),
      c.digest = .keyed text → c'.digest = .keyed text' →
        ∀ key, readKey text = .ok key → c.digest.hasher = .ok (Hasher.blake3Keyed key) ∧
          (readKey text' = .ok key ↔ text'.toLower = text.toLower) := by
  refine ⟨read_write c, validate_eq_ok_iff, fun ix => ?_, ?_, fun e => indexer_eq_error_iff, ?_⟩
  · rw [indexer_eq_ok_iff]
    refine and_congr_right fun _ => exists_congr fun hasher => and_congr_right fun _ => ?_
    constructor
    · rintro rfl
      exact ⟨rfl, rfl, rfl, rfl⟩
    · obtain ⟨reader, hasher, maxDepth, splitDepth⟩ := ix
      rintro ⟨rfl, rfl, rfl, rfl⟩
      rfl
  · constructor
    · rintro ⟨ix, made⟩
      exact (indexer_eq_ok_iff.mp made).1
    · intro valid
      obtain ⟨hasher, -, made⟩ := exists_indexer_of_valid valid
      exact ⟨_, made⟩
  · intro c' text text' keyed _ key found
    refine ⟨?_, readKey_iff_toLower_eq found⟩
    rw [keyed, DigestChoice.hasher, found]
    rfl

example : write { childrenField := "a\"\n" } =
    "\x7b\"children_field\":\"a\\\"\\n\",\"hash\":\x7b\"algorithm\":\"blake3\"\x7d," ++
      "\"max_depth\":65536,\"parallel_depth\":0\x7d" := by
  decide +kernel

end Settings

end SubtermIndex
