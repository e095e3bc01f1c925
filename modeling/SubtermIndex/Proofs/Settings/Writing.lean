/-
# `SubtermIndex.Proofs.Settings.Writing` — settings are read from what they are written as

A written value is read as that value wherever no byte follows that could belong to a number
(`Renders`); this holds of texts, of numbers, and of records if it holds of their members.  So the
members of written settings are found again, and they describe the settings (`describes_members`).
What is read is then checked like the settings themselves.

A number is the one value that does not end by itself.  In a record a comma or a brace follows it,
neither of which belongs to a number.
-/
import SubtermIndex.Settings.Writing
import SubtermIndex.Proofs.Json.Text
import SubtermIndex.Proofs.Json.Number
import SubtermIndex.Proofs.Settings.Accepted
import Mathlib.Data.List.Forall2

namespace SubtermIndex.Settings

open Json

/-! ## Written values -/

/-- Whether a text is read as a value, if a byte follows that ends numbers. -/
def Renders (levels : Nat) (written : String) (v : Value) : Prop :=
  ∀ b rest, endsNumber b = true →
    Gives (readValue levels (Bytes.ofText written ++ b :: rest)) v (b :: rest)

variable {levels : Nat}

theorem renders_writeText (s : String) : Renders levels (writeText s) (.text s) := by
  intro b rest _
  have start : skipBlanks (Bytes.ofText (writeText s) ++ b :: rest) =
      byte '"' :: (content s ++ byte '"' :: b :: rest) := by
    rw [ofText_writeText, List.cons_append, List.append_assoc]
    rfl
  exact (gives_readValue_iff start).mpr ⟨rfl, gives_readText⟩

theorem renders_toString (n : UInt64) :
    Renders levels (toString n.toNat) (.number (.natural n)) := by
  intro b rest ends
  obtain ⟨d, ds, begins, digit, -⟩ := exists_decimal_eq_cons n.toNat
  have start : skipBlanks (Bytes.ofText (toString n.toNat) ++ b :: rest) =
      d :: (ds ++ b :: rest) := by
    rw [ofText_toString, begins, List.cons_append, skipBlanks, List.dropWhile_cons,
      isBlank_of_isDigit digit]
    rfl
  refine (gives_readValue_iff start).mpr ⟨by simp [beginsNumber, digit], ?_⟩
  rw [← List.cons_append, ← begins]
  exact gives_readNumber ends

/-- What a member is written as. -/
def memberBytes (m : String × String) : Bytes :=
  Bytes.ofText (writeText m.1) ++ byte ':' :: Bytes.ofText m.2

theorem memberBytes_append {m : String × String} {s : Bytes} :
    memberBytes m ++ s =
      byte '"' :: (content m.1 ++ byte '"' :: byte ':' :: (Bytes.ofText m.2 ++ s)) := by
  simp [memberBytes, ofText_writeText]

theorem readsMember_memberBytes {m : String × String} {v : Value} (renders : Renders levels m.2 v)
    {b : UInt8} {rest : Bytes} (ends : endsNumber b = true) :
    ReadsMember levels (memberBytes m ++ b :: rest) (m.1, v) (b :: rest) := by
  rw [memberBytes_append]
  refine ⟨byte ':' :: (Bytes.ofText m.2 ++ b :: rest), ?_, ?_⟩
  · rw [readName, if_pos rfl, gives_widen]
    exact gives_readText
  · exact gives_readAfterColon.mpr ⟨_, gives_readColon rfl, renders b rest ends⟩

abbrev RendersAll (levels : Nat) : List (String × String) → List (String × Value) → Prop :=
  List.Forall₂ fun m p => m.1 = p.1 ∧ Renders levels m.2 p.2

/-- What follows a member, up to the end of the record. -/
def remainder (ms : List (String × String)) (rest : Bytes) : Bytes :=
  ms.flatMap (fun m => byte ',' :: memberBytes m) ++ byte '\x7d' :: rest

theorem exists_remainder_eq_cons (ms : List (String × String)) (rest : Bytes) :
    ∃ b t, remainder ms rest = b :: t ∧ endsNumber b = true := by
  cases ms with
  | nil => exact ⟨byte '\x7d', rest, rfl, by decide⟩
  | cons m ms => exact ⟨byte ',', _, rfl, by decide⟩

theorem readsMember_remainder {m : String × String} {v : Value} (ms : List (String × String))
    (rest : Bytes) (renders : Renders levels m.2 v) :
    ReadsMember levels (memberBytes m ++ remainder ms rest) (m.1, v) (remainder ms rest) := by
  obtain ⟨b, t, begins, ends⟩ := exists_remainder_eq_cons ms rest
  rw [begins]
  exact readsMember_memberBytes renders ends

theorem row_remainder {ms : List (String × String)} {ps : List (String × Value)} {rest : Bytes}
    (renders : RendersAll levels ms ps) :
    Row (byte '\x7d') (ReadsMember levels) false (remainder ms rest) ps rest := by
  induction renders with
  | nil => exact row_nil_iff.mpr rfl
  | @cons m p ms ps here _ ih =>
      obtain ⟨name, v⟩ := p
      obtain ⟨rfl, renders⟩ := here
      have comma : remainder (m :: ms) rest = byte ',' :: (memberBytes m ++ remainder ms rest) := by
        simp [remainder]
      have reads := readsMember_remainder ms rest renders
      rw [comma]
      rw [memberBytes_append] at reads ⊢
      exact .entry (readPlace_next rfl rfl (by decide) (by decide)) reads ih

theorem ofText_member (m : String × String) :
    Bytes.ofText (writeText m.1 ++ ":" ++ m.2) = memberBytes m := by
  rw [Bytes.ofText_append, Bytes.ofText_append, List.append_assoc]
  rfl

theorem ofText_intercalate {m : String × String} {ms : List (String × String)} :
    Bytes.ofText (String.intercalate "," ((m :: ms).map fun m => writeText m.1 ++ ":" ++ m.2)) =
      memberBytes m ++ ms.flatMap fun m => byte ',' :: memberBytes m := by
  induction ms generalizing m with
  | nil => rw [List.map_singleton, String.intercalate_singleton, ofText_member, List.flatMap_nil,
      List.append_nil]
  | cons n ms ih =>
      rw [List.map_cons, String.intercalate_cons_of_ne_nil (by simp), Bytes.ofText_append, ih,
        Bytes.ofText_append, ofText_member, List.append_assoc]
      rfl

theorem ofText_writeRecord (ms : List (String × String)) (rest : Bytes) :
    Bytes.ofText (writeRecord ms) ++ rest = byte '\x7b' ::
      (Bytes.ofText (String.intercalate "," (ms.map fun m => writeText m.1 ++ ":" ++ m.2)) ++
        byte '\x7d' :: rest) := by
  rw [writeRecord, Bytes.ofText_append, Bytes.ofText_append, List.append_assoc, List.append_assoc]
  rfl

/-- A record is read as the values that its members are written as. -/
theorem gives_readValue_writeRecord {ms : List (String × String)} {ps : List (String × Value)}
    (rest : Bytes) (renders : RendersAll levels ms ps) :
    Gives (readValue (levels + 1) (Bytes.ofText (writeRecord ms) ++ rest)) (.record ps) rest := by
  rw [ofText_writeRecord]
  refine (gives_readValue_iff rfl).mpr ⟨rfl, levels, rfl, ?_⟩
  cases renders with
  | nil => exact row_nil_iff.mpr rfl
  | @cons m p ms ps here others =>
      obtain ⟨name, v⟩ := p
      obtain ⟨rfl, renders⟩ := here
      have written : Bytes.ofText (String.intercalate ","
          ((m :: ms).map fun m => writeText m.1 ++ ":" ++ m.2)) ++ byte '\x7d' :: rest =
            memberBytes m ++ remainder ms rest := by
        rw [ofText_intercalate, remainder, List.append_assoc]
      have reads := readsMember_remainder ms rest renders
      rw [written]
      rw [memberBytes_append] at reads ⊢
      exact .entry (readPlace_first rfl (by decide)) reads (row_remainder others)

theorem renders_writeRecord {ms : List (String × String)} {ps : List (String × Value)}
    (renders : RendersAll levels ms ps) : Renders (levels + 1) (writeRecord ms) (.record ps) :=
  fun _ _ _ => gives_readValue_writeRecord _ renders

/-! ## Written settings -/

def choiceMembers : DigestChoice → List (String × Value)
  | .plain => [(algorithmMember, .text Algorithm.plain.name)]
  | .keyed key => [(algorithmMember, .text Algorithm.keyed.name), (keyMember, .text key)]

def members (c : Settings) : List (String × Value) :=
  [(Member.childrenField.name, .text c.childrenField),
   (Member.hash.name, .record (choiceMembers c.digest)),
   (Member.maxDepth.name, .number (.natural c.maxDepth)),
   (Member.splitDepth.name, .number (.natural c.splitDepth))]

theorem renders_writeChoice (choice : DigestChoice) :
    Renders (levels + 1) (writeChoice choice) (.record (choiceMembers choice)) := by
  cases choice with
  | plain => exact renders_writeRecord (.cons ⟨rfl, renders_writeText _⟩ .nil)
  | keyed key =>
      exact renders_writeRecord
        (.cons ⟨rfl, renders_writeText _⟩ (.cons ⟨rfl, renders_writeText _⟩ .nil))

/-- The members of written settings are found again. -/
theorem readDocument_write (c : Settings) :
    readDocument (readValue maxNesting) (Bytes.ofText (write c)) = .ok (.record c.members) := by
  have renders : RendersAll (memberNesting + 1)
      [(Member.childrenField.name, writeText c.childrenField),
       (Member.hash.name, writeChoice c.digest),
       (Member.maxDepth.name, toString c.maxDepth.toNat),
       (Member.splitDepth.name, toString c.splitDepth.toNat)] c.members :=
    .cons ⟨rfl, renders_writeText _⟩ (.cons ⟨rfl, renders_writeChoice _⟩
      (.cons ⟨rfl, renders_toString _⟩ (.cons ⟨rfl, renders_toString _⟩ .nil)))
  have found := gives_readValue_writeRecord [] renders
  rw [List.append_nil] at found
  exact readDocument_eq_ok_iff.mpr ⟨[], found, rfl⟩

theorem chooses_choiceMembers (choice : DigestChoice) :
    Chooses (.record (choiceMembers choice)) choice := by
  cases choice with
  | plain => exact .plain rfl
  | keyed key => exact .keyed rfl rfl

/-- The members that settings are written with describe them. -/
theorem describes_members (c : Settings) : Describes c.members c := by
  constructor
  · simp only [members, List.forall_mem_cons]
    exact ⟨⟨_, rfl⟩, ⟨_, rfl⟩, ⟨_, rfl⟩, ⟨_, rfl⟩, nofun⟩
  · intro m
    right
    cases m with
    | childrenField => exact ⟨_, rfl, rfl⟩
    | hash => exact ⟨_, rfl, chooses_choiceMembers _⟩
    | maxDepth => exact ⟨_, rfl, rfl⟩
    | splitDepth => exact ⟨_, rfl, rfl⟩

/-- Reading settings from what they are written as is to check them. -/
theorem read_write (c : Settings) : read (Bytes.ofText (write c)) = c.validate.map fun _ => c :=
  read_of_describes (readDocument_write c) rfl (describes_members c)

end SubtermIndex.Settings
