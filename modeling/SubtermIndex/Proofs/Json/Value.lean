/-
# `SubtermIndex.Proofs.Json.Value` — readers of something and readers of anything

The kind of a value is known from its first byte (`gives_readValue_iff`).  A reader that asks for
something certain therefore finds it exactly where a reader of any value finds a value that means
it (`Interprets`).  So what such a reader accepts can be said of the value that is there, without
any mention of reading.

To interpret values is kept by all that readers of settings are made of: reading past blanks,
reading behind a colon, and going through a list or a record entry by entry.
-/
import SubtermIndex.Proofs.Json.Reading
import Mathlib.Tactic.SplitIfs

namespace SubtermIndex.Json

variable {α β : Type} {s t rest : Bytes} {levels : Nat} {v : Value} {first : UInt8}

def beginsNumber (b : UInt8) : Bool := b = byte '-' || isDigit b

/-! ## Scalars by their first byte -/

theorem gives_readScalar_text :
    Gives (readScalar (byte '"' :: s)) v rest ↔
      ∃ text, Gives (readText s) text rest ∧ Value.text text = v := by
  have branch : readScalar (byte '"' :: s) =
      (readText s).map fun p => (p.map Value.text).widen length_rest_le := rfl
  rw [branch, gives_map_widen]

theorem number_ne {c : Char} (number : beginsNumber first = true)
    (other : beginsNumber (byte c) = false) : first ≠ byte c := by
  rintro rfl
  simp [other] at number

theorem gives_readScalar_number (number : beginsNumber first = true) :
    Gives (readScalar (first :: s)) v rest ↔
      ∃ n, Gives (readNumber (first :: s)) n rest ∧ Value.number n = v := by
  have branch : readScalar (first :: s) = (readNumber (first :: s)).map fun p => p.map .number := by
    rw [readScalar, if_neg (number_ne number rfl), if_neg (number_ne number rfl),
      if_neg (number_ne number rfl), if_neg (number_ne number rfl)]
    exact if_pos number
  rw [branch, gives_map]

/-- What begins neither as a text nor as a number is neither. -/
theorem eq_of_gives_readScalar (noText : first ≠ byte '"') (noNumber : beginsNumber first = false)
    (found : Gives (readScalar (first :: s)) v rest) : v = .null ∨ ∃ b, v = .bool b := by
  have other : ¬ (decide (first = byte '-') || isDigit first) = true := by
    rw [show (decide (first = byte '-') || isDigit first) = false from noNumber]
    exact Bool.false_ne_true
  rw [readScalar, if_neg noText, if_neg other] at found
  split_ifs at found
  · obtain ⟨-, -, rfl⟩ := gives_map_widen.mp found
    exact .inl rfl
  · obtain ⟨-, -, rfl⟩ := gives_map_widen.mp found
    exact .inr ⟨true, rfl⟩
  · obtain ⟨-, -, rfl⟩ := gives_map_widen.mp found
    exact .inr ⟨false, rfl⟩
  · exact (gives_error.mp found).elim

theorem scalar_ne {c : Char} (found : Gives (readScalar (first :: s)) v rest)
    (other : readScalar (byte c :: s) = .error .malformed) : first ≠ byte c := by
  rintro rfl
  rw [other] at found
  exact gives_error.mp found

/-! ## Values by their first byte -/

abbrev ReadsItem (levels : Nat) (s : Bytes) (v : Value) (rest : Bytes) : Prop :=
  Gives (readValue levels s) v rest

def ReadsMember (levels : Nat) (s : Bytes) (m : String × Value) (rest : Bytes) : Prop :=
  ∃ t, Gives (readName s) m.1 t ∧ Gives (readAfterColon (readValue levels) t) m.2 rest

theorem steps_cons {ε : Type} {as es bs : List ε} :
    Steps (fun as e bs => e :: as = bs) as es bs ↔ es.reverse ++ as = bs := by
  induction es generalizing as with
  | nil => rfl
  | cons e rest ih =>
      rw [List.reverse_cons, List.append_assoc]
      show (∃ cs, e :: as = cs ∧ _) ↔ _
      simp only [exists_eq_left', ih]
      rfl

/-- Members that are each read as a value may be folded as the values that they are. -/
theorem gives_foldMembers_readsMember {member : α → String → Reader α} {isFirst : Bool} {a b : α}
    (Step : α → String × Value → α → Prop)
    (each : ∀ a name s b rest, Gives (member a name s) b rest ↔
      ∃ v, Gives (readAfterColon (readValue levels) s) v rest ∧ Step a (name, v) b) :
    Gives (foldMembers member isFirst a s) b rest ↔
      ∃ ms, Row (byte '\x7d') (ReadsMember levels) isFirst s ms rest ∧ Steps Step a ms b := by
  refine gives_foldMembers fun a t b w => ?_
  simp only [each]
  constructor
  · rintro ⟨name, u, named, v, found, step⟩
    exact ⟨(name, v), ⟨u, named, found⟩, step⟩
  · rintro ⟨⟨name, v⟩, ⟨u, named, found⟩, step⟩
    exact ⟨name, u, named, v, found, step⟩

/-- The value at a place that is not the end is found by its first byte. -/
theorem gives_readValue_cons (start : skipBlanks s = first :: t) :
    Gives (readValue levels s) v rest ↔
      if first = byte '[' then
        ∃ l items, levels = l + 1 ∧ Row (byte ']') (ReadsItem l) true t items rest ∧
          Value.list items = v
      else if first = byte '\x7b' then
        ∃ l members, levels = l + 1 ∧ Row (byte '\x7d') (ReadsMember l) true t members rest ∧
          Value.record members = v
      else Gives (readScalar (first :: t)) v rest := by
  cases levels with
  | zero =>
      rw [readValue, gives_readTrimmed, start, readNested_cons]
      split_ifs <;> simp [Except.map]
  | succ l =>
      rw [readValue, gives_readTrimmed, start, readNested_cons]
      split_ifs
      · have each (items : List Value) (t : Bytes) (items' : List Value) (u : Bytes) :
            Gives ((readValue l t).map fun p => p.map (· :: items)) items' u ↔
              ∃ v, ReadsItem l t v u ∧ v :: items = items' := gives_map
        simp only [gives_widen, gives_map, gives_foldItems each, steps_cons]
        constructor
        · rintro ⟨_, ⟨items, row, rfl⟩, rfl⟩
          exact ⟨l, items, rfl, row, by simp⟩
        · rintro ⟨_, items, ⟨⟩, row, rfl⟩
          exact ⟨_, ⟨items, row, rfl⟩, by simp⟩
      · have each (members : List (String × Value)) (name : String) (t : Bytes)
            (members' : List (String × Value)) (u : Bytes) :
            Gives ((readAfterColon (readValue l) t).map fun p =>
                p.map fun v => (name, v) :: members) members' u ↔
              ∃ v, Gives (readAfterColon (readValue l) t) v u ∧ (name, v) :: members = members' :=
          gives_map
        simp only [gives_widen, gives_map,
          gives_foldMembers_readsMember (fun members m members' => m :: members = members') each,
          steps_cons]
        constructor
        · rintro ⟨_, ⟨members, row, rfl⟩, rfl⟩
          exact ⟨l, members, rfl, row, by simp⟩
        · rintro ⟨_, members, ⟨⟩, row, rfl⟩
          exact ⟨_, ⟨members, row, rfl⟩, by simp⟩
      · rfl

theorem not_gives_readValue_nil (finish : skipBlanks s = []) :
    ¬ Gives (readValue levels s) v rest := by
  cases levels with
  | zero =>
      rw [readValue, gives_readTrimmed, finish]
      simp [readNested, readScalar]
  | succ l =>
      rw [readValue, gives_readTrimmed, finish]
      simp [readNested, readScalar]

/-- What stands at a place where a value of each kind begins with the byte `first`. -/
def Begins (levels : Nat) (first : UInt8) (t rest : Bytes) : Value → Prop
  | .text text => first = byte '"' ∧ Gives (readText t) text rest
  | .number n => beginsNumber first = true ∧ Gives (readNumber (first :: t)) n rest
  | .list items => first = byte '[' ∧
      ∃ l, levels = l + 1 ∧ Row (byte ']') (ReadsItem l) true t items rest
  | .record members => first = byte '\x7b' ∧
      ∃ l, levels = l + 1 ∧ Row (byte '\x7d') (ReadsMember l) true t members rest
  | v => Gives (readScalar (first :: t)) v rest

/-- A value is read where one of its kind begins. -/
theorem gives_readValue_iff (start : skipBlanks s = first :: t) :
    Gives (readValue levels s) v rest ↔ Begins levels first t rest v := by
  rw [gives_readValue_cons start]
  constructor
  · intro found
    split_ifs at found with list record
    · obtain ⟨l, items, nested, row, rfl⟩ := found
      exact ⟨list, l, nested, row⟩
    · obtain ⟨l, members, nested, row, rfl⟩ := found
      exact ⟨record, l, nested, row⟩
    · by_cases quote : first = byte '"'
      · subst quote
        obtain ⟨text, inside, rfl⟩ := gives_readScalar_text.mp found
        exact ⟨rfl, inside⟩
      · cases number : beginsNumber first with
        | true =>
            obtain ⟨n, inside, rfl⟩ := (gives_readScalar_number number).mp found
            exact ⟨number, inside⟩
        | false =>
            obtain rfl | ⟨b, rfl⟩ := eq_of_gives_readScalar quote number found
            · exact found
            · exact found
  · intro begins
    -- here the kind of the value is known, and its first byte excludes the other kinds
    cases v with
    | list items =>
        obtain ⟨rfl, l, nested, row⟩ := begins
        exact ⟨l, items, nested, row, rfl⟩
    | record members =>
        obtain ⟨rfl, l, nested, row⟩ := begins
        exact ⟨l, members, nested, row, rfl⟩
    | text text =>
        obtain ⟨rfl, inside⟩ := begins
        exact gives_readScalar_text.mpr ⟨text, inside, rfl⟩
    | number n =>
        obtain ⟨number, inside⟩ := begins
        rw [if_neg (number_ne number rfl), if_neg (number_ne number rfl)]
        exact (gives_readScalar_number number).mpr ⟨n, inside, rfl⟩
    | null =>
        rw [if_neg (scalar_ne begins rfl), if_neg (scalar_ne begins rfl)]
        exact begins
    | bool b =>
        rw [if_neg (scalar_ne begins rfl), if_neg (scalar_ne begins rfl)]
        exact begins

/-! ## Readers of values of one kind -/

/-- Whether `reader` finds what the values that are there mean by `Means`. -/
def Interprets (levels : Nat) (reader : Reader α) (Means : Value → α → Prop) : Prop :=
  ∀ s a rest, Gives (reader s) a rest ↔ ∃ v, Gives (readValue levels s) v rest ∧ Means v a

/-- A reader that passes over blanks first needs to be looked at from the first byte on only. -/
theorem interprets_readTrimmed {reader : Reader α} {Means : Value → α → Prop}
    (nothing : reader [] = .error .unexpectedEnd)
    (something : ∀ first t a rest, Gives (reader (first :: t)) a rest ↔
      ∃ v, Begins levels first t rest v ∧ Means v a) :
    Interprets levels (readTrimmed reader) Means := by
  intro s a rest
  rw [gives_readTrimmed]
  cases start : skipBlanks s with
  | nil => simp [nothing, not_gives_readValue_nil start]
  | cons first t => simp only [gives_readValue_iff start, something]

/-- A reader of lists and records needs to be looked at from their brackets on only. -/
theorem interprets_readNested {list record : Reader α} {Means : Value → α → Prop}
    (ofList : ∀ t a rest, Gives (list t) a rest ↔
      ∃ items, Row (byte ']') (ReadsItem levels) true t items rest ∧ Means (.list items) a)
    (ofRecord : ∀ t a rest, Gives (record t) a rest ↔
      ∃ ms, Row (byte '\x7d') (ReadsMember levels) true t ms rest ∧ Means (.record ms) a)
    (nested : ∀ v a, Means v a → (∃ items, v = .list items) ∨ ∃ ms, v = .record ms) :
    Interprets (levels + 1) (readTrimmed (readNested list record rejectValue)) Means := by
  refine interprets_readTrimmed rfl ?_
  intro first t a rest
  rw [readNested_cons]
  split_ifs with bracket brace
  · subst bracket
    rw [gives_widen, ofList]
    constructor
    · rintro ⟨items, row, means⟩
      exact ⟨.list items, ⟨rfl, levels, rfl, row⟩, means⟩
    · rintro ⟨v, begins, means⟩
      obtain ⟨items, rfl⟩ | ⟨ms, rfl⟩ := nested v a means
      · obtain ⟨-, _, ⟨⟩, row⟩ := begins
        exact ⟨items, row, means⟩
      · exact absurd begins.1 (by decide)
  · subst brace
    rw [gives_widen, ofRecord]
    constructor
    · rintro ⟨ms, row, means⟩
      exact ⟨.record ms, ⟨rfl, levels, rfl, row⟩, means⟩
    · rintro ⟨v, begins, means⟩
      obtain ⟨items, rfl⟩ | ⟨ms, rfl⟩ := nested v a means
      · exact absurd begins.1 (by decide)
      · obtain ⟨-, _, ⟨⟩, row⟩ := begins
        exact ⟨ms, row, means⟩
  · simp only [not_gives_rejectValue, false_iff]
    rintro ⟨v, begins, means⟩
    obtain ⟨items, rfl⟩ | ⟨ms, rfl⟩ := nested v a means
    · exact bracket begins.1
    · exact brace begins.1

theorem interprets_expectText :
    Interprets levels expectText fun v text => v = .text text := by
  refine interprets_readTrimmed rfl ?_
  intro first t text rest
  simp only [exists_eq_right, Begins]
  split
  case isTrue quote => simp [quote]
  case isFalse quote => simp [quote, not_gives_rejectValue]

theorem interprets_expectNatural :
    Interprets levels expectNatural fun v n => v = .number (.natural n) := by
  refine interprets_readTrimmed rfl ?_
  intro first t n rest
  simp only [exists_eq_right, Begins]
  split
  case isFalse other =>
    rw [show beginsNumber first = false from Bool.not_eq_true _ ▸ other]
    simp [not_gives_rejectValue]
  case isTrue number =>
    rw [show beginsNumber first = true from number]
    cases readNumber (first :: t) with
    | error fault => simp
    | ok p =>
        cases read : p.value with
        | other => simp [read]
        | natural m => simp [read]

section Interprets

variable {reader : Reader α} {Means : Value → α → Prop}

theorem Interprets.map (h : Interprets levels reader Means) (f : α → β) :
    Interprets levels (fun s => (reader s).map fun p => p.map f) fun v b =>
      ∃ a, Means v a ∧ f a = b := by
  intro s b rest
  simp only [gives_map, h s]
  constructor
  · rintro ⟨a, ⟨v, found, means⟩, same⟩
    exact ⟨v, found, a, means, same⟩
  · rintro ⟨v, found, a, means, same⟩
    exact ⟨a, ⟨v, found, means⟩, same⟩

theorem Interprets.afterColon (h : Interprets levels reader Means) {a : α} :
    Gives (readAfterColon reader s) a rest ↔
      ∃ v, Gives (readAfterColon (readValue levels) s) v rest ∧ Means v a := by
  simp only [gives_readAfterColon, h _]
  constructor
  · rintro ⟨t, colon, v, found, means⟩
    exact ⟨v, ⟨t, colon, found⟩, means⟩
  · rintro ⟨v, ⟨t, colon, found⟩, means⟩
    exact ⟨t, colon, v, found, means⟩

end Interprets

end SubtermIndex.Json
