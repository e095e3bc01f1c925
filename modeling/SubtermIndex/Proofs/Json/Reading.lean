/-
# `SubtermIndex.Proofs.Json.Reading` — what a reader finds, and what it leaves

A reading is described by the value that it ends with and by what it leaves of the text (`Gives`);
why that is shorter does not matter any more.  A list or a record is read place by place (`Row`),
and whoever folds the places into something of his own makes one step for each entry of the row
(`Steps`).

A fold may refuse an entry, and then nothing is read.  Whether entries are there, and whether
steps can be made with them, are two questions, and the lemmas about folds keep them apart
(`gives_foldItems`, `gives_foldMembers`).
-/
import SubtermIndex.Json.Value
import Mathlib.Logic.Basic
import Mathlib.Tactic.SplitIfs

namespace SubtermIndex.Json

variable {α β : Type} {s t : Bytes} {a : α} {b : β} {rest : Bytes}

/-- Whether a reading has ended with `a`, and has left `rest`. -/
def Gives (reading : Except Fault (Parsed α s)) (a : α) (rest : Bytes) : Prop :=
  ∃ p, reading = .ok p ∧ p.value = a ∧ p.rest = rest

@[simp] theorem gives_ok {p : Parsed α s} : Gives (.ok p) a rest ↔ p.value = a ∧ p.rest = rest := by
  simp [Gives]

@[simp] theorem gives_error {fault : Fault} :
    Gives (.error fault : Except Fault (Parsed α s)) a rest ↔ False := by
  simp [Gives]

@[simp] theorem gives_widen {reading : Except Fault (Parsed α t)} {le : t.length ≤ s.length} :
    Gives (reading.map fun p => p.widen le) a rest ↔ Gives reading a rest := by
  cases reading <;> simp [Except.map]

@[simp] theorem gives_map {reading : Except Fault (Parsed α s)} {f : α → β} :
    Gives (reading.map fun p => p.map f) b rest ↔ ∃ a, Gives reading a rest ∧ f a = b := by
  cases reading with
  | error fault => simp [Except.map]
  | ok p =>
      simp only [Except.map, gives_ok, Parsed.value_map, Parsed.rest_map]
      constructor
      · rintro ⟨rfl, left⟩
        exact ⟨_, ⟨rfl, left⟩, rfl⟩
      · rintro ⟨_, ⟨rfl, left⟩, rfl⟩
        exact ⟨rfl, left⟩

@[simp] theorem gives_map_widen {reading : Except Fault (Parsed α t)} {f : α → β}
    {le : t.length ≤ s.length} :
    Gives (reading.map fun p => (p.map f).widen le) b rest ↔
      ∃ a, Gives reading a rest ∧ f a = b := by
  cases reading with
  | error fault => simp [Except.map]
  | ok p =>
      have same : Gives (.ok ((p.map f).widen le) : Except Fault (Parsed β s)) b rest ↔
          Gives (.ok (p.map f) : Except Fault (Parsed β t)) b rest := by
        simp only [gives_ok, Parsed.value_widen, Parsed.rest_widen]
      have mapped : Gives ((Except.ok p).map fun p => p.map f) b rest ↔ _ := gives_map
      exact same.trans mapped

theorem Gives.unique {reading : Except Fault (Parsed α s)} {a' : α} {rest' : Bytes}
    (h : Gives reading a rest) (h' : Gives reading a' rest') : a = a' ∧ rest = rest' := by
  obtain ⟨p, found, rfl, rfl⟩ := h
  obtain ⟨p', found', rfl, rfl⟩ := h'
  obtain rfl := Except.ok.inj (found.symm.trans found')
  exact ⟨rfl, rfl⟩

theorem readDocument_eq_ok_iff {reader : Reader α} {text : Bytes} :
    readDocument reader text = .ok a ↔
      ∃ rest, Gives (reader text) a rest ∧ skipBlanks rest = [] := by
  rw [readDocument]
  cases reader text with
  | error fault => simp
  | ok p =>
      simp only [gives_ok, List.isEmpty_iff]
      by_cases blank : skipBlanks p.rest = []
      · simp only [blank, if_true, Except.ok.injEq]
        constructor
        · rintro rfl
          exact ⟨p.rest, ⟨rfl, rfl⟩, blank⟩
        · rintro ⟨-, ⟨rfl, -⟩, -⟩
          rfl
      · simp only [blank, if_false, reduceCtorEq, false_iff]
        rintro ⟨_, ⟨-, rfl⟩, none⟩
        exact blank none

/-! ## The parts of a value -/

@[simp] theorem gives_readTrimmed {reader : Reader α} :
    Gives (readTrimmed reader s) a rest ↔ Gives (reader (skipBlanks s)) a rest :=
  gives_widen

theorem gives_readAfterColon {reader : Reader α} :
    Gives (readAfterColon reader s) a rest ↔
      ∃ t, Gives (readColon s) () t ∧ Gives (reader t) a rest := by
  rw [readAfterColon]
  cases colon : readColon s with
  | error fault => simp
  | ok p => simp

theorem gives_readColon {t : Bytes} (start : skipBlanks s = byte ':' :: t) :
    Gives (readColon s) () t := by
  rw [readColon]
  split
  case h_1 finish => simp [finish] at start
  case h_2 start' =>
    obtain ⟨rfl, rfl⟩ := List.cons.inj (start.symm.trans start')
    rw [if_pos rfl]
    exact gives_ok.mpr ⟨rfl, rfl⟩

/-- What is read as a record, list or otherwise depends on the first byte. -/
theorem readNested_cons (list record otherwise : Reader α) (first : UInt8) (s : Bytes) :
    readNested list record otherwise (first :: s) =
      if first = byte '[' then (list s).map fun p => p.widen length_rest_le
      else if first = byte '\x7b' then (record s).map fun p => p.widen length_rest_le
      else otherwise (first :: s) := rfl

theorem not_gives_rejectValue : ¬ Gives (rejectValue s : Except Fault (Parsed α s)) a rest := by
  rw [rejectValue]
  cases s with
  | nil => simp [readNested, readScalar]
  | cons first s =>
      rw [readNested_cons]
      split
      · simp [Except.map]
      · split
        · simp [Except.map]
        · split <;> simp

/-! ## Rows -/

section

variable {bracket first : UInt8} {isFirst : Bool}

theorem readPlace_of_bracket (start : skipBlanks s = bracket :: rest) :
    readPlace bracket isFirst s = .ok (.close rest (length_lt_of_skipBlanks start)) := by
  rw [readPlace]
  split
  case h_1 finish => simp [finish] at start
  case h_2 start' =>
    obtain ⟨rfl, rfl⟩ := List.cons.inj (start.symm.trans start')
    exact if_pos rfl

theorem readPlace_first {t : Bytes} (start : skipBlanks s = first :: t) (other : first ≠ bracket) :
    readPlace bracket true s = .ok (.item (first :: t) (length_le_of_skipBlanks start)) := by
  rw [readPlace]
  split
  case h_1 finish => simp [finish] at start
  case h_2 start' =>
    obtain ⟨rfl, rfl⟩ := List.cons.inj (start.symm.trans start')
    rw [if_neg other, if_pos rfl]

theorem readPlace_next {t u : Bytes} (comma : skipBlanks s = byte ',' :: t)
    (start : skipBlanks t = first :: u) (noComma : byte ',' ≠ bracket) (other : first ≠ bracket) :
    readPlace bracket false s = .ok (.item (first :: u) (Nat.le_trans
      (length_le_of_skipBlanks start) (Nat.le_of_lt (length_lt_of_skipBlanks comma)))) := by
  rw [readPlace]
  split
  case h_1 finish => simp [finish] at comma
  case h_2 comma' =>
    obtain ⟨rfl, rfl⟩ := List.cons.inj (comma.symm.trans comma')
    rw [if_neg noComma, if_neg Bool.false_ne_true, if_pos rfl]
    split
    case h_1 finish => simp [finish] at start
    case h_2 start' =>
      obtain ⟨rfl, rfl⟩ := List.cons.inj (start.symm.trans start')
      exact if_neg other

end

/-- What stands in a list or record from some place on: entries, each of which `Reads` finds, up to
the closing bracket. -/
inductive Row {ε : Type} (bracket : UInt8) (Reads : Bytes → ε → Bytes → Prop) :
    (isFirst : Bool) → Bytes → List ε → Bytes → Prop
  | close {isFirst : Bool} {s rest : Bytes} {shorter : rest.length < s.length} :
      readPlace bracket isFirst s = .ok (.close rest shorter) →
      Row bracket Reads isFirst s [] rest
  | entry {isFirst : Bool} {s t u rest : Bytes} {le : t.length ≤ s.length} {e : ε} {es : List ε} :
      readPlace bracket isFirst s = .ok (.item t le) → Reads t e u →
      Row bracket Reads false u es rest → Row bracket Reads isFirst s (e :: es) rest

/-- Whether steps, one for each entry, lead from one state to another. -/
def Steps {ε : Type} (Step : α → ε → α → Prop) : α → List ε → α → Prop
  | a, [], b => a = b
  | a, e :: es, c => ∃ b, Step a e b ∧ Steps Step b es c

section Rows

variable {ε : Type} {bracket : UInt8} {Reads : Bytes → ε → Bytes → Prop} {isFirst : Bool}
  {Step : α → ε → α → Prop} {a' : α}

theorem row_of_error {fault : Fault} {es : List ε}
    (place : readPlace bracket isFirst s = .error fault) :
    ¬ Row bracket Reads isFirst s es rest := by
  rintro (found | ⟨found, -, -⟩) <;> simp [place] at found

theorem row_of_close {u : Bytes} {shorter : u.length < s.length} {es : List ε}
    (place : readPlace bracket isFirst s = .ok (.close u shorter)) :
    Row bracket Reads isFirst s es rest ↔ es = [] ∧ rest = u := by
  constructor
  · rintro (found | ⟨found, -, -⟩)
    · simp only [place, Except.ok.injEq, Place.close.injEq] at found
      exact ⟨rfl, found.symm⟩
    · simp [place] at found
  · rintro ⟨rfl, rfl⟩
    exact .close place

theorem row_nil_iff : Row bracket Reads isFirst s [] rest ↔ skipBlanks s = bracket :: rest := by
  constructor
  · rintro (found | -)
    rw [readPlace] at found
    split at found
    case h_1 => simp at found
    case h_2 first t start =>
      split_ifs at found with closes
      · simp only [Except.ok.injEq, Place.close.injEq] at found
        rw [start, closes, found]
      · simp at found
      · split at found
        case h_1 => simp at found
        case h_2 =>
          split_ifs at found
          simp at found
  · exact fun start => .close (readPlace_of_bracket start)

theorem row_of_item {u : Bytes} {le : u.length ≤ s.length} {es : List ε}
    (place : readPlace bracket isFirst s = .ok (.item u le)) :
    Row bracket Reads isFirst s es rest ↔
      ∃ e more w, es = e :: more ∧ Reads u e w ∧ Row bracket Reads false w more rest := by
  constructor
  · rintro (found | ⟨found, first, others⟩)
    · simp [place] at found
    · simp only [place, Except.ok.injEq, Place.item.injEq] at found
      subst found
      exact ⟨_, _, _, rfl, first, others⟩
  · rintro ⟨e, more, w, rfl, first, others⟩
    exact .entry place first others

theorem row_steps_of_close {u : Bytes} {shorter : u.length < s.length}
    (place : readPlace bracket isFirst s = .ok (.close u shorter)) :
    (∃ es, Row bracket Reads isFirst s es rest ∧ Steps Step a es a') ↔ a = a' ∧ u = rest := by
  simp only [row_of_close place]
  constructor
  · rintro ⟨_, ⟨rfl, rfl⟩, same⟩
    exact ⟨same, rfl⟩
  · rintro ⟨rfl, rfl⟩
    exact ⟨[], ⟨rfl, rfl⟩, rfl⟩

/-- At an item a step is made with it, and then one for each entry of the row that is left. -/
theorem row_steps_of_item {u : Bytes} {le : u.length ≤ s.length}
    (place : readPlace bracket isFirst s = .ok (.item u le)) :
    (∃ es, Row bracket Reads isFirst s es rest ∧ Steps Step a es a') ↔
      ∃ b w, (∃ e, Reads u e w ∧ Step a e b) ∧
        ∃ es, Row bracket Reads false w es rest ∧ Steps Step b es a' := by
  simp only [row_of_item place]
  constructor
  · rintro ⟨_, ⟨e, more, w, rfl, first, others⟩, b, step, steps⟩
    exact ⟨b, w, ⟨e, first, step⟩, more, others, steps⟩
  · rintro ⟨b, w, ⟨e, first, step⟩, more, others, steps⟩
    exact ⟨e :: more, ⟨e, more, w, rfl, first, others⟩, b, step, steps⟩

/-- Folding the items of a list is to make a step for each of them. -/
theorem gives_foldItems {item : α → Reader α}
    (each : ∀ a t b u, Gives (item a t) b u ↔ ∃ e, Reads t e u ∧ Step a e b) :
    Gives (foldItems item isFirst a s) a' rest ↔
      ∃ es, Row (byte ']') Reads isFirst s es rest ∧ Steps Step a es a' := by
  fun_induction foldItems item isFirst a s with
  | case1 isFirst a s fault place => simp [row_of_error place]
  | case2 isFirst a s u shorter place => rw [row_steps_of_close place, gives_ok]
  | case3 isFirst a s u le place fault found =>
      simp only [gives_error, row_steps_of_item place, false_iff]
      rintro ⟨b, w, step, -⟩
      have given := (each a u b w).mpr step
      simp [found] at given
  | case4 isFirst a s u le place p found shorter ih =>
      have here : Gives (item a u) p.value p.rest := ⟨p, found, rfl, rfl⟩
      rw [gives_widen, ih, row_steps_of_item place]
      constructor
      · exact fun more => ⟨p.value, p.rest, (each ..).mp here, more⟩
      · rintro ⟨b, w, step, more⟩
        obtain ⟨rfl, rfl⟩ := here.unique ((each ..).mpr step)
        exact more

/-- Folding the members of a record is to make a step for each of them. -/
theorem gives_foldMembers {member : α → String → Reader α}
    (each : ∀ a t b w, (∃ name u, Gives (readName t) name u ∧ Gives (member a name u) b w) ↔
      ∃ e, Reads t e w ∧ Step a e b) :
    Gives (foldMembers member isFirst a s) a' rest ↔
      ∃ es, Row (byte '\x7d') Reads isFirst s es rest ∧ Steps Step a es a' := by
  fun_induction foldMembers member isFirst a s with
  | case1 isFirst a s fault place => simp [row_of_error place]
  | case2 isFirst a s u shorter place => rw [row_steps_of_close place, gives_ok]
  | case3 isFirst a s u le place fault found =>
      simp only [gives_error, row_steps_of_item place, false_iff]
      rintro ⟨b, w, step, -⟩
      obtain ⟨_, _, named, -⟩ := (each a u b w).mpr step
      simp [found] at named
  | case4 isFirst a s u le place name named fault found =>
      simp only [gives_error, row_steps_of_item place, false_iff]
      rintro ⟨b, w, step, -⟩
      obtain ⟨_, _, ⟨_, named', rfl, rfl⟩, given⟩ := (each a u b w).mpr step
      obtain rfl := Except.ok.inj (named.symm.trans named')
      simp [found] at given
  | case5 isFirst a s u le place name named p found shorter shorter' ih =>
      have here : ∃ n v, Gives (readName u) n v ∧ Gives (member a n v) p.value p.rest :=
        ⟨_, _, ⟨name, named, rfl, rfl⟩, ⟨p, found, rfl, rfl⟩⟩
      rw [gives_widen, ih, row_steps_of_item place]
      constructor
      · exact fun more => ⟨p.value, p.rest, (each ..).mp here, more⟩
      -- there is one reading only, so the step must be the one that was read
      · rintro ⟨b, w, step, more⟩
        obtain ⟨n, v, ⟨_, named', rfl, rfl⟩, given⟩ := (each ..).mpr step
        obtain rfl := Except.ok.inj (named.symm.trans named')
        obtain ⟨rfl, rfl⟩ := given.unique ⟨p, found, rfl, rfl⟩
        exact more

end Rows

end SubtermIndex.Json
