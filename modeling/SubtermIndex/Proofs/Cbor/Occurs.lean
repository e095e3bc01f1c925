/-
# `SubtermIndex.Proofs.Cbor.Occurs` — what stands anywhere below a value

A value occurs in another one if it is the whole of it, or an item, a key, a value or a tagged
content at any depth (`Value.Occurs`).  Most questions about a value are whether something of a
kind occurs in it (`Value.Somewhere`): a tag, a repeated key, a NaN, entries that are out of
order.

They are answered part by part, by one lemma for each kind of value.  Where the kind can be
decided, the answer is found by looking everywhere (`Value.anywhere_iff`), so that statements
about given values can be evaluated.
-/
import SubtermIndex.Proofs.Cbor.Alike

namespace SubtermIndex.Cbor

namespace Value

/-! ## What occurs in a value -/

/-- A value occurs in itself, and wherever it occurs in an item, in the key or the value of an
entry, or in the content of a tag. -/
inductive Occurs (w : Value) : Value → Prop
  | self : Occurs w w
  | item {items : List Value} {v : Value} : v ∈ items → Occurs w v → Occurs w (.list items)
  | key {entries : Entries} {e : Value × Value} : e ∈ entries → Occurs w e.1 →
      Occurs w (.record entries)
  | value {entries : Entries} {e : Value × Value} : e ∈ entries → Occurs w e.2 →
      Occurs w (.record entries)
  | content {v : Value} (number : UInt64) : Occurs w v → Occurs w (.tag number v)

/-- Whether something of the given kind occurs in a value. -/
def Somewhere (P : Value → Prop) (v : Value) : Prop := ∃ w, Occurs w v ∧ P w

variable {P : Value → Prop}

theorem somewhere_self {v : Value} (h : P v) : Somewhere P v := ⟨v, .self, h⟩

theorem somewhere_list {items : List Value} :
    Somewhere P (.list items) ↔ P (.list items) ∨ ∃ v ∈ items, Somewhere P v := by
  constructor
  · rintro ⟨w, occurs, h⟩
    cases occurs with
    | self => exact .inl h
    | item mem inside => exact .inr ⟨_, mem, w, inside, h⟩
  · rintro (h | ⟨v, mem, w, inside, h⟩)
    · exact somewhere_self h
    · exact ⟨w, .item mem inside, h⟩

theorem somewhere_record {entries : Entries} :
    Somewhere P (.record entries) ↔
      P (.record entries) ∨ ∃ e ∈ entries, Somewhere P e.1 ∨ Somewhere P e.2 := by
  constructor
  · rintro ⟨w, occurs, h⟩
    cases occurs with
    | self => exact .inl h
    | key mem inside => exact .inr ⟨_, mem, .inl ⟨w, inside, h⟩⟩
    | value mem inside => exact .inr ⟨_, mem, .inr ⟨w, inside, h⟩⟩
  · rintro (h | ⟨e, mem, ⟨w, inside, h⟩ | ⟨w, inside, h⟩⟩)
    · exact somewhere_self h
    · exact ⟨w, .key mem inside, h⟩
    · exact ⟨w, .value mem inside, h⟩

theorem somewhere_tag {number : UInt64} {content : Value} :
    Somewhere P (.tag number content) ↔ P (.tag number content) ∨ Somewhere P content := by
  constructor
  · rintro ⟨w, occurs, h⟩
    cases occurs with
    | self => exact .inl h
    | content _ inside => exact .inr ⟨w, inside, h⟩
  · rintro (h | ⟨w, inside, h⟩)
    · exact somewhere_self h
    · exact ⟨w, .content number inside, h⟩

/-- In a value without parts nothing occurs but the value. -/
theorem somewhere_scalar {v : Value} (collection : v.isCollection = false) (tag : v.kind ≠ .tag) :
    Somewhere P v ↔ P v := by
  refine ⟨?_, somewhere_self⟩
  rintro ⟨w, occurs, h⟩
  cases occurs with
  | self => exact h
  | item => cases collection
  | key => cases collection
  | value => cases collection
  | content => exact absurd rfl tag

/-! ## Looking everywhere -/

/- Whether something occurs in a value. -/
mutual
def anywhere (p : Value → Bool) : Value → Bool
  | .list items => p (.list items) || anywhereIn p items
  | .record entries => p (.record entries) || anywhereAmong p entries
  | .tag number content => p (.tag number content) || anywhere p content
  | v => p v
termination_by structural v => v

def anywhereIn (p : Value → Bool) : List Value → Bool
  | [] => false
  | v :: rest => anywhere p v || anywhereIn p rest
termination_by structural vs => vs

def anywhereAmong (p : Value → Bool) : Entries → Bool
  | [] => false
  | (k, v) :: rest => anywhere p k || anywhere p v || anywhereAmong p rest
termination_by structural vs => vs
end

theorem anywhereIn_iff (p : Value → Bool) (items : List Value) :
    anywhereIn p items = true ↔ ∃ v ∈ items, anywhere p v = true := by
  induction items with
  | nil => simp [anywhereIn]
  | cons v rest ih => simp [anywhereIn, ih]

theorem anywhereAmong_iff (p : Value → Bool) (entries : Entries) :
    anywhereAmong p entries = true ↔
      ∃ e ∈ entries, anywhere p e.1 = true ∨ anywhere p e.2 = true := by
  induction entries with
  | nil => simp [anywhereAmong]
  | cons e rest ih => simp [anywhereAmong, ih]

theorem anywhere_iff (P : Value → Prop) [DecidablePred P] (v : Value) :
    anywhere (fun w => P w) v = true ↔ v.Somewhere P := by
  induction v using Value.induction with
  | list items ih =>
      rw [anywhere, Bool.or_eq_true, anywhereIn_iff, decide_eq_true_iff, somewhere_list]
      exact or_congr Iff.rfl (exists_congr fun v => and_congr_right fun mem => ih v mem)
  | record entries ih =>
      rw [anywhere, Bool.or_eq_true, anywhereAmong_iff, decide_eq_true_iff, somewhere_record]
      exact or_congr Iff.rfl (exists_congr fun e => and_congr_right fun mem =>
        or_congr (ih e mem).1 (ih e mem).2)
  | tag number content ih =>
      rw [anywhere, Bool.or_eq_true, ih, decide_eq_true_iff, somewhere_tag]
  | _ => exact decide_eq_true_iff.trans (somewhere_scalar rfl (by simp [kind])).symm

instance (P : Value → Prop) [DecidablePred P] (v : Value) : Decidable (v.Somewhere P) :=
  decidable_of_iff _ (anywhere_iff P v)

end Value

end SubtermIndex.Cbor
