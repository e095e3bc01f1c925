/-
# `SubtermIndex.Json.Reading` — reading JSON from left to right

A reader takes a byte string and gives a value together with what is left of the string, which is
always shorter.  Reading stops at the first fault, so that of several faults in a text the one
furthest to the left is reported.

That the rest is shorter is part of the result (`Parsed`).  Readers that call each other are
therefore seen to end by the length of what is left, and no count of steps is carried along.

A fault says only of which kind it is: a text that ends too early, one that is no JSON, or one
that is JSON and not what was asked for.
-/
import SubtermIndex.Bytes

namespace SubtermIndex.Json

/-- What is wrong with a text. -/
inductive Fault where
  /-- The text stops in the middle. -/
  | unexpectedEnd
  /-- The text is no JSON. -/
  | malformed
  /-- The text is JSON so far, but not what was asked for. -/
  | mismatch
  deriving DecidableEq, Repr

/-- A value and what is left of `s` behind it. -/
structure Parsed (α : Type) (s : Bytes) where
  value : α
  rest : Bytes
  shorter : rest.length < s.length

namespace Parsed

variable {α β : Type} {s t : Bytes}

def widen (p : Parsed α t) (h : t.length ≤ s.length) : Parsed α s :=
  ⟨p.value, p.rest, Nat.lt_of_lt_of_le p.shorter h⟩

def map (f : α → β) (p : Parsed α s) : Parsed β s := ⟨f p.value, p.rest, p.shorter⟩

@[simp] theorem value_widen (p : Parsed α t) (h : t.length ≤ s.length) :
    (p.widen h).value = p.value := rfl

@[simp] theorem rest_widen (p : Parsed α t) (h : t.length ≤ s.length) :
    (p.widen h).rest = p.rest := rfl

@[simp] theorem value_map (f : α → β) (p : Parsed α s) : (p.map f).value = f p.value := rfl

@[simp] theorem rest_map (f : α → β) (p : Parsed α s) : (p.map f).rest = p.rest := rfl

end Parsed

/-- A reader of values. -/
abbrev Reader (α : Type) := (s : Bytes) → Except Fault (Parsed α s)

/-! ## Single bytes -/

def byte (c : Char) : UInt8 := UInt8.ofNat c.toNat

def isBlank (b : UInt8) : Bool :=
  b == byte ' ' || b == byte '\t' || b == byte '\n' || b == byte '\r'

/-- What stands behind leading blanks. -/
def skipBlanks (s : Bytes) : Bytes := s.dropWhile isBlank

theorem length_skipBlanks_le (s : Bytes) : (skipBlanks s).length ≤ s.length :=
  (List.dropWhile_sublist _).length_le

/-! What is left is shorter. -/

section

variable {b : UInt8} {s rest : Bytes}

theorem length_rest_lt : rest.length < (b :: rest).length := Nat.lt_succ_self _

theorem length_rest_le : rest.length ≤ (b :: rest).length := Nat.le_succ _

theorem length_le_of_skipBlanks (h : skipBlanks s = rest) : rest.length ≤ s.length := by
  rw [← h]
  exact length_skipBlanks_le s

theorem length_lt_of_skipBlanks (h : skipBlanks s = b :: rest) : rest.length < s.length :=
  Nat.lt_of_lt_of_le length_rest_lt (length_le_of_skipBlanks h)

end

def isDigit (b : UInt8) : Bool := byte '0' ≤ b && b ≤ byte '9'

def digitValue (b : UInt8) : Nat := b.toNat - 48

def readLetters : Char → List Char → Reader Unit
  | _, _, [] => .error .unexpectedEnd
  | c, [], b :: rest => if b = byte c then .ok ⟨(), rest, length_rest_lt⟩ else .error .malformed
  | c, d :: cs, b :: rest =>
      if b = byte c then (readLetters d cs rest).map (·.widen length_rest_le)
      else .error .malformed

end SubtermIndex.Json
