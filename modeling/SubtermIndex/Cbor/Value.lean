/-
# `SubtermIndex.Cbor.Value` — the data that records are made of

A value is null, a truth value, an integer of 65 signed bits, a double, a text, a byte string, a
list, a record or a tagged value.  Records keep their entries in the order given, repeated keys
included; nothing is put in order before it is encoded or made a payload.

Two notions of equality have to be told apart.  `Value.equal` compares data: doubles compare as
numbers, so that a NaN differs from itself, and an integer differs from the double of the same
number.  What an encoding makes equal is another thing, and it is this second one that decides
whether two nodes are the same.
-/
import SubtermIndex.BinaryFloat

namespace SubtermIndex.Cbor

/-- The integers of the format: those that a sign and 64 bits can write. -/
structure Integer where
  val : Int
  lower : -0x10000000000000000 ≤ val := by decide
  upper : val < 0x10000000000000000 := by decide
  deriving DecidableEq, Repr

namespace Integer

def ofInt? (n : Int) : Option Integer :=
  if h : -0x10000000000000000 ≤ n ∧ n < 0x10000000000000000 then some ⟨n, h.1, h.2⟩ else none

/-- A natural number modulo 2 ^ 64. -/
def ofUInt64 (n : UInt64) : Integer :=
  ⟨n.toNat, by omega, by have := n.toNat_lt; omega⟩

instance : Inhabited Integer := ⟨⟨0, by decide, by decide⟩⟩

end Integer

inductive Kind where
  | null | bool | int | float | text | bytes | list | record | tag
  deriving DecidableEq, Repr

/-- How error texts name a kind. -/
def Kind.name : Kind → String
  | null => "null"
  | bool => "bool"
  | int => "integer"
  | float => "float"
  | text => "text"
  | bytes => "bytes"
  | list => "list"
  | record => "record"
  | tag => "tag"

/-- A value.  A float is the bit pattern of a double, so that every NaN is told apart. -/
inductive Value where
  | null
  | bool (b : Bool)
  | int (n : Integer)
  | float (bits : UInt64)
  | text (s : String)
  | bytes (bs : Bytes)
  | list (items : List Value)
  | record (entries : List (Value × Value))
  | tag (number : UInt64) (content : Value)
  deriving Inhabited, Repr

abbrev Entries := List (Value × Value)

namespace Value

def kind : Value → Kind
  | null => .null
  | bool _ => .bool
  | int _ => .int
  | float _ => .float
  | text _ => .text
  | bytes _ => .bytes
  | list _ => .list
  | record _ => .record
  | tag _ _ => .tag

def asText? : Value → Option String
  | text s => some s
  | _ => none

/-- Whether a double is a NaN. -/
def isNaN (bits : UInt64) : Bool :=
  BinaryFormat.double.decode bits.toNat = .nan

/-- Equality of doubles as numbers: a NaN differs from everything, and the two zeros agree. -/
def equalFloats (a b : UInt64) : Bool :=
  !isNaN a && !isNaN b && (a == b || (a <<< 1 == 0 && b <<< 1 == 0))

/- Equality of values as data.  Floats compare as numbers, an integer never
equals a float, and records compare entry by entry in stored order. -/
mutual
def equal : Value → Value → Bool
  | null, null => true
  | bool a, bool b => a == b
  | int a, int b => a.val == b.val
  | float a, float b => equalFloats a b
  | text a, text b => a == b
  | bytes a, bytes b => a == b
  | list xs, list ys => equalItems xs ys
  | record xs, record ys => equalEntries xs ys
  | tag m v, tag n w => m == n && equal v w
  | _, _ => false
termination_by structural v => v

def equalItems : List Value → List Value → Bool
  | [], [] => true
  | v :: vs, w :: ws => equal v w && equalItems vs ws
  | _, _ => false
termination_by structural vs => vs

def equalEntries : Entries → Entries → Bool
  | [], [] => true
  | (k, v) :: vs, (l, w) :: ws => equal k l && equal v w && equalEntries vs ws
  | _, _ => false
termination_by structural vs => vs
end

instance : BEq Value := ⟨equal⟩

end Value

end SubtermIndex.Cbor
