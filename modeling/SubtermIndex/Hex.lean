/-
# `SubtermIndex.Hex` — bytes as pairs of hexadecimal digits

`Hex.encode` writes two lower-case digits a byte.  `Hex.decode` reads either case and says what is
wrong with a text it refuses: an odd count of bytes comes first, then the first byte that is no
digit.  The count is of bytes and not of characters, and so is the position of a fault.
-/
import SubtermIndex.Bytes

namespace SubtermIndex.Hex

/-- The digit of a number below 16. -/
def digit (n : UInt8) : Char :=
  Char.ofNat (if n < 10 then n.toNat + 48 else n.toNat + 87)

def encode (bs : Bytes) : String :=
  String.ofList (bs.flatMap fun b => [digit (b / 16), digit (b % 16)])

def digitValue? (c : UInt8) : Option UInt8 :=
  if 48 ≤ c ∧ c ≤ 57 then some (c - 48)
  else if 97 ≤ c ∧ c ≤ 102 then some (c - 87)
  else if 65 ≤ c ∧ c ≤ 70 then some (c - 55)
  else none

/-- Why a text is no hexadecimal byte string. -/
inductive Fault where
  | oddLength
  | badDigit (digit : UInt8) (position : Nat)
  deriving DecidableEq, Repr

/-- Reads pairs of digits from `position` on; `done` holds the bytes read, last first. -/
def decodePairs : Bytes → Nat → Bytes → Except Fault Bytes
  | hi :: lo :: rest, position, done =>
      match digitValue? hi, digitValue? lo with
      | none, _ => .error (.badDigit hi position)
      | some _, none => .error (.badDigit lo (position + 1))
      | some h, some l => decodePairs rest (position + 2) ((h * 16 + l) :: done)
  | _, _, done => .ok done.reverse

def decode (text : Bytes) : Except Fault Bytes :=
  if text.length % 2 = 1 then .error .oddLength else decodePairs text 0 []

end SubtermIndex.Hex
