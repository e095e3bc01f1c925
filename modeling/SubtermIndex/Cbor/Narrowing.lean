/-
# `SubtermIndex.Cbor.Narrowing` — a double written by trying conversions

Here a double is converted to an integer of 128 bits, then to half width, then to single
width, and the first result that is still the same number is written.  A conversion may
round, so that its result is compared with what it was made from; to widen a result again
is to read its pattern.

The conversions are parameters.  What is written does not depend on how they round: it is enough
that they give an exact result where there is one.  Those that round to the nearest number, halves
to even significands, stand at the end (`Conversions.nearest`).
-/
import SubtermIndex.Cbor.Encoding

namespace SubtermIndex

namespace FloatDatum

/-- `± m · 2 ^ shift`. -/
def inUnits (negative : Bool) (m shift : Nat) : Int :=
  let n : Nat := m <<< shift
  if negative then -(n : Int) else n

def ofInt (n : Int) : FloatDatum := .finite (n < 0) n.natAbs 0

/-- Whether two data are one number.  A NaN is none, and the two zeros are one. -/
def isSameNumber : FloatDatum → FloatDatum → Bool
  | .infinite negative, .infinite negative' => negative == negative'
  | .finite negative m e, .finite negative' m' e' =>
      let last := min e e'
      inUnits negative m (e - last).toNat == inUnits negative' m' (e' - last).toNat
  | _, _ => false

def isWhole : FloatDatum → Bool
  | .finite _ m e => m % 1 <<< (-e).toNat == 0
  | _ => false

/-- The nearest integer of 128 signed bits. -/
def saturate (n : Int) : Int :=
  max (-0x80000000000000000000000000000000) (min n 0x7fffffffffffffffffffffffffffffff)

def toInt128 : FloatDatum → Int
  | .nan => 0
  | .infinite negative => saturate (inUnits negative 1 128)
  | .finite negative m e => saturate (inUnits negative (m >>> (-e).toNat) e.toNat)

end FloatDatum

namespace Cbor

/-- The conversions from and to doubles, all of them on bit patterns. -/
structure Conversions where
  toHalf : UInt64 → UInt16
  toSingle : UInt64 → UInt32
  ofInt128 : Int → UInt64

namespace Conversions

variable (c : Conversions)

/-- The integer that is written for a double: what it is cut down to, if that is an integer of
the format and is the same number when it is converted back. -/
def integer? (bits : UInt64) : Option Integer :=
  let d := BinaryFormat.double.decode bits.toNat
  if d.isWhole then
    (Integer.ofInt? d.toInt128).filter fun n =>
      (BinaryFormat.double.decode (c.ofInt128 n.val).toNat).isSameNumber d
  else none

def encodeFraction (bits : UInt64) : Bytes :=
  let d := BinaryFormat.double.decode bits.toNat
  let half := (c.toHalf bits).toNat
  let single := (c.toSingle bits).toNat
  if (BinaryFormat.half.decode half).isSameNumber d then 0xf9 :: Bytes.bigEndian 2 half
  else if (BinaryFormat.single.decode single).isSameNumber d then
    0xfa :: Bytes.bigEndian 4 single
  else 0xfb :: Bytes.bigEndian 8 bits.toNat

def encodeFloat (bits : UInt64) : Bytes :=
  match BinaryFormat.double.decode bits.toNat with
  | .nan => 0xf9 :: Bytes.bigEndian 2 quietNaN
  | .infinite negative =>
      0xf9 :: Bytes.bigEndian 2 (BinaryFormat.half.withSign negative BinaryFormat.half.infinity)
  | .finite _ _ _ =>
      match c.integer? bits with
      | some n => encodeInteger n
      | none => c.encodeFraction bits

end Conversions

end Cbor

/-! ## Rounding to nearest -/

/-- The integer nearest to `m · 2 ^ shift`; of two that are equally near, the even one. -/
def rounded (m : Nat) : (shift : Int) → Nat
  | .ofNat up => m <<< up
  | .negSucc down =>
      let below := m >>> (down + 1)
      let rest := m % 1 <<< (down + 1)
      if 1 <<< down < rest ∨ rest = 1 <<< down ∧ below % 2 = 1 then below + 1 else below

/-- The pattern of the nearest number of a format.  A significand that is rounded up to the next
power of two carries into the exponent, and beyond the largest number there is infinity. -/
def BinaryFormat.nearest (f : BinaryFormat) : FloatDatum → Nat
  | .nan => f.infinity + 1 <<< (f.fractionBits - 1)
  | .infinite negative => f.withSign negative f.infinity
  | .finite negative m exponent =>
      let last := max f.minExponent (exponent + m.log2 - f.fractionBits)
      let magnitude :=
        (last - f.minExponent).toNat <<< f.fractionBits + rounded m (exponent - last)
      f.withSign negative (if m = 0 then 0 else min f.infinity magnitude)

/-- The conversions that round to nearest. -/
def Cbor.Conversions.nearest : Conversions where
  toHalf bits := .ofNat (BinaryFormat.half.nearest (BinaryFormat.double.decode bits.toNat))
  toSingle bits := .ofNat (BinaryFormat.single.nearest (BinaryFormat.double.decode bits.toNat))
  ofInt128 n := .ofNat (BinaryFormat.double.nearest (.ofInt n))

end SubtermIndex
