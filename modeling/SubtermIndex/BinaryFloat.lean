/-
# `SubtermIndex.BinaryFloat` — binary floating-point formats, exactly

A pattern of a binary interchange format is read as a NaN, an infinity or an exact number
`± significand · 2 ^ exponent`.  Writing goes the other way, and only where the format holds the
number exactly: `pattern?` never rounds.

All three widths are one definition with two parameters, the widths of the exponent and of the
fraction; the sign bit stands above both.  A number has several descriptions by a significand and
an exponent, and `pattern?` takes any of them.  It shifts the significand to the last place that
the format offers for its magnitude (`scaled?`), which has to come out as an integer.

Patterns are natural numbers and not words.  What is proved about a format is therefore
arithmetic of natural numbers, and no width is built into it.
-/
import SubtermIndex.Bytes

namespace SubtermIndex

structure BinaryFormat where
  exponentBits : Nat
  fractionBits : Nat
  deriving DecidableEq, Repr

/-- What a pattern stands for. -/
inductive FloatDatum where
  | nan
  | infinite (negative : Bool)
  | finite (negative : Bool) (significand : Nat) (exponent : Int)
  deriving DecidableEq, Repr

def scaled? (m : Nat) : (shift : Int) → Option Nat
  | .ofNat up => some (m <<< up)
  | .negSucc down =>
      if m % 1 <<< (down + 1) = 0 then some (m >>> (down + 1)) else none

/-- `± m · 2 ^ exponent`, where that is an integer. -/
def integer? (negative : Bool) (m : Nat) (exponent : Int) : Option Int :=
  (scaled? m exponent).map fun n => if negative then -(n : Int) else n

namespace BinaryFormat

def half : BinaryFormat := ⟨5, 10⟩
def single : BinaryFormat := ⟨8, 23⟩
def double : BinaryFormat := ⟨11, 52⟩

variable (f : BinaryFormat)

def signWeight : Nat := 1 <<< (f.exponentBits + f.fractionBits)

/-- The pattern of positive infinity: every larger pattern without a sign is a NaN. -/
def infinity : Nat := (1 <<< f.exponentBits - 1) <<< f.fractionBits

/-- The exponent of the last place of the smallest numbers. -/
def minExponent : Int := 2 - (1 <<< (f.exponentBits - 1) : Nat) - f.fractionBits

def withSign (negative : Bool) (magnitude : Nat) : Nat :=
  if negative then f.signWeight + magnitude else magnitude

/-- What a pattern of this format stands for. -/
def decode (bits : Nat) : FloatDatum :=
  let negative := bits / f.signWeight % 2 = 1
  let magnitude := bits % f.signWeight
  let biased := magnitude >>> f.fractionBits
  let fraction := magnitude % 1 <<< f.fractionBits
  if f.infinity < magnitude then .nan
  else if magnitude = f.infinity then .infinite negative
  else if biased = 0 then .finite negative fraction f.minExponent
  else .finite negative (1 <<< f.fractionBits + fraction) (f.minExponent + (biased - 1 : Nat))

/-- The pattern of `± m · 2 ^ exponent`, where the format holds that number exactly. -/
def pattern? (negative : Bool) (m : Nat) (exponent : Int) : Option Nat :=
  if m = 0 then some (f.withSign negative 0)
  else
    let last := max f.minExponent (exponent + m.log2 - f.fractionBits)
    match scaled? m (exponent - last) with
    | none => none
    | some significand =>
        let magnitude := (last - f.minExponent).toNat <<< f.fractionBits + significand
        if magnitude < f.infinity then some (f.withSign negative magnitude) else none

end BinaryFormat

end SubtermIndex
