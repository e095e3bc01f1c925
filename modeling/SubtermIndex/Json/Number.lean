/-
# `SubtermIndex.Json.Number` — numbers, as far as settings need them

A setting takes a natural number below 2 ^ 64, written as such: neither a sign nor a fraction nor an
exponent.  Every other number is only checked: for its grammar, and for not being too large for a
double.

A number is kept as the digits that fit into 64 bits and a power of ten, and is too large if the
two, each rounded to a double, have no double as a product.  Digits beyond those that fit count as
zeros.  Whether a number right at the border is refused depends on these roundings, and so they are
done here in the same way.

`-0` is a number, but no natural one.
-/
import SubtermIndex.Json.Reading

namespace SubtermIndex.Json

/-- What a reader of settings tells apart. -/
inductive Number where
  | natural (n : UInt64)
  | other
  deriving DecidableEq, Repr

def maxSignificand : Nat := 0xFFFFFFFFFFFFFFFF

/-! ## Too large for a double -/

/-- `n` rounded to 53 binary digits, a tie going to the even neighbour. -/
def roundToDouble (n : Nat) : Nat :=
  let unit := 1 <<< (n.log2 - 52)
  let low := n / unit
  let twice := 2 * (n % unit)
  if unit < twice || (twice == unit && low % 2 == 1) then (low + 1) * unit else low * unit

/-- The least number that rounds to no double. -/
def overflowBound : Nat := 1 <<< 1024 - 1 <<< 970

def isTooLarge (significand : Nat) (exponent : Int) : Bool :=
  significand != 0 && (308 < exponent ||
    (0 ≤ exponent &&
      overflowBound ≤ roundToDouble significand * roundToDouble (Nat.pow 10 exponent.toNat)))

/-! ## The parts of a number -/

/-- A number so far: `significand · 10 ^ exponent`, and whether it is nothing but digits. -/
structure Digits where
  significand : Nat
  exponent : Int
  isPlain : Bool
  deriving DecidableEq, Repr

/-- Takes in the digits before the point.  From the first one that does not fit
on, each counts only as a power of ten. -/
def Digits.ofIntegral (digits : Bytes) : Digits :=
  digits.foldl
    (fun d b =>
      let more := d.significand * 10 + digitValue b
      if d.exponent = 0 && more ≤ maxSignificand then { d with significand := more }
      else { d with exponent := d.exponent + 1 })
    ⟨0, 0, true⟩

/-- Takes in the digits behind the point, up to the first one that does not fit. -/
def Digits.addFraction (d : Digits) : Bytes → Digits
  | [] => { d with isPlain := false }
  | b :: rest =>
      let more := d.significand * 10 + digitValue b
      if more ≤ maxSignificand then Digits.addFraction ⟨more, d.exponent - 1, false⟩ rest
      else { d with isPlain := false }

def Digits.scale (d : Digits) (e : Int) : Digits :=
  ⟨d.significand, d.exponent + e, false⟩

def Digits.toNumber (d : Digits) : Number :=
  if d.isPlain && d.exponent = 0 then .natural (UInt64.ofNat d.significand) else .other

def digitsValue (digits : Bytes) : Nat :=
  digits.foldl (fun n b => n * 10 + digitValue b) 0

/-! ## Reading -/

def readDigits : Reader Bytes
  | [] => .error .unexpectedEnd
  | b :: rest =>
      if isDigit b then
        .ok ⟨b :: rest.takeWhile isDigit, rest.dropWhile isDigit,
          Nat.lt_succ_of_le (List.dropWhile_sublist _).length_le⟩
      else .error .malformed

/-- Reads the digits before the point: a zero alone, or digits that begin with another one. -/
def readIntegral : Reader Digits := fun s =>
  match readDigits s with
  | .error fault => .error fault
  | .ok digits =>
      if digits.value.head? = some (byte '0') && 1 < digits.value.length then .error .malformed
      else .ok (digits.map Digits.ofIntegral)

/-- Reads on behind a byte that `isMark` accepts, if there is one. -/
def readAfter {α β : Type} {s : Bytes} (isMark : UInt8 → Bool) (reader : Reader β)
    (add : α → β → α) (p : Parsed α s) : Except Fault (Parsed α s) :=
  match h : p.rest with
  | [] => .ok p
  | b :: rest =>
      if isMark b then
        (reader rest).map fun q =>
          (q.map (add p.value)).widen (by
            have := p.shorter
            rw [h, List.length_cons] at this
            omega)
      else .ok p

/-- Reads an exponent behind its letter. -/
def readExponent : Reader Int
  | [] => .error .unexpectedEnd
  | b :: rest =>
      if b = byte '-' then
        (readDigits rest).map fun p =>
          (p.map fun ds => -(digitsValue ds : Int)).widen length_rest_le
      else if b = byte '+' then
        (readDigits rest).map fun p =>
          (p.map fun ds => (digitsValue ds : Int)).widen length_rest_le
      else (readDigits (b :: rest)).map fun p => p.map fun ds => (digitsValue ds : Int)

def readUnsigned : Reader Number := fun s =>
  match readIntegral s with
  | .error fault => .error fault
  | .ok whole =>
      match readAfter (· == byte '.') readDigits Digits.addFraction whole with
      | .error fault => .error fault
      | .ok fixed =>
          let isMark (b : UInt8) : Bool := b == byte 'e' || b == byte 'E'
          match readAfter isMark readExponent Digits.scale fixed with
          | .error fault => .error fault
          | .ok scaled =>
              if isTooLarge scaled.value.significand scaled.value.exponent then .error .malformed
              else .ok (scaled.map Digits.toNumber)

def readNumber : Reader Number
  | [] => .error .unexpectedEnd
  | b :: rest =>
      if b = byte '-' then
        (readUnsigned rest).map fun p => (p.map fun _ => .other).widen length_rest_le
      else readUnsigned (b :: rest)

end SubtermIndex.Json
