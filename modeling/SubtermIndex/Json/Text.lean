/-
# `SubtermIndex.Json.Text` — strings, read and written

A string holds UTF-8 and escapes.  An escape beyond the first 65536 characters is a pair of
surrogates; a surrogate on its own is refused, and so are control characters that are not escaped.

Reading collects bytes and not characters, and only the whole is checked for being UTF-8: bytes
that are none are a fault of the string and not of one of its characters.

Writing escapes what has to be escaped, in the short form where there is one.
-/
import SubtermIndex.Json.Reading

namespace SubtermIndex.Json

/-! ## Reading -/

def escapedByte? (letter : UInt8) : Option UInt8 :=
  if letter = byte '"' || letter = byte '\\' || letter = byte '/' then some letter
  else if letter = byte 'b' then some 8
  else if letter = byte 'f' then some 12
  else if letter = byte 'n' then some 10
  else if letter = byte 'r' then some 13
  else if letter = byte 't' then some 9
  else none

def hexValue? (b : UInt8) : Option Nat :=
  if isDigit b then some (digitValue b)
  else if byte 'a' ≤ b && b ≤ byte 'f' then some (b.toNat - 87)
  else if byte 'A' ≤ b && b ≤ byte 'F' then some (b.toNat - 55)
  else none

def readHex4 : Reader Nat
  | a :: b :: c :: d :: rest =>
      match hexValue? a, hexValue? b, hexValue? c, hexValue? d with
      | some a, some b, some c, some d =>
          .ok ⟨((a * 16 + b) * 16 + c) * 16 + d, rest, by simp only [List.length_cons]; omega⟩
      | _, _, _, _ => .error .malformed
  | _ => .error .unexpectedEnd

def isHighSurrogate (n : Nat) : Bool := 0xD800 ≤ n && n < 0xDC00

def isLowSurrogate (n : Nat) : Bool := 0xDC00 ≤ n && n < 0xE000

/-- Reads the escape of a low surrogate and joins it to the high one before. -/
def readLowSurrogate (high : Nat) : Reader Nat
  | [] => .error .unexpectedEnd
  | [b] => .error (if b = byte '\\' then .unexpectedEnd else .malformed)
  | b :: u :: digits =>
      if b = byte '\\' && u = byte 'u' then
        match readHex4 digits with
        | .error fault => .error fault
        | .ok low =>
            if isLowSurrogate low.value then
              let n := 0x10000 + (high - 0xD800) * 0x400 + (low.value - 0xDC00)
              .ok ((low.map fun _ => n).widen (by simp only [List.length_cons]; omega))
            else .error .malformed
      else .error .malformed

/-- Reads what follows the `u` of an escape: the number of a character. -/
def readCodePoint : Reader Nat := fun s =>
  match readHex4 s with
  | .error fault => .error fault
  | .ok first =>
      if isLowSurrogate first.value then .error .malformed
      else if isHighSurrogate first.value then
        (readLowSurrogate first.value first.rest).map (·.widen (Nat.le_of_lt first.shorter))
      else .ok first

def readEscape : Reader Bytes
  | [] => .error .unexpectedEnd
  | letter :: rest =>
      if letter = byte 'u' then
        (readCodePoint rest).map fun p =>
          (p.map fun n => Bytes.ofText (Char.ofNat n).toString).widen length_rest_le
      else
        match escapedByte? letter with
        | some b => .ok ⟨[b], rest, length_rest_lt⟩
        | none => .error .malformed

/-- Reads up to the closing quote; `done` holds the bytes read so far, last first. -/
def readContent (s done : Bytes) : Except Fault (Parsed Bytes s) :=
  match s with
  | [] => .error .unexpectedEnd
  | b :: rest =>
      if b = byte '"' then .ok ⟨done.reverse, rest, length_rest_lt⟩
      else if b = byte '\\' then
        match readEscape rest with
        | .error fault => .error fault
        | .ok escape =>
            have := escape.shorter
            (readContent escape.rest (escape.value.reverse ++ done)).map
              (·.widen (by simp only [List.length_cons]; omega))
      else if b < 32 then .error .malformed
      else (readContent rest (b :: done)).map (·.widen length_rest_le)
termination_by s.length

def readText : Reader String := fun s =>
  match readContent s [] with
  | .error fault => .error fault
  | .ok content =>
      match String.fromUTF8? (ByteArray.mk content.value.toArray) with
      | some text => .ok (content.map fun _ => text)
      | none => .error .malformed

/-! ## Writing -/

/-- How a character stands in a string. -/
def writeChar (c : Char) : String :=
  if c = '"' then "\\\""
  else if c = '\\' then "\\\\"
  else if c = '\x08' then "\\b"
  else if c = '\x0c' then "\\f"
  else if c = '\n' then "\\n"
  else if c = '\r' then "\\r"
  else if c = '\t' then "\\t"
  else if c.toNat < 16 then "\\u000" ++ String.ofList (Nat.toDigits 16 c.toNat)
  else if c.toNat < 32 then "\\u00" ++ String.ofList (Nat.toDigits 16 c.toNat)
  else c.toString

def writeText (s : String) : String := "\"" ++ String.join (s.toList.map writeChar) ++ "\""

end SubtermIndex.Json
