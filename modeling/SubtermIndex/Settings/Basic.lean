/-
# `SubtermIndex.Settings.Basic` — settings of an indexer, and what is wrong with them

Settings name the children's field, choose a digest and set the two limits.  The digest may have a
key, which is written as 64 hexadecimal digits.

Settings that have been read may still be unusable: the name of the field must not be empty, the
depth must not be zero, and a key must be one.  These are checked in this order, and the first
that fails is reported.  A key stays a text in the settings, so that they are written as they were
read.
-/
import SubtermIndex.Indexer.Basic
import SubtermIndex.Json.Reading
import SubtermIndex.Text.Quoted

namespace SubtermIndex

/-- Why a text is no key. -/
inductive KeyFault where
  | notHex (fault : Hex.Fault)
  | wrongSize (count : Nat)
  deriving DecidableEq, Repr

def KeyFault.message : KeyFault → String
  | notHex .oddLength => "Odd number of digits"
  | notHex (.badDigit digit position) =>
      "Invalid character " ++ Text.quoteChar (Char.ofNat digit.toNat) ++ " at position " ++
        toString position
  | wrongSize count => "expected 32 bytes, got " ++ toString count

def readKey (text : String) : Except KeyFault Digest :=
  match Hex.decode (Bytes.ofText text) with
  | .error fault => .error (.notHex fault)
  | .ok bytes =>
      match Digest.ofBytes? bytes with
      | some key => .ok key
      | none => .error (.wrongSize bytes.length)

/-- The choice of a digest. -/
inductive DigestChoice where
  | plain
  | keyed (key : String)
  deriving DecidableEq, Repr

def DigestChoice.hasher : DigestChoice → Except KeyFault Hasher
  | plain => .ok Hasher.blake3
  | keyed key => (readKey key).map Hasher.blake3Keyed

inductive SettingsError where
  /-- The text cannot be had at all. -/
  | unreadable
  | malformed (fault : Json.Fault)
  | emptyField
  | invalidKey (fault : KeyFault)
  | zeroDepth
  deriving DecidableEq, Repr

namespace SettingsError

/-- What is wrong with the settings themselves; errors of reading have no text. -/
def message? : SettingsError → Option String
  | unreadable => none
  | malformed _ => none
  | emptyField => some "children_field must not be empty"
  | invalidKey fault => some ("invalid blake3 key: " ++ fault.message)
  | zeroDepth => some "max_depth must be at least 1"

def ofKey {α : Type} : Except KeyFault α → Except SettingsError α
  | .ok a => .ok a
  | .error fault => .error (.invalidKey fault)

end SettingsError

structure Settings where
  childrenField : String := NodeReader.usualField
  digest : DigestChoice := .plain
  maxDepth : UInt64 := UInt64.ofNat usualMaxDepth
  splitDepth : UInt64 := 0
  deriving DecidableEq, Repr

namespace Settings

/-- Checks the field first, then the depth, then the key. -/
def validate (c : Settings) : Except SettingsError Unit :=
  if c.childrenField.isEmpty then .error .emptyField
  else if c.maxDepth = 0 then .error .zeroDepth
  else (SettingsError.ofKey c.digest.hasher).map fun _ => ()

def indexer (c : Settings) : Except SettingsError (Indexer Cbor.Value) := do
  c.validate
  let hasher ← SettingsError.ofKey c.digest.hasher
  return {
    reader := NodeReader.ofField c.childrenField
    hasher
    maxDepth := c.maxDepth.toNat
    splitDepth := c.splitDepth.toNat }

end Settings

end SubtermIndex
