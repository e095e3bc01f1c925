/-
# `SubtermIndex.Cbor.Encoding` — the canonical encoding

Equal data get equal bytes, and nothing else does:

- an integer, and the length of everything that has one, takes the shortest head;
- a float that is an integer of the format is written as that integer, any
  other in the narrowest of three widths that holds it exactly, and every NaN
  as one and the same half-width NaN;
- the entries of a record come in ascending order of their encoded keys, and
  two equal keys are refused;
- tags are refused.

The functions of this module say what is written; they are not the way it is done.  There all
parts are written behind one another into one output (`Cbor.write`), and doubles are narrowed by
trying conversions (`Cbor.Conversions`).  Both are proved to come to the same.

What is refused first matters to the callers, who report it: the keys of a record are encoded
before any of its values, in the order of the entries, and equal keys are noticed before the values
are looked at.
-/
import SubtermIndex.Cbor.Value
import Std.Data.ExtTreeMap

namespace SubtermIndex.Cbor

open Std

/-- The kinds of value for which the encoding has no rule: none of those that there are. -/
inductive Uncovered : Kind → Prop

/-- Why a value has no canonical encoding. -/
inductive EncodeError where
  | tag
  | duplicateKey
  | unsupported (kind : Kind) (uncovered : Uncovered kind)
  deriving DecidableEq, Repr

def EncodeError.message : EncodeError → String
  | .tag => "[SUBEX_CANON_TAG] tags not allowed in payloads"
  | .duplicateKey => "[SUBEX_CANON_DUPLICATE_KEY] duplicate map key"
  | .unsupported kind _ => "[SUBEX_CANON_UNSUPPORTED] simple value " ++ kind.name

/-! ## Heads and numbers -/

/-- The kinds of item that begin with a head. -/
inductive Major where
  | unsigned | negative | bytes | text | list | record
  deriving DecidableEq, Repr

def Major.code : Major → Nat
  | unsigned => 0
  | negative => 1
  | bytes => 2
  | text => 3
  | list => 4
  | record => 5

/-- A head and its argument in the shortest of five forms. -/
def head (major : Major) (n : Nat) : Bytes :=
  let first (low : Nat) : UInt8 := UInt8.ofNat (major.code * 32 + low)
  if n < 24 then [first n]
  else if n < 0x100 then first 24 :: Bytes.bigEndian 1 n
  else if n < 0x10000 then first 25 :: Bytes.bigEndian 2 n
  else if n < 0x100000000 then first 26 :: Bytes.bigEndian 4 n
  else first 27 :: Bytes.bigEndian 8 n

def encodeInteger (n : Integer) : Bytes :=
  if 0 ≤ n.val then head .unsigned n.val.toNat else head .negative (-1 - n.val).toNat

/-- The one pattern of every NaN, at half width. -/
def quietNaN : Nat := 0x7e00

/-- A finite number that is no integer of the format, in the narrowest exact width. -/
def encodeFraction (bits : UInt64) (negative : Bool) (m : Nat) (exponent : Int) : Bytes :=
  match BinaryFormat.half.pattern? negative m exponent with
  | some h => 0xf9 :: Bytes.bigEndian 2 h
  | none =>
      match BinaryFormat.single.pattern? negative m exponent with
      | some s => 0xfa :: Bytes.bigEndian 4 s
      | none => 0xfb :: Bytes.bigEndian 8 bits.toNat

def encodeFloat (bits : UInt64) : Bytes :=
  match BinaryFormat.double.decode bits.toNat with
  | .nan => 0xf9 :: Bytes.bigEndian 2 quietNaN
  | .infinite negative =>
      0xf9 :: Bytes.bigEndian 2 (BinaryFormat.half.withSign negative BinaryFormat.half.infinity)
  | .finite negative m exponent =>
      match (integer? negative m exponent).bind Integer.ofInt? with
      | some n => encodeInteger n
      | none => encodeFraction bits negative m exponent

/-! ## The order of entries -/

/-- Entries in ascending order of their encoded keys.  Equal keys share a place
in an ordered map, so the keys all differ when no entry has been lost. -/
def sortByKey {α : Type} (entries : List (Bytes × α)) : Except EncodeError (List (Bytes × α)) :=
  let sorted : ExtTreeMap Bytes α := entries.foldl (fun m entry => m.insert entry.1 entry.2) ∅
  if sorted.size = entries.length then .ok sorted.toList else .error .duplicateKey

/-- The values of sorted entries, each behind its key; `done` holds the output, last piece first. -/
def joinEntries : List (Bytes × Except EncodeError Bytes) → List Bytes → Except EncodeError Bytes
  | [], done => .ok done.reverse.flatten
  | (key, value) :: rest, done =>
      match value with
      | .error e => .error e
      | .ok bs => joinEntries rest (bs :: key :: done)

/-- A record from its encoded keys and the outcomes of encoding its values.
Equal keys are noticed before any value is looked at. -/
def encodeRecord (entries : List (Bytes × Except EncodeError Bytes)) : Except EncodeError Bytes :=
  match sortByKey entries with
  | .error e => .error e
  | .ok sorted => (joinEntries sorted []).map (head .record sorted.length ++ ·)

/-! ## Values -/

mutual
def encode : Value → Except EncodeError Bytes
  | .null => .ok [0xf6]
  | .bool b => .ok [if b then 0xf5 else 0xf4]
  | .int n => .ok (encodeInteger n)
  | .float bits => .ok (encodeFloat bits)
  | .text s => .ok (head .text s.utf8ByteSize ++ Bytes.ofText s)
  | .bytes bs => .ok (head .bytes bs.length ++ bs)
  | .list items => (encodeItems items []).map (head .list items.length ++ ·)
  | .record entries => encodeEntries entries []
  | .tag _ _ => .error .tag
termination_by structural v => v

/-- The items of a list one after another; `done` holds the output, last piece first. -/
def encodeItems : List Value → List Bytes → Except EncodeError Bytes
  | [], done => .ok done.reverse.flatten
  | v :: rest, done =>
      match encode v with
      | .error e => .error e
      | .ok bs => encodeItems rest (bs :: done)
termination_by structural vs => vs

/-- A record.  Its keys are encoded first, in the order of the entries; `done`
holds the entries seen, last first. -/
def encodeEntries : Entries → List (Bytes × Except EncodeError Bytes) → Except EncodeError Bytes
  | [], done => encodeRecord done.reverse
  | (k, v) :: rest, done =>
      match encode k with
      | .error e => .error e
      | .ok key => encodeEntries rest ((key, encode v) :: done)
termination_by structural vs => vs
end

end SubtermIndex.Cbor
