/-
# `SubtermIndex.Cbor.Datum` — typed data as values

Typed data are richer than values: numbers have widths, and there are options, structures and
variants.  As values they become plain.  A structure is a record under the names of its fields, a
variant that carries something is a record with one entry, and an option is null or what it holds.

Not everything goes through.  An integer beyond the 65 signed bits of the format becomes a tagged
byte string, which no encoding accepts later on.  Data that refuse to be serialized make the tree
malformed, and of several refusals the one met first is reported.
-/
import SubtermIndex.TreeError
import SubtermIndex.Text.Quoted

namespace SubtermIndex.Cbor

/-- A typed datum. -/
inductive Datum where
  | unit
  | bool (b : Bool)
  | integer (n : Int)
  | single (bits : UInt32)
  | double (bits : UInt64)
  | text (s : String)
  | bytes (bs : Bytes)
  | present (content : Datum)
  | wrapped (content : Datum)
  | sequence (items : List Datum)
  | mapping (entries : List (Datum × Datum))
  | named (fields : List (String × Datum))
  | unitVariant (name : String)
  | wrappedVariant (name : String) (content : Datum)
  | tupleVariant (name : String) (items : List Datum)
  | recordVariant (name : String) (fields : List (String × Datum))
  | value (v : Value)
  | failing (reason : String)
  deriving Inhabited

/-- The tag of the bytes of a natural number. -/
def naturalTag : UInt64 := 2

/-- The tag of the bytes of `n`, for the number `-1 - n`. -/
def negativeTag : UInt64 := 3

/-- An integer of any size: one of the format's own where it fits. -/
def integerValue (n : Int) : Value :=
  match Integer.ofInt? n with
  | some i => .int i
  | none =>
      if 0 ≤ n then .tag naturalTag (.bytes (Bytes.minimalBigEndian n.toNat))
      else .tag negativeTag (.bytes (Bytes.minimalBigEndian (-1 - n).toNat))

/-- A single as a double.  Every number of the narrow format is one of the wide
format; a NaN keeps its sign and the bits of its fraction, and turns quiet. -/
def widen (bits : UInt32) : UInt64 :=
  match BinaryFormat.single.decode bits.toNat with
  | .finite negative m exponent =>
      UInt64.ofNat ((BinaryFormat.double.pattern? negative m exponent).getD 0)
  | .infinite negative =>
      UInt64.ofNat (BinaryFormat.double.withSign negative BinaryFormat.double.infinity)
  | .nan =>
      ((bits >>> 31).toUInt64 <<< 63) ||| (0x7ff8000000000000 : UInt64) |||
        ((bits &&& 0x7fffff).toUInt64 <<< 29)

def variantValue (name : String) (content : Value) : Value := .record [(.text name, content)]

namespace Datum

def refusal (reason : String) : TreeError :=
  .malformed .root (.other ("Custom(" ++ Text.quote reason ++ ")"))

mutual
/-- The value of a datum, or the refusal met first. -/
def toValue : Datum → Except TreeError Value
  | .unit => .ok .null
  | .bool b => .ok (.bool b)
  | .integer n => .ok (integerValue n)
  | .single bits => .ok (.float (widen bits))
  | .double bits => .ok (.float bits)
  | .text s => .ok (.text s)
  | .bytes bs => .ok (.bytes bs)
  | .present content => toValue content
  | .wrapped content => toValue content
  | .sequence items => (toValues items).map .list
  | .mapping entries => (toEntries entries).map .record
  | .named fields => (toFields fields).map .record
  | .unitVariant name => .ok (.text name)
  | .wrappedVariant name content => (toValue content).map (variantValue name)
  | .tupleVariant name items => (toValues items).map fun vs => variantValue name (.list vs)
  | .recordVariant name fields => (toFields fields).map fun es => variantValue name (.record es)
  | .value v => .ok v
  | .failing reason => .error (refusal reason)
termination_by structural d => d

def toValues : List Datum → Except TreeError (List Value)
  | [] => .ok []
  | d :: rest => do return (← toValue d) :: (← toValues rest)
termination_by structural ds => ds

def toEntries : List (Datum × Datum) → Except TreeError Entries
  | [] => .ok []
  | (k, v) :: rest => do
      let key ← toValue k
      let content ← toValue v
      return (key, content) :: (← toEntries rest)
termination_by structural es => es

def toFields : List (String × Datum) → Except TreeError Entries
  | [] => .ok []
  | (name, d) :: rest => do
      let content ← toValue d
      return (.text name, content) :: (← toFields rest)
termination_by structural fs => fs
end

end Datum

end SubtermIndex.Cbor
