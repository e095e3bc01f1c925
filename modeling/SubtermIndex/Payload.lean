/-
# `SubtermIndex.Payload` — a node's fields without its children

A payload keeps its entries in ascending order of their encoded keys, so that it does not depend
on the order in which a record lists them.

To be put in order, the keys have to be encoded, and a record has no payload where one of them
cannot be, or where two are equal.  The values are left alone: they are not encoded here, and what
is inside of them is not put in order.
-/
import SubtermIndex.Cbor.Encoding

namespace SubtermIndex

open Cbor

/-- Entries in canonical key order. -/
structure Payload where
  entries : Entries
  deriving Inhabited

namespace Payload

/-- The payload of a record's entries, given in any order.  Only the keys are
encoded: they must have an encoding each, and all of them different. -/
def ofEntries (entries : Entries) : Except EncodeError Payload := do
  let keyed ← entries.mapM fun entry => (encode entry.1).map fun key => (key, entry)
  let sorted ← sortByKey keyed
  return ⟨sorted.map (·.2)⟩

def get? (p : Payload) (key : String) : Option Value :=
  (p.entries.find? fun entry => entry.1.asText? = some key).map (·.2)

def size (p : Payload) : Nat := p.entries.length

def isEmpty (p : Payload) : Bool := p.entries.isEmpty

def toValue (p : Payload) : Value := .record p.entries

instance : BEq Payload := ⟨fun p q => Value.equalEntries p.entries q.entries⟩

end Payload

end SubtermIndex
