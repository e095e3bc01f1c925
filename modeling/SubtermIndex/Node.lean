/-
# `SubtermIndex.Node` — nodes whose children are hashes

A node of the index is one level of a tree: a payload and the hashes of the children, in order and
with repeats.  Its record, the list of the payload and the children's hashes, is what the node's
own hash is taken of.

Two nodes may stand under one hash if their records are written alike.  They need not be equal as
data then: a number may be spelled in several ways, and a NaN is not even equal to itself.  The
comparison looks at the data first, which is quick and accepts nothing that the records would not,
and encodes the records only if that fails.
-/
import SubtermIndex.TreeError
import SubtermIndex.Payload

namespace SubtermIndex

open Cbor

/-- A payload and the hashes of the ordered children. -/
structure Node where
  payload : Payload
  children : List NodeHash
  deriving Inhabited

namespace Node

/-- The node of a payload that declares `arity` children, whose hashes must all
be known and no others given. -/
def ofHashes (payload : Payload) (arity : Nat) (hashes : List NodeHash) :
    Except TreeError Node :=
  if hashes.length < arity then .error (.missingHash hashes.length)
  else if arity < hashes.length then .error (.extraHashes arity hashes.length)
  else .ok ⟨payload, hashes⟩

def isLeaf (n : Node) : Bool := n.children.isEmpty

def childList (n : Node) : Value := .list (n.children.map fun h => .bytes h.bytes)

def record (n : Node) : Value := .list [n.payload.toValue, n.childList]

def encodedRecord (n : Node) : Except EncodeError Bytes := encode n.record

/-- The node as a record of the kind it was read from, its children's field coming last. -/
def toValue (field : String) (n : Node) : Value :=
  .record (n.payload.entries ++ [(.text field, n.childList)])

instance : BEq Node := ⟨fun a b => a.payload == b.payload && a.children == b.children⟩

/-- Whether two nodes may stand under one hash: they are equal as data, or at
least (think of NaNs and of nested records) their records are written alike. -/
def sameStructure (a b : Node) : Bool :=
  a == b ||
    match a.encodedRecord, b.encodedRecord with
    | .ok x, .ok y => x == y
    | _, _ => false

end Node

/-! ## The two hashes -/

namespace Hasher

/-- The identity of the node with the given record bytes. -/
def nodeHash (hasher : Hasher) (record : Bytes) : NodeHash := ⟨hasher .node record⟩

def identify (hasher : Hasher) (n : Node) : Except EncodeError NodeHash :=
  n.encodedRecord.map hasher.nodeHash

/-- The shape of a payload. -/
def shapeOf (hasher : Hasher) (p : Payload) : Except EncodeError Shape :=
  (encode p.toValue).map fun bytes => ⟨hasher .shape bytes⟩

end Hasher

end SubtermIndex
