/-
# `SubtermIndex.NodeReader` — reading payload and children of a node

Indexing sees a node only through two projections, to its payload and to its children.  Nothing
else is asked of nodes, which may be of any type.

The standard reader takes records and finds the children as a list under a field of a chosen name.
All entries under that name are left out of the payload, but the children are read off the first
of them only.  The field must be there, with an empty list in a leaf.
-/
import SubtermIndex.TreeError
import SubtermIndex.Payload

namespace SubtermIndex

open Cbor

/-- The two projections of a node.  Both may fail, and report their errors at the root. -/
structure NodeReader (N : Type) where
  payload : N → Except TreeError Payload
  children : N → Except TreeError (List N)

namespace NodeReader

/-- The field of the children, unless another one is chosen. -/
def usualField : String := "children"

/-- The entries of a record node. -/
def recordEntries : Value → Except TreeError Entries
  | .record entries => .ok entries
  | other => .error (.malformed .root (.notRecord other.kind))

def isField (field : String) (key : Value) : Bool :=
  key.asText? = some field

def payloadOf (entries : Entries) : Except TreeError Payload :=
  match Payload.ofEntries entries with
  | .ok payload => .ok payload
  | .error cause => .error (.malformed .root (.notEncodable cause))

def fieldPayload (field : String) (node : Value) : Except TreeError Payload := do
  let entries ← recordEntries node
  payloadOf (entries.filter fun entry => !isField field entry.1)

/-- The list under the first entry of the children's field. -/
def fieldChildren (field : String) (node : Value) : Except TreeError (List Value) := do
  let entries ← recordEntries node
  match entries.find? fun entry => isField field entry.1 with
  | some (_, .list items) => .ok items
  | some (_, other) => .error (.malformed .root (.childrenNotList field other.kind))
  | none => .error (.missingField field .root)

/-- Reads records whose children are the list under `field`. -/
def ofField (field : String) : NodeReader Value where
  payload := fieldPayload field
  children := fieldChildren field

end NodeReader

end SubtermIndex
