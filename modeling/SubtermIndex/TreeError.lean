/-
# `SubtermIndex.TreeError` — why a tree is not indexed

A tree may be malformed at a node, or lack the field of the children there; the hashes given for
the children of a node may be too few or too many; and a hash may collide.  None of these can be
cured by trying again: indexing is a function of its input.

Errors of the first two kinds say where the node stands, as a path from the root of the call.
-/
import SubtermIndex.Position
import SubtermIndex.Digest
import SubtermIndex.Cbor.Encoding

namespace SubtermIndex

/-- What makes a tree malformed at a node. -/
inductive Reason where
  | notRecord (found : Cbor.Kind)
  | childrenNotList (field : String) (found : Cbor.Kind)
  | notEncodable (cause : Cbor.EncodeError)
  | tooDeep (limit : Nat)
  | other (text : String)
  deriving DecidableEq, Repr

def Reason.message : Reason → String
  | notRecord found => "node is not a record (found " ++ found.name ++ ")"
  | childrenNotList field found =>
      "children field `" ++ field ++ "` is not a list (found " ++ found.name ++ ")"
  | notEncodable cause => cause.message
  | tooDeep limit => "depth limit " ++ toString limit ++ " exceeded"
  | other text => text

/-- Why a call fails. -/
inductive TreeError where
  /-- A node is no conforming record, its payload has no encoding, or it lies too deep. -/
  | malformed (pos : Position) (reason : Reason)
  /-- The first child whose hash is not known yet. -/
  | missingHash (position : Nat)
  /-- More hashes than the node has children. -/
  | extraHashes (expected found : Nat)
  /-- A node lacks the field that holds the children. -/
  | missingField (field : String) (pos : Position)
  /-- One hash would stand for two different nodes. -/
  | collision (hash : NodeHash)
  deriving DecidableEq

namespace TreeError

def message : TreeError → String
  | malformed pos reason =>
      "[SUBEX_MALFORMED_TREE] at " ++ pos.render ++ ": " ++ reason.message
  | missingHash position =>
      "[SUBEX_MISSING_CHILD_HASH] no canonical hash for child " ++ toString position
  | extraHashes expected found =>
      "[SUBEX_EXTRA_CHILD_HASH] " ++ toString found ++ " child hashes for " ++
        toString expected ++ " children"
  | missingField field pos =>
      "[SUBEX_CONFIG] children field `" ++ field ++ "` missing at " ++ pos.render
  | collision hash =>
      "[SUBEX_HASH_COLLISION] " ++ hash.hex ++ " is bound to a different node"

/-- The error moved to `pos`, if it says where it happened at all.  A reader of
single nodes reports at the root; whoever knows the node's place moves the error there. -/
def moveTo (pos : Position) : TreeError → TreeError
  | malformed _ reason => malformed pos reason
  | missingField field _ => missingField field pos
  | e => e

end TreeError

end SubtermIndex
