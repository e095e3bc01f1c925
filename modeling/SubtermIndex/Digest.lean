/-
# `SubtermIndex.Digest` — 32-byte digests and the two kinds of hash

Every hash is a digest in one of two domains.  The domain is part of the type, so that the identity
of a node is never taken for the shape of its payload: what an index holds under a hash cannot be
asked for under a shape.

A digest keeps the proof that it has 32 bytes.  Nothing else is known of one.  A hasher is any
function from domains and messages to digests, and whatever is said of an index is said for all of
them, unless a hasher is named.
-/
import SubtermIndex.Hex

namespace SubtermIndex

/-- Exactly 32 bytes. -/
structure Digest where
  bytes : Bytes
  length_bytes : bytes.length = 32
  deriving DecidableEq

namespace Digest

def ofBytes? (bs : Bytes) : Option Digest :=
  if h : bs.length = 32 then some ⟨bs, h⟩ else none

def zero : Digest := ⟨List.replicate 32 0, by decide⟩

instance : Inhabited Digest := ⟨zero⟩

/-- The digest with all but its first `keep` bytes set to zero. -/
def keepFirst (keep : Nat) (d : Digest) : Digest :=
  ⟨d.bytes.take keep ++ List.replicate (32 - keep) 0, by
    simp only [List.length_append, List.length_take, List.length_replicate, d.length_bytes]
    omega⟩

def hex (d : Digest) : String := Hex.encode d.bytes

def shortHex (d : Digest) : String := Hex.encode (d.bytes.take 8)

instance : Ord Digest := ⟨fun a b => compare a.bytes b.bytes⟩

instance : Std.TransOrd Digest where
  eq_swap {a b} := (Std.OrientedOrd.eq_swap : compare a.bytes b.bytes = _)
  isLE_trans {a b c} (h : (compare a.bytes b.bytes).isLE)
      (h' : (compare b.bytes c.bytes).isLE) :=
    (Std.TransOrd.isLE_trans h h' : (compare a.bytes c.bytes).isLE)

instance : Std.LawfulEqOrd Digest where
  eq_of_compare {a b} (h : compare a.bytes b.bytes = .eq) := by
    have := Std.LawfulEqOrd.eq_of_compare h
    cases a; cases b; simp_all

end Digest

/-- What a digest is taken of: a node with the hashes of its children, or a payload alone. -/
inductive Domain where
  | node
  | shape
  deriving DecidableEq, Repr

/-- The text that every message of a domain begins with. -/
def Domain.label : Domain → String
  | .node => "subex:node:"
  | .shape => "subex:shape:"

structure Hash (domain : Domain) where
  digest : Digest
  deriving DecidableEq

/-- The identity of a node: its payload and the ordered identities of its children. -/
abbrev NodeHash := Hash .node

/-- What a node looks like when its children are ignored. -/
abbrev Shape := Hash .shape

namespace Hash

variable {domain : Domain}

def bytes (h : Hash domain) : Bytes := h.digest.bytes

def hex (h : Hash domain) : String := h.digest.hex

def shortHex (h : Hash domain) : String := h.digest.shortHex

instance : Ord (Hash domain) := ⟨fun a b => compare a.digest b.digest⟩

instance : Std.TransOrd (Hash domain) where
  eq_swap {a b} := (Std.OrientedOrd.eq_swap : compare a.digest b.digest = _)
  isLE_trans {a b c} (h : (compare a.digest b.digest).isLE)
      (h' : (compare b.digest c.digest).isLE) :=
    (Std.TransOrd.isLE_trans h h' : (compare a.digest c.digest).isLE)

instance : Std.LawfulEqOrd (Hash domain) where
  eq_of_compare {a b} (h : compare a.digest b.digest = .eq) := by
    have := Std.LawfulEqOrd.eq_of_compare h
    cases a; cases b; simp_all

end Hash

/-- A digest function for each domain.  Nothing is assumed of it: it may be weak
enough to give every message the same digest. -/
abbrev Hasher := Domain → Bytes → Digest

end SubtermIndex
