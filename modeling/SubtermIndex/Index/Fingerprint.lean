/-
# `SubtermIndex.Index.Fingerprint` — one digest of a whole index

The digest is taken of a byte stream that lists the three maps in order: the nodes by their
records, the shapes with their members, and the edges.  Every list stands behind its length, and a
record behind its own, so that the stream determines what is listed.

Nodes enter by their records and not as data.  Two indexes that hold one tree in two spellings have
one stream, and so have two that were filled in different orders.
-/
import SubtermIndex.Index.Basic
import SubtermIndex.Hasher

namespace SubtermIndex.Index

open Cbor

def countBytes (n : Nat) : Bytes := Bytes.littleEndian 8 n

def nodeBytes (entry : NodeHash × Node) : Except EncodeError Bytes :=
  entry.2.encodedRecord.map fun record => entry.1.bytes ++ countBytes record.length ++ record

/-- A shape, the number of its members, and the members. -/
def shapeBytes (group : Shape × List NodeHash) : Bytes :=
  group.1.bytes ++ countBytes group.2.length ++ group.2.flatMap Hash.bytes

def edgeBytes (edge : NodeHash × NodeHash) : Bytes :=
  edge.1.bytes ++ edge.2.bytes

/-- Everything that the digest is taken of. -/
def stream (m : Index) : Except EncodeError Bytes := do
  let nodes ← m.nodes.toList.mapM nodeBytes
  let shapes := m.shapes.toList.map fun (s, members) => shapeBytes (s, members.toList)
  let edges := m.edges.toList.map edgeBytes
  return Bytes.ofText "subex:index:v1" ++ countBytes m.nodes.size ++ nodes.flatten ++
    countBytes m.shapes.size ++ shapes.flatten ++ countBytes m.edges.size ++ edges.flatten

def fingerprint (m : Index) : Except EncodeError Digest :=
  m.stream.map Blake3.plainMode.digest32

end SubtermIndex.Index
