/-
# `SubtermIndex.Hasher` — the digests that an index can be built with

BLAKE3 over the domain's label and the message, without or with a key.  The label stands in front
of the message, and neither of the two labels begins with the other one, so that digests of
different domains are never taken of the same bytes.
-/
import SubtermIndex.Digest
import SubtermIndex.Blake3.Tree

namespace SubtermIndex

def Blake3.Mode.digest32 (mode : Blake3.Mode) (message : Bytes) : Digest :=
  ⟨mode.digest message, mode.length_digest message⟩

namespace Hasher

def blake3 : Hasher := fun domain message =>
  Blake3.plainMode.digest32 (Bytes.ofText domain.label ++ message)

/-- The digest under a key: two keys never share hashes but by accident. -/
def blake3Keyed (key : Digest) : Hasher := fun domain message =>
  (Blake3.keyedMode key.bytes).digest32 (Bytes.ofText domain.label ++ message)

end Hasher

end SubtermIndex
