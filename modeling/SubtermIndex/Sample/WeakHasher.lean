/-
# `SubtermIndex.Sample.WeakHasher` — digests that collide

With these an index can be seen to notice collisions.  One gives every message the same digest.
The other ones keep the first bytes of a good digest, so that collisions are as rare as the number
of bytes makes them.
-/
import SubtermIndex.Hasher

namespace SubtermIndex.Hasher

def zero : Hasher := fun _ _ => .zero

/-- BLAKE3 with all but the first `keep` bytes set to zero. -/
def weakened (keep : Nat) : Hasher := fun domain message =>
  (blake3 domain message).keepFirst keep

end SubtermIndex.Hasher
