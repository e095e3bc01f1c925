/-
# `SubtermIndex.Sample.Generator` — a small pseudo-random generator

The xorshift64* generator: three shifts move a 64-bit state on, and a multiplication scrambles
what is handed out.  From the state zero there is no way on, so the seed zero counts as one.

A number below a bound is a remainder, and where there is nothing to choose nothing is drawn.
-/
namespace SubtermIndex.Sample

/-- The state of a generator. -/
structure Generator where
  state : UInt64
  deriving DecidableEq, Repr

namespace Generator

/-- The generator of a seed; seed 0, from which there is no way on, counts as 1. -/
def ofSeed (seed : UInt64) : Generator := ⟨if seed = 0 then 1 else seed⟩

def advance (x : UInt64) : UInt64 :=
  let x := x ^^^ (x >>> 12)
  let x := x ^^^ (x <<< 25)
  x ^^^ (x >>> 27)

def next (g : Generator) : UInt64 × Generator :=
  let x := advance g.state
  (x * 0x2545F4914F6CDD1D, ⟨x⟩)

/-- A number below `upper`.  Where there is nothing to choose, nothing is drawn. -/
def below (upper : Nat) (g : Generator) : Nat × Generator :=
  if upper ≤ 1 then (0, g)
  else
    let (x, g) := g.next
    (x.toNat % upper, g)

end Generator

/-! ## Many calls -/

/-- A call on a generator. -/
inductive Draw where
  | next
  | below (upper : Nat)

/-- Whether a call moves the state on. -/
def Draw.moves : Draw → Bool
  | next => true
  | below upper => 1 < upper

namespace Generator

def after (g : Generator) : Draw → Generator
  | .next => g.next.2
  | .below upper => (g.below upper).2

def afterAll (g : Generator) (draws : List Draw) : Generator := draws.foldl after g

end Generator

end SubtermIndex.Sample
