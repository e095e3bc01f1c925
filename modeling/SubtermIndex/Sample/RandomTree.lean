/-
# `SubtermIndex.Sample.RandomTree` — records of random expressions

Leaves come from a small alphabet, so that equal sub-trees are common.  A random number says which
member of a table is taken.  Above the given depth every node is an operator or a leaf, by a draw;
at the depth only leaves are left.

`Drawing` is the same drawing by steps of which one, the look at a table, fails for a number
outside the table.  Both are written down so that it can be proved that no look fails.
-/
import SubtermIndex.Sample.Algebra
import SubtermIndex.Sample.Generator

namespace SubtermIndex.Sample

open Cbor

def variableNames : List String := ["x", "y", "z"]

/-- A member of a list, or the given value if the list is empty. -/
def choose {α : Type} (choices : List α) (default : α) (g : Generator) : α × Generator :=
  let (i, g) := g.below choices.length
  (choices.getD i default, g)

/-- A number below 4 or a variable. -/
def randomLeaf (g : Generator) : Value × Generator :=
  let (coin, g) := g.below 2
  if coin = 0 then
    let (n, g) := g.below 4
    (number (Integer.ofUInt64 (UInt64.ofNat n)), g)
  else
    let (name, g) := choose variableNames "x" g
    (variableNamed name, g)

def drawMany {α : Type} (draw : Generator → α × Generator) : Nat → Generator → List α × Generator
  | 0, g => ([], g)
  | count + 1, g =>
      let (a, g) := draw g
      let (rest, g) := drawMany draw count g
      (a :: rest, g)

/-- An expression at most `depth` levels deep, with at most `fanout` operands to
an operator, and at least one. -/
def drawTree (fanout : Nat) : (depth : Nat) → Generator → Value × Generator
  | 0, g => randomLeaf g
  | depth + 1, g =>
      let (die, g) := g.below 4
      if die = 0 then randomLeaf g
      else
        let (more, g) := g.below (max fanout 1)
        let (children, g) := drawMany (drawTree fanout depth) (1 + more) g
        let (op, g) := choose Operator.all .plus g
        (operation op.name children, g)

/-! ## Looks at a table that may fail -/

/-- What draws from a generator, unless it fails. -/
abbrev Drawing := StateT Generator Option

namespace Drawing

def below (upper : Nat) : Drawing Nat := fun g => some (g.below upper)

/-- The member of a table at a random place. -/
def member {α : Type} (table : List α) : Drawing α := do
  let i ← below table.length
  table[i]?

def leaf : Drawing Value := do
  if (← below 2) = 0 then
    let n ← below 4
    return number (Integer.ofUInt64 (UInt64.ofNat n))
  else
    let name ← member variableNames
    return variableNamed name

def many {α : Type} (draw : Drawing α) : Nat → Drawing (List α)
  | 0 => return []
  | count + 1 => do
      let a ← draw
      let rest ← many draw count
      return a :: rest

def tree (fanout : Nat) : (depth : Nat) → Drawing Value
  | 0 => leaf
  | depth + 1 => do
      if (← below 4) = 0 then leaf
      else
        let more ← below (max fanout 1)
        let children ← many (tree fanout depth) (1 + more)
        let op ← member Operator.all
        return operation op.name children

end Drawing

end SubtermIndex.Sample
