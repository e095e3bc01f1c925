/-
# `SubtermIndex.PairSet.Updates` — sets of pairs that grow, with the answers they give

A set grows by a single pair or by all pairs of another set.  Either update answers what was new:
a pair is entered on one side first, and only a pair that is new there is entered on the other
side and counted.

`Update.all` runs a row of updates on anything that can be updated.  Here that is a family of
sets; what such a row does to a family of finite sets is said in the same terms, so that the two
can be compared step by step.
-/
import SubtermIndex.PairSet
import Mathlib.Logic.Function.Basic

namespace SubtermIndex.PairSet

open Std

variable {α β : Type} [Ord α] [Ord β] [TransOrd α] [TransOrd β]

def addPair (r : PairSet α β) (a : α) (b : β) : Bool × PairSet α β :=
  let isNew := !Groups.hasMember r.forward a b
  let forward := Groups.addMember r.forward a b
  if isNew then
    (true, { forward, backward := Groups.addMember r.backward b a, size := r.size + 1 })
  else (false, { r with forward })

/-- Adds pairs one after another; `count` is the number of those that were new so far. -/
def addEach : List (α × β) → (count : Nat) → PairSet α β → Nat × PairSet α β
  | [], count, r => (count, r)
  | (a, b) :: rest, count, r =>
      match r.addPair a b with
      | (true, r) => addEach rest (count + 1) r
      | (false, r) => addEach rest count r

/-- Adds every pair of another set, and says how many of them are new. -/
def extend (r other : PairSet α β) : Nat × PairSet α β := addEach other.toList 0 r

/-! ## Rows of updates -/

/-- An update of one among several sets, which are known by their numbers. -/
inductive Update (α β : Type) where
  | add (i : Nat) (a : α) (b : β)
  | extend (i other : Nat)

/-- What an update answers. -/
inductive Answer where
  | isNew (new : Bool)
  | newPairs (count : Nat)
  deriving DecidableEq

namespace Update

def perform : Update α β → (Nat → PairSet α β) → Answer × (Nat → PairSet α β)
  | .add i a b, family =>
      let (new, r) := (family i).addPair a b
      (.isNew new, Function.update family i r)
  | .extend i other, family =>
      let (count, r) := (family i).extend (family other)
      (.newPairs count, Function.update family i r)

/-- Performs updates one after another, and collects what they answer. -/
def all {α β σ : Type} (perform : Update α β → σ → Answer × σ) :
    List (Update α β) → σ → List Answer × σ
  | [], state => ([], state)
  | update :: rest, state =>
      let (answer, state) := perform update state
      let (answers, state) := all perform rest state
      (answer :: answers, state)

end Update

end SubtermIndex.PairSet
