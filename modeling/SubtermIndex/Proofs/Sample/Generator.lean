/-
# `SubtermIndex.Proofs.Sample.Generator` — the generator never runs dry

Each of the three steps that move the state on joins a word, by exclusive or, with a copy of
itself that is shifted by at least one place.  No word but 0 is equal to such a copy, since all
its bits leave the word if the shift is repeated.  Hence the state can be told from the next one
(`advance_injective`); and as 0 is followed by 0, it is followed by nothing else.

A call moves the state on by one or not at all, and which of the two does not depend on the state
(`after_eq`).  So what holds of one move holds of any number of calls (`alive_afterAll`).
-/
import SubtermIndex.Sample.Generator
import Mathlib.Logic.Function.Basic
import Mathlib.Logic.Function.Iterate

namespace SubtermIndex.Sample.Generator

/-! ## Words joined with shifted copies of themselves -/

section Shifts

variable {w s : Nat} {z : BitVec w}

/-- A word can be told from its sum with its image under an additive map, if the map leaves
nothing but 0 as it is. -/
theorem xor_map_injective {f : BitVec w → BitVec w} (additive : ∀ x y, f (x ^^^ y) = f x ^^^ f y)
    (unfixed : ∀ z, f z = z → z = 0#w) : Function.Injective fun x => x ^^^ f x := by
  intro x y same
  have same : x ^^^ f x = y ^^^ f y := same
  have fixed : f (x ^^^ y) = x ^^^ y := by
    calc f (x ^^^ y) = x ^^^ (x ^^^ f x) ^^^ f y := by
          rw [additive, ← BitVec.xor_assoc x x, BitVec.xor_self, BitVec.zero_xor]
      _ = x ^^^ (y ^^^ f y) ^^^ f y := by rw [same]
      _ = x ^^^ y := by simp only [BitVec.xor_assoc, BitVec.xor_self, BitVec.xor_zero]
  exact BitVec.xor_eq_zero_iff.mp (unfixed _ fixed)

theorem eq_zero_of_shiftLeft_eq (positive : 0 < s) (fixed : z <<< s = z) : z = 0#w := by
  have repeated (k : Nat) : z <<< (s * k) = z := by
    induction k with
    | zero => exact BitVec.shiftLeft_zero z
    | succ k ih => rw [Nat.mul_succ, BitVec.shiftLeft_add, ih, fixed]
  rw [← repeated w]
  exact BitVec.shiftLeft_eq_zero (Nat.le_mul_of_pos_left w positive)

theorem eq_zero_of_ushiftRight_eq (positive : 0 < s) (fixed : z >>> s = z) : z = 0#w := by
  have repeated (k : Nat) : z >>> (s * k) = z := by
    induction k with
    | zero => exact BitVec.ushiftRight_zero z
    | succ k ih => rw [Nat.mul_succ, BitVec.shiftRight_add, ih, fixed]
  rw [← repeated w]
  exact BitVec.ushiftRight_eq_zero (Nat.le_mul_of_pos_left w positive)

end Shifts

/-! ## One move -/

theorem advance_injective : Function.Injective advance := by
  have right (s : Nat) (positive : 0 < s) :
      Function.Injective fun x : BitVec 64 => x ^^^ x >>> s :=
    xor_map_injective (fun x y => BitVec.ushiftRight_xor_distrib x y s)
      fun _ => eq_zero_of_ushiftRight_eq positive
  have left (s : Nat) (positive : 0 < s) :
      Function.Injective fun x : BitVec 64 => x ^^^ x <<< s :=
    xor_map_injective (fun x y => BitVec.shiftLeft_xor_distrib x y s)
      fun _ => eq_zero_of_shiftLeft_eq positive
  intro x y same
  have bits : (advance x).toBitVec = (advance y).toBitVec := congrArg UInt64.toBitVec same
  have afterTwo := right 27 (by decide) bits
  have afterOne := left 25 (by decide) afterTwo
  exact UInt64.toBitVec_inj.mp (right 12 (by decide) afterOne)

theorem advance_zero : advance 0 = 0 := rfl

/-- The state 0 is not reached from any other one. -/
theorem iterate_advance_ne_zero {x : UInt64} (h : x ≠ 0) (n : Nat) : advance^[n] x ≠ 0 := by
  intro stuck
  rw [← Function.iterate_fixed advance_zero n] at stuck
  exact h (advance_injective.iterate n stuck)

/-- What is handed out is 0 only if the state is: the factor is odd, and a product with its
inverse gives the state back. -/
theorem next_ne_zero {g : Generator} (h : g.state ≠ 0) : g.next.1 ≠ 0 := by
  have back : g.next.1 * 0x59071d96d81ecd35 = advance g.state := by
    -- the two constants are inverse modulo 2 ^ 64
    show advance g.state * 0x2545F4914F6CDD1D * 0x59071d96d81ecd35 = advance g.state
    rw [UInt64.mul_assoc]
    exact UInt64.mul_one _
  intro out
  rw [out, UInt64.zero_mul] at back
  exact iterate_advance_ne_zero h 1 back.symm

theorem state_ofSeed_ne_zero (seed : UInt64) : (ofSeed seed).state ≠ 0 := by
  rw [ofSeed]
  split
  case isTrue => decide
  case isFalse given => exact given

/-! ## Calls -/

/-- A number that is drawn lies below its bound. -/
theorem below_lt {upper : Nat} (positive : 0 < upper) (g : Generator) :
    (g.below upper).1 < upper := by
  rw [below]
  split
  case isTrue => exact positive
  case isFalse => exact Nat.mod_lt _ positive

/-- A call moves the state on, or does nothing. -/
theorem after_eq (g : Generator) (d : Draw) :
    g.after d = if d.moves then ⟨advance g.state⟩ else g := by
  cases d with
  | next => rfl
  | below upper =>
      rw [after, below, Draw.moves]
      by_cases few : upper ≤ 1
      · simp [few, Nat.not_lt_of_le few]
      · simp [few, Nat.lt_of_not_le few, next]

theorem state_afterAll (g : Generator) (draws : List Draw) :
    (g.afterAll draws).state = advance^[draws.countP Draw.moves] g.state := by
  induction draws generalizing g with
  | nil => rfl
  | cons d rest ih =>
      rw [afterAll, List.foldl_cons, ← afterAll, ih, after_eq, List.countP_cons]
      cases d.moves <;> rfl

/-- From whatever seed, and after any calls, the state is not 0, nor is the next number that is
handed out; no two states are followed by the same one; and so no calls lead from two states
to one. -/
theorem alive_afterAll :
    (∀ seed draws, ((ofSeed seed).afterAll draws).state ≠ 0 ∧
        ((ofSeed seed).afterAll draws).next.1 ≠ 0) ∧
      Function.Injective advance ∧
      ∀ draws, Function.Injective fun g : Generator => g.afterAll draws := by
  refine ⟨?_, advance_injective, ?_⟩
  · intro seed draws
    have alive : ((ofSeed seed).afterAll draws).state ≠ 0 := by
      rw [state_afterAll]
      exact iterate_advance_ne_zero (state_ofSeed_ne_zero seed) _
    exact ⟨alive, next_ne_zero alive⟩
  · intro draws g g' same
    have states : (g.afterAll draws).state = (g'.afterAll draws).state := congrArg state same
    rw [state_afterAll, state_afterAll] at states
    have before : g.state = g'.state := advance_injective.iterate _ states
    cases g
    cases g'
    exact congrArg Generator.mk before

end SubtermIndex.Sample.Generator
