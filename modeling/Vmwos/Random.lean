import Mathlib.Algebra.Ring.Parity
import Mathlib.Data.Nat.Prime.Basic
import Vmwos.Runs

/-!
# The random numbers of vlibc

`rand` squares the previous number, adds the next term of a Weyl sequence and rotates the
sum. The increment `s` of the sequence is set by `srand`.

Result: `weyl_full_length`. After any calls of `srand` and `rand` the increment is odd, and
2^32 further calls of `rand` take the sequence through 2^32 different values.
-/

namespace Vmwos.Random

open Runs

/-! ## Definitions -/

/-- The static variables of `random.c`. -/
structure Generator where
  s : UInt32
  x : UInt32
  w : UInt32
  deriving DecidableEq

def initial : Generator := { s := 0xDA1CE2A9, x := 0, w := 0 }

def rand (g : Generator) : UInt16 × Generator :=
  let w := g.w + g.s
  let sum := g.x * g.x + w
  let x := (sum >>> 16) ||| (sum <<< 16)
  (x.toUInt16, { g with x, w })

/-- The state after one call of `rand`. -/
def next (g : Generator) : Generator := (rand g).2

/-- `srand` replaces the low half of the increment and draws four numbers. -/
def srand (seed : UInt16) (g : Generator) : Generator :=
  next (next (next (next { g with s := (g.s &&& 0xffff0000) ||| seed.toUInt32 ||| 1 })))

inductive Call
  | srand (seed : UInt16)
  | rand

def step (g : Generator) : Call → Option Generator
  | .srand seed => some (srand seed g)
  | .rand => some (next g)

/-- Any 2^32 consecutive calls of `rand` leave different values in `w`, so different states. -/
def FullLength (g : Generator) : Prop :=
  ∀ i j, i < j → j < i + 2 ^ 32 →
    (next^[i] g).w ≠ (next^[j] g).w ∧
      ((next^[i] g).x, (next^[i] g).w) ≠ ((next^[j] g).x, (next^[j] g).w)

/-! ## The increment -/

variable {g : Generator}

@[simp] theorem next_w (g : Generator) : (next g).w = g.w + g.s := rfl

theorem odd_or_one (a : UInt32) : Odd (a ||| 1).toNat := by
  rw [UInt32.toNat_or, Nat.odd_iff]
  simp [Nat.or_mod_two_eq_one]

/-- The invariant: `srand` sets the lowest bit, and `rand` keeps the increment. -/
theorem odd_step {g' : Generator} {c : Call} (hs : Odd g.s.toNat) (h : step g c = some g') :
    Odd g'.s.toNat := by
  cases c with
  | srand seed =>
    cases h
    exact odd_or_one _
  | rand =>
    cases h
    exact hs

/-! ## The sequence -/

theorem iterate_next (g : Generator) (k : Nat) :
    (next^[k] g).s = g.s ∧ (next^[k] g).w = g.w + UInt32.ofNat k * g.s := by
  induction k with
  | zero => simp
  | succ k ih =>
    obtain ⟨hs, hw⟩ := ih
    rw [Function.iterate_succ_apply']
    refine ⟨hs, ?_⟩
    rw [next_w, hs, hw, UInt32.ofNat_add, UInt32.add_mul, UInt32.add_assoc]
    simp

/-- Odd multiples are injective modulo 2^32: a multiple of an odd number that is a multiple
of 2^32 is one of the other factor. -/
theorem dvd_of_odd_mul {s k : Nat} (hs : Odd s) (h : 2 ^ 32 ∣ k * s) : 2 ^ 32 ∣ k :=
  Nat.Coprime.dvd_of_dvd_mul_right (Nat.Coprime.pow_left 32 (Nat.coprime_two_left.mpr hs)) h

theorem fullLength_of_odd (hs : Odd g.s.toNat) : FullLength g := by
  intro i j hij hj
  have hw : (next^[i] g).w ≠ (next^[j] g).w := by
    intro heq
    obtain ⟨k, rfl⟩ := Nat.exists_eq_add_of_lt hij
    rw [(iterate_next g i).2, (iterate_next g _).2, UInt32.add_right_inj, Nat.add_assoc,
      UInt32.ofNat_add, UInt32.add_mul] at heq
    -- the terms between the two calls sum to 0
    have hzero : UInt32.ofNat (k + 1) * g.s = 0 := (UInt32.add_eq_left).mp heq.symm
    have hdvd : 2 ^ 32 ∣ (k + 1) * g.s.toNat := by
      have hnat := congrArg UInt32.toNat hzero
      rw [UInt32.toNat_mul, UInt32.toNat_ofNat', Nat.mod_mul_mod] at hnat
      exact Nat.dvd_of_mod_eq_zero hnat
    have hle := Nat.le_of_dvd (Nat.succ_pos k) (dvd_of_odd_mul hs hdvd)
    omega
  refine ⟨hw, fun heq => hw ?_⟩
  exact congrArg Prod.snd heq

/-- After any sequence of calls of `srand` and `rand`, the increment is odd, and no 2^32
consecutive calls of `rand` repeat a value of `w` or a state. -/
theorem weyl_full_length (calls : List Call) :
    AllStates step (fun g => Odd g.s.toNat ∧ FullLength g) initial calls := by
  have hinitial : Odd initial.s.toNat := by decide
  refine AllStates.of_inv (I := fun g => Odd g.s.toNat) (C := fun _ _ => True) ?_ ?_ hinitial
    (AllSteps.all fun _ _ => trivial)
  · rintro g c g' hs - h
    exact odd_step hs h
  · intro g hs
    exact ⟨hs, fullLength_of_odd hs⟩

end Vmwos.Random
