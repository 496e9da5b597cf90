import Mathlib.Algebra.Ring.Int.Defs
import Mathlib.Algebra.Order.Ring.Int

/-! Signed arithmetic of a fixed width, and shifts.

A result that does not fit has no meaning, nor has a shift by the width or more: what is
computed with it is not defined either. A computation that is shown to have a value has
therefore not overflowed. -/
namespace Checked

/-- The numbers of `w` bits, one of which is the sign. -/
def Fits (w : Nat) (x : Int) : Prop := -2 ^ (w - 1) ≤ x ∧ x < 2 ^ (w - 1)

instance (w : Nat) (x : Int) : Decidable (Fits w x) :=
  inferInstanceAs (Decidable (_ ∧ _))

/-- A result, where it fits. -/
def result (w : Nat) (x : Int) : Option Int := if Fits w x then some x else none

def add (w : Nat) (x y : Int) : Option Int := result w (x + y)

def sub (w : Nat) (x y : Int) : Option Int := result w (x - y)

def mul (w : Nat) (x y : Int) : Option Int := result w (x * y)

/-- An unsigned number shifted to the left. -/
def shl (w x n : Nat) : Option Nat := if n < w then some (x * 2 ^ n % 2 ^ w) else none

variable {w : Nat} {x y : Int}

theorem shl_one {n : Nat} (h : n < w) : shl w 1 n = some (2 ^ n) := by
  rw [shl, if_pos h, Nat.one_mul, Nat.mod_eq_of_lt (Nat.pow_lt_pow_right (by decide) h)]

theorem result_eq (h : Fits w x) : result w x = some x := if_pos h

theorem add_eq (h : Fits w (x + y)) : add w x y = some (x + y) := result_eq h

theorem sub_eq (h : Fits w (x - y)) : sub w x y = some (x - y) := result_eq h

theorem mul_eq (h : Fits w (x * y)) : mul w x y = some (x * y) := result_eq h

theorem add_eq_none_iff : add w x y = none ↔ ¬ Fits w (x + y) := by
  rw [add, result]
  split
  · rename_i h
    exact iff_of_false (Option.some_ne_none _) (not_not_intro h)
  · rename_i h
    exact iff_of_true rfl h

end Checked
