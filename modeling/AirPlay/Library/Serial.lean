import Mathlib.Data.Int.ModEq
import Mathlib.Algebra.Ring.Int.Defs

/-! Counters that wrap.

A `w`-bit counter shows an unbounded position modulo `2 ^ w`. Differences of
counters are differences of positions as long as the positions are near each
other, and that is all a comparison of two counters can rely on. -/

namespace Serial
variable {w : Nat}

/-- What a `w`-bit counter shows at an unbounded position. -/
def wrap (w : Nat) (p : Int) : BitVec w := BitVec.ofInt w p

theorem two_pow_cast : ((2 ^ w : Nat) : Int) = 2 ^ w := by push_cast; rfl

theorem two_pow_pos : (0 : Int) < (2 ^ w : Nat) := Int.natCast_pos.mpr (Nat.two_pow_pos w)

theorem wrap_toNat (p : Int) : (wrap w p).toNat = (p % (2 ^ w : Nat)).toNat :=
  BitVec.toNat_ofInt p

theorem wrap_add (p q : Int) : wrap w (p + q) = wrap w p + wrap w q :=
  BitVec.ofInt_add p q

theorem wrap_natCast (n : Nat) : wrap w n = BitVec.ofNat w n :=
  BitVec.ofInt_natCast w n

theorem wrap_add_nat (p : Int) (n : Nat) : wrap w (p + n) = wrap w p + BitVec.ofNat w n := by
  rw [wrap_add, wrap_natCast]

theorem wrap_sub (p q : Int) : wrap w (p - q) = wrap w p - wrap w q := by
  rw [Int.sub_eq_add_neg, wrap_add, BitVec.sub_eq_add_neg]
  congr 1
  exact BitVec.ofInt_neg

/-- Two positions show alike exactly when they differ by a multiple of `2 ^ w`. -/
theorem wrap_eq_iff (p q : Int) : wrap w p = wrap w q ↔ (2 ^ w : Int) ∣ p - q := by
  rw [← BitVec.toNat_inj, wrap_toNat, wrap_toNat, ← two_pow_cast]
  have hp := Int.emod_nonneg p (two_pow_pos (w := w)).ne'
  have hq := Int.emod_nonneg q (two_pow_pos (w := w)).ne'
  constructor
  · intro h
    have hmod : q ≡ p [ZMOD (2 ^ w : Nat)] := show q % _ = p % _ by omega
    exact Int.modEq_iff_dvd.mp hmod
  · intro h
    have hmod : q % (2 ^ w : Nat) = p % (2 ^ w : Nat) := Int.modEq_iff_dvd.mpr h
    rw [hmod]

/-- A difference of counters reads a forward distance below `2 ^ w`. -/
theorem wrap_sub_toNat {p q : Int} (hle : p ≤ q) (hlt : q - p < 2 ^ w) :
    (wrap w q - wrap w p).toNat = (q - p).toNat := by
  rw [← wrap_sub, wrap_toNat]
  rw [Int.emod_eq_of_lt (by omega) (by rw [two_pow_cast]; exact hlt)]

/-- A backward distance reads as its complement. -/
theorem wrap_sub_toNat_back {p q : Int} (hlt : q < p) (hle : p - q ≤ 2 ^ w) :
    (wrap w q - wrap w p).toNat = (2 ^ w - (p - q)).toNat := by
  rw [← wrap_sub, wrap_toNat]
  have hshift : (q - p) % ((2 ^ w : Nat) : Int) = 2 ^ w - (p - q) := by
    rw [← Int.add_emod_right, Int.emod_eq_of_lt] <;> rw [two_pow_cast] <;> omega
  rw [hshift]

/-- Near positions that show alike are equal. -/
theorem wrap_inj {p q : Int} (hpq : p - q < 2 ^ w) (hqp : q - p < 2 ^ w)
    (h : wrap w p = wrap w q) : p = q := by
  obtain ⟨k, hk⟩ := (wrap_eq_iff p q).mp h
  have hpos : (0 : Int) < 2 ^ w := two_pow_cast (w := w) ▸ two_pow_pos
  have hk0 : k = 0 := by
    have hlt : k < 1 := Int.lt_of_mul_lt_mul_left (by rw [← hk, Int.mul_one]; exact hpq) hpos.le
    have hgt : -1 < k := Int.lt_of_mul_lt_mul_left (by rw [← hk, Int.mul_neg_one]; omega) hpos.le
    omega
  rw [hk0, Int.mul_zero] at hk
  omega

/-- A difference read as a signed number is the distance, forward or back, of positions
within half the range. -/
theorem wrap_sub_signed {p q : Int} (hlo : -2 ^ 31 ≤ p - q) (hhi : p - q < 2 ^ 31) :
    (if (wrap 32 p - wrap 32 q).toNat ≤ 0x7fffffff then ((wrap 32 p - wrap 32 q).toNat : Int)
      else (wrap 32 p - wrap 32 q).toNat - 0x100000000) = p - q := by
  by_cases hle : q ≤ p
  · rw [wrap_sub_toNat hle (by omega), if_pos (by omega)]
    omega
  · rw [wrap_sub_toNat_back (by omega) (by omega), if_neg (by omega)]
    omega

end Serial
