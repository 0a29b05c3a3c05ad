import Mathlib.Data.Nat.Bitwise
import Mathlib.Tactic

/-! Masks of 32-bit words as arithmetic on their values. -/

namespace TitorOS.Lib

theorem toNat_and_one (w : UInt32) : (w &&& 1).toNat = w.toNat % 2 := by
  rw [UInt32.toNat_and, UInt32.toNat_one, Nat.and_one_is_mod]

theorem and_one_eq_one (w : UInt32) : w &&& 1 = 1 ↔ w.toNat % 2 = 1 := by
  rw [← UInt32.toNat_inj, toNat_and_one, UInt32.toNat_one]

theorem toNat_or_one (w : UInt32) (even : w.toNat % 2 = 0) : (w ||| 1).toNat = w.toNat + 1 := by
  rw [UInt32.toNat_or, UInt32.toNat_one]
  have low : (w.toNat ||| 1) % 2 = 1 := by
    have bits := Nat.or_mod_two_pow (a := w.toNat) (b := 1) (n := 1)
    rw [Nat.pow_one, even] at bits
    exact bits
  have high : (w.toNat ||| 1) / 2 = w.toNat / 2 := by
    have bits := Nat.or_div_two_pow (a := w.toNat) (b := 1) (n := 1)
    rw [Nat.pow_one, show 1 / 2 = 0 from rfl, Nat.or_zero] at bits
    exact bits
  omega

/-- Clearing the low `k` bits. -/
theorem toNat_and_high (w mask : UInt32) (k : Nat) (small : k ≤ 32)
    (value : mask.toNat = 2 ^ 32 - 2 ^ k) : (w &&& mask).toNat = w.toNat / 2 ^ k * 2 ^ k := by
  have positive : 0 < 2 ^ k := Nat.two_pow_pos k
  have factor : 2 ^ 32 - 2 ^ k = (2 ^ (32 - k) - 1) * 2 ^ k := by
    rw [Nat.sub_mul, ← Nat.pow_add, Nat.sub_add_cancel small, Nat.one_mul]
  have high := Nat.and_div_two_pow (a := w.toNat) (b := 2 ^ 32 - 2 ^ k) (n := k)
  have low := Nat.and_mod_two_pow (a := w.toNat) (b := 2 ^ 32 - 2 ^ k) (n := k)
  rw [UInt32.toNat_and, value]
  rw [factor] at high low ⊢
  rw [Nat.mul_div_cancel _ positive, Nat.and_two_pow_sub_one_eq_mod] at high
  rw [Nat.mul_mod_left, Nat.and_zero] at low
  have bound : w.toNat / 2 ^ k < 2 ^ (32 - k) := by
    rw [Nat.div_lt_iff_lt_mul positive, ← Nat.pow_add, Nat.sub_add_cancel small]
    exact w.toNat_lt
  rw [Nat.mod_eq_of_lt bound] at high
  rw [← high]
  exact (Nat.div_mul_cancel (Nat.dvd_of_mod_eq_zero low)).symm

theorem ne_zero_of_toNat_pos {w : UInt32} (positive : 0 < w.toNat) : w ≠ 0 := by
  rintro rfl
  exact absurd positive (by decide)

theorem toNat_add_of_lt (a b : UInt32) (bound : a.toNat + b.toNat < 2 ^ 32) :
    (a + b).toNat = a.toNat + b.toNat := by
  rw [UInt32.toNat_add, Nat.mod_eq_of_lt bound]

theorem toNat_sub_of_le (a b : UInt32) (order : b.toNat ≤ a.toNat) :
    (a - b).toNat = a.toNat - b.toNat := by
  have bound := a.toNat_lt
  rw [UInt32.toNat_sub]
  omega

end TitorOS.Lib
