import Mathlib.Data.Nat.Digits.Defs

/-! Numerals of a fixed width, most significant digit first, and the canonical ones that
are left when leading zeros are stripped. -/

namespace TitorOS.Lib

/-- The last `width` digits of a number. -/
def fixedDigits (b : Nat) : Nat → Nat → List Nat
  | 0, _ => []
  | width + 1, n => n / b ^ width % b :: fixedDigits b width n

/-- Without leading zeros, but for the number 0 itself. -/
def numeral (b n : Nat) : List Nat := if n = 0 then [0] else (b.digits n).reverse

/-- At most `most` zeros are counted. -/
def leadingZeros : Nat → List Nat → Nat
  | most + 1, 0 :: rest => leadingZeros most rest + 1
  | _, _ => 0

theorem fixedDigits_length (b width n : Nat) : (fixedDigits b width n).length = width := by
  induction width with
  | zero => rfl
  | succ width ih => rw [fixedDigits, List.length_cons, ih]

theorem fixedDigits_lt (b width n d : Nat) (positive : 0 < b) (member : d ∈ fixedDigits b width n) :
    d < b := by
  induction width with
  | zero => cases member
  | succ width ih =>
      rcases List.mem_cons.mp member with rfl | inside
      · exact Nat.mod_lt _ positive
      · exact ih inside

theorem leadingZeros_le (most : Nat) (digits : List Nat) :
    leadingZeros most digits ≤ digits.length := by
  fun_induction leadingZeros most digits with
  | case1 most rest ih =>
      rw [List.length_cons]
      omega
  | case2 => exact Nat.zero_le _

theorem fixedDigits_snoc (b width n : Nat) :
    fixedDigits b (width + 1) n = fixedDigits b width (n / b) ++ [n % b] := by
  induction width with
  | zero => simp [fixedDigits]
  | succ width ih =>
      rw [fixedDigits, ih, fixedDigits, List.cons_append, Nat.div_div_eq_div_mul, Nat.pow_succ']

theorem fixedDigits_mod (b width n : Nat) :
    fixedDigits b width (n % b ^ width) = fixedDigits b width n := by
  induction width generalizing n with
  | zero => rfl
  | succ width ih =>
      rw [fixedDigits_snoc, fixedDigits_snoc, Nat.pow_succ', Nat.mod_mul_right_div_self, ih,
        Nat.mod_mul_right_mod]

theorem fixedDigits_pairs (b width n : Nat) :
    fixedDigits b (2 * width) n =
      (fixedDigits (b * b) width n).flatMap fun d => [d / b, d % b] := by
  induction width generalizing n with
  | zero => rfl
  | succ width ih =>
      rw [Nat.mul_succ, fixedDigits_snoc, fixedDigits_snoc, fixedDigits_snoc (b * b), ih,
        List.flatMap_append, Nat.div_div_eq_div_mul, List.append_assoc, List.flatMap_singleton,
        Nat.mod_mul_right_div_self, Nat.mod_mul_right_mod]
      rfl

theorem pairs_getElem {α : Type*} (high low : Nat → α) (digits : List Nat) (k : Nat)
    (inside : k < digits.length) :
    (digits.flatMap fun d => [high d, low d])[2 * k]? = some (high digits[k]) ∧
      (digits.flatMap fun d => [high d, low d])[2 * k + 1]? = some (low digits[k]) := by
  induction digits generalizing k with
  | nil => exact absurd inside k.not_lt_zero
  | cons d rest ih =>
      cases k with
      | zero => exact ⟨rfl, rfl⟩
      | succ k => exact ih k (by simpa using inside)

theorem pairs_drop {α : Type*} (high low : Nat → α) (digits : List Nat) (k : Nat) :
    (digits.flatMap fun d => [high d, low d]).drop (2 * k) =
      (digits.drop k).flatMap fun d => [high d, low d] := by
  induction k generalizing digits with
  | zero => rfl
  | succ k ih =>
      cases digits with
      | nil => simp
      | cons d rest => exact ih rest

theorem fixedDigits_full (b width n : Nat) (base : 1 < b) (least : b ^ width ≤ n)
    (bound : n < b ^ (width + 1)) : fixedDigits b (width + 1) n = (b.digits n).reverse := by
  have positive : 0 < n := lt_of_lt_of_le (Nat.pow_pos (by omega)) least
  induction width generalizing n with
  | zero =>
      rw [Nat.pow_one] at bound
      rw [Nat.digits_of_lt b n positive.ne' bound]
      simp [fixedDigits, Nat.mod_eq_of_lt bound]
  | succ width ih =>
      have least' : b ^ width ≤ n / b := by
        rw [Nat.le_div_iff_mul_le (by omega), ← Nat.pow_succ]
        exact least
      have bound' : n / b < b ^ (width + 1) := by
        rw [Nat.div_lt_iff_lt_mul (by omega), ← Nat.pow_succ]
        exact bound
      have positive' : 0 < n / b := lt_of_lt_of_le (Nat.pow_pos (by omega)) least'
      rw [fixedDigits_snoc, ih (n / b) least' bound' positive', Nat.digits_def' base positive,
        List.reverse_cons]

/-- What is left after the leading zeros, of which one must stay. -/
theorem fixedDigits_drop (b width n : Nat) (base : 1 < b) (bound : n < b ^ (width + 1)) :
    (fixedDigits b (width + 1) n).drop (leadingZeros width (fixedDigits b (width + 1) n)) =
      numeral b n := by
  induction width with
  | zero =>
      rw [Nat.pow_one] at bound
      by_cases zero : n = 0
      · simp [zero, fixedDigits, leadingZeros, numeral]
      · rw [numeral, if_neg zero, Nat.digits_of_lt b n zero bound]
        simp [fixedDigits, leadingZeros, Nat.mod_eq_of_lt bound]
  | succ width ih =>
      by_cases small : n < b ^ (width + 1)
      · have zero : n / b ^ (width + 1) % b = 0 := by rw [Nat.div_eq_of_lt small, Nat.zero_mod]
        rw [fixedDigits, zero, leadingZeros, List.drop_succ_cons]
        exact ih small
      · have least : b ^ (width + 1) ≤ n := Nat.le_of_not_lt small
        have positive : n ≠ 0 := (lt_of_lt_of_le (Nat.pow_pos (by omega)) least).ne'
        have first : n / b ^ (width + 1) % b ≠ 0 := by
          have quotient : n / b ^ (width + 1) < b := by
            rw [Nat.div_lt_iff_lt_mul (Nat.pow_pos (by omega)), ← Nat.pow_succ']
            exact bound
          rw [Nat.mod_eq_of_lt quotient]
          exact (Nat.div_pos least (Nat.pow_pos (by omega))).ne'
        have noneZero : leadingZeros (width + 1) (fixedDigits b (width + 2) n) = 0 := by
          rw [fixedDigits, leadingZeros]
          intro most rest _ zero
          exact first (List.cons.inj zero).1
        rw [noneZero, List.drop_zero, numeral, if_neg positive]
        exact fixedDigits_full b (width + 1) n base least bound

theorem fixedDigits_eq_map (b width n : Nat) :
    fixedDigits b width n = (List.range width).map fun j => n / b ^ (width - 1 - j) % b := by
  induction width with
  | zero => rfl
  | succ width ih =>
      rw [fixedDigits, ih, List.range_succ_eq_map, List.map_cons, List.map_map]
      refine congrArg (_ :: ·) (List.map_congr_left fun j _ => ?_)
      rw [Function.comp_apply, Nat.succ_sub_one, Nat.succ_eq_add_one, Nat.sub_sub, Nat.add_comm 1]

theorem fixedDigits_value (b width n : Nat) :
    (fixedDigits b width n).foldl (fun value d => value * b + d) 0 = n % b ^ width := by
  induction width generalizing n with
  | zero => simp [fixedDigits, Nat.mod_one]
  | succ width ih =>
      rw [fixedDigits_snoc, List.foldl_append, ih, Nat.pow_succ', Nat.mod_mul, Nat.add_comm,
        Nat.mul_comm b]
      rfl

end TitorOS.Lib
