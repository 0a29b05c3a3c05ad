import Mathlib.Order.Basic
import Mathlib.Tactic.Common

/-! The first number from a start on that passes a test, within a bound. -/

namespace TitorOS.Lib

def firstFrom (test : Nat → Bool) : Nat → Nat → Option Nat
  | 0, _ => none
  | fuel + 1, i => if test i then some i else firstFrom test fuel (i + 1)

theorem firstFrom_some (test : Nat → Bool) (fuel i n : Nat)
    (found : firstFrom test fuel i = some n) :
    i ≤ n ∧ n < i + fuel ∧ test n = true ∧ ∀ j, i ≤ j → j < n → test j = false := by
  induction fuel generalizing i with
  | zero => cases found
  | succ fuel ih =>
      rw [firstFrom] at found
      split at found
      · rename_i here
        cases found
        exact ⟨Nat.le_refl _, by omega, here, fun j low high => by omega⟩
      · rename_i elsewhere
        rcases ih (i + 1) found with ⟨low, high, passes, earlier⟩
        refine ⟨by omega, by omega, passes, ?_⟩
        intro j from_i below
        by_cases first : j = i
        · rw [first]
          simpa using elsewhere
        · exact earlier j (by omega) below

theorem firstFrom_none (test : Nat → Bool) (fuel i : Nat) (found : firstFrom test fuel i = none) :
    ∀ j, i ≤ j → j < i + fuel → test j = false := by
  induction fuel generalizing i with
  | zero =>
      intro j low high
      omega
  | succ fuel ih =>
      rw [firstFrom] at found
      split at found
      · cases found
      · rename_i elsewhere
        intro j low high
        by_cases first : j = i
        · rw [first]
          simpa using elsewhere
        · exact ih (i + 1) found j (by omega) (by omega)

end TitorOS.Lib
