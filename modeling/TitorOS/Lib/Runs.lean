import Mathlib.Data.List.Range
import Mathlib.Data.Nat.Find
import Mathlib.Tactic.Common

/-! The maximal runs between the gaps of a row of places, and the order they come in. -/

namespace TitorOS.Lib

/-- The `n` places from `k` on are a run that no gap interrupts and that cannot be made longer. -/
structure MaximalRun (gap : Nat → Prop) (size k n : Nat) : Prop where
  nonempty : 0 < n
  inside : k + n ≤ size
  solid : ∀ i, k ≤ i → i < k + n → ¬ gap i
  left : k = 0 ∨ gap (k - 1)
  right : k + n = size ∨ gap (k + n)

/-- A run starts here. -/
def Starts (gap : Nat → Prop) (k : Nat) : Prop := ¬ gap k ∧ (k = 0 ∨ gap (k - 1))

section

variable {gap : Nat → Prop} [DecidablePred gap] {size : Nat}

instance (k : Nat) : Decidable (Starts gap k) := inferInstanceAs (Decidable (_ ∧ _))

/-- Where the runs from `k` on start. -/
def startsFrom (gap : Nat → Prop) [DecidablePred gap] (size k : Nat) : List Nat :=
  (List.range' k (size - k)).filter fun i => Starts gap i

omit [DecidablePred gap] in
theorem MaximalRun.starts {k n : Nat} (run : MaximalRun gap size k n) : Starts gap k :=
  ⟨run.solid k le_rfl (Nat.lt_add_of_pos_right run.nonempty), run.left⟩

theorem Starts.run {k : Nat} (starts : Starts gap k) (inside : k < size) :
    ∃ n, MaximalRun gap size k n := by
  have ends : ∃ n, k + n = size ∨ gap (k + n) := ⟨size - k, by omega⟩
  refine ⟨Nat.find ends, ?_, ?_, ?_, starts.2, Nat.find_spec ends⟩
  · apply Nat.pos_of_ne_zero
    intro zero
    have stops := Nat.find_spec ends
    rw [zero, Nat.add_zero] at stops
    exact stops.elim (Nat.ne_of_lt inside) starts.1
  · have most := Nat.find_min' ends (.inl (Nat.add_sub_cancel' inside.le))
    omega
  · intro i low high isGap
    have before := Nat.find_min ends (m := i - k) (by omega)
    rw [Nat.add_sub_cancel' low] at before
    exact before (.inr isGap)

theorem startsFrom_end {k : Nat} (outside : size ≤ k) : startsFrom gap size k = [] := by
  rw [startsFrom, Nat.sub_eq_zero_of_le outside]
  rfl

theorem startsFrom_start {k : Nat} (starts : Starts gap k) (inside : k < size) :
    startsFrom gap size k = k :: startsFrom gap size (k + 1) := by
  have length : size - k = size - (k + 1) + 1 := by omega
  rw [startsFrom, length, List.range'_succ, List.filter_cons_of_pos (by simpa using starts),
    startsFrom]

theorem startsFrom_next {k : Nat} (none : k < size → ¬ Starts gap k) :
    startsFrom gap size k = startsFrom gap size (k + 1) := by
  by_cases inside : k < size
  · have length : size - k = size - (k + 1) + 1 := by omega
    rw [startsFrom, length, List.range'_succ, List.filter_cons_of_neg (by simpa using none inside),
      startsFrom]
  · rw [startsFrom_end (by omega), startsFrom_end (by omega)]

theorem startsFrom_skip {k l : Nat} (order : k ≤ l) (none : ∀ i, k ≤ i → i < l → ¬ Starts gap i) :
    startsFrom gap size k = startsFrom gap size l := by
  induction l, order using Nat.le_induction with
  | base => rfl
  | succ l order ih =>
      rw [ih fun i low high => none i low (by omega)]
      exact startsFrom_next fun _ => none l order (Nat.lt_succ_self l)

theorem MaximalRun.startsFrom_eq {k n : Nat} (run : MaximalRun gap size k n) :
    startsFrom gap size k = k :: startsFrom gap size (k + n + 1) := by
  have within : k < size := lt_of_lt_of_le (Nat.lt_add_of_pos_right run.nonempty) run.inside
  have run_ : startsFrom gap size (k + 1) = startsFrom gap size (k + n) := by
    apply startsFrom_skip (Nat.add_le_add_left run.nonempty k)
    intro i low high starts
    rcases starts.2 with zero | before
    · omega
    · exact run.solid (i - 1) (by omega) (by omega) before
  have end_ : startsFrom gap size (k + n) = startsFrom gap size (k + n + 1) := by
    apply startsFrom_next
    intro more starts
    exact run.right.elim (Nat.ne_of_lt more) starts.1
  rw [startsFrom_start run.starts within, run_, end_]

theorem startsFrom_sorted (k : Nat) : (startsFrom gap size k).Pairwise (· < ·) :=
  List.Pairwise.filter _ List.pairwise_lt_range'

theorem mem_startsFrom_zero {k : Nat} :
    k ∈ startsFrom gap size 0 ↔ ∃ n, MaximalRun gap size k n := by
  rw [startsFrom, List.mem_filter, List.mem_range'_1, decide_eq_true_eq]
  constructor
  · rintro ⟨⟨_, inside⟩, starts⟩
    exact starts.run (by omega)
  · rintro ⟨n, run⟩
    have inside := run.inside
    have nonempty := run.nonempty
    exact ⟨⟨Nat.zero_le k, by omega⟩, run.starts⟩

end

end TitorOS.Lib
