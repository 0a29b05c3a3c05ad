import Mathlib.Data.Finset.Card
import Mathlib.Logic.Function.Basic
import Mathlib.Order.Interval.Finset.Nat

/-! First-fit allocation from a fixed number of slots, and how many are left. -/

namespace TitorOS.Lib

def freeSlots (n : Nat) (used : Nat → Bool) : Nat :=
  ((Finset.range n).filter fun i => used i = false).card

def usedSlots (n : Nat) (used : Nat → Bool) : Nat :=
  ((Finset.range n).filter fun i => used i = true).card

theorem usedSlots_add_freeSlots (n : Nat) (used : Nat → Bool) :
    usedSlots n used + freeSlots n used = n := by
  have parts := Finset.card_filter_add_card_filter_not (s := Finset.range n) fun i => used i = true
  simp only [Bool.not_eq_true, Finset.card_range] at parts
  exact parts

def firstFree (n : Nat) (used : Nat → Bool) : Option Nat := (List.range n).find? fun i => !used i

theorem firstFree_some {n : Nat} {used : Nat → Bool} {i : Nat} (found : firstFree n used = some i) :
    i < n ∧ used i = false := by
  have inside := List.mem_range.mp (List.mem_of_find?_eq_some found)
  have free := List.find?_some found
  exact ⟨inside, by simpa using free⟩

theorem firstFree_below {n : Nat} {used : Nat → Bool} {i : Nat} (found : firstFree n used = some i)
    {j : Nat} (below : j < i) : used j = true := by
  have taken := (List.find?_range_eq_some.mp found).2.2 j below
  simpa using taken

theorem firstFree_none_iff (n : Nat) (used : Nat → Bool) :
    firstFree n used = none ↔ freeSlots n used = 0 := by
  simp [firstFree, freeSlots, Finset.filter_eq_empty_iff]

theorem freeSlots_congr {n : Nat} {used used' : Nat → Bool} (same : ∀ i < n, used i = used' i) :
    freeSlots n used = freeSlots n used' := by
  rw [freeSlots, freeSlots]
  congr 1
  apply Finset.filter_congr
  intro i inside
  rw [same i (Finset.mem_range.mp inside)]

theorem exists_free {n : Nat} {used : Nat → Bool} (room : 0 < freeSlots n used) :
    ∃ i < n, used i = false := by
  rcases Finset.card_pos.mp room with ⟨i, member⟩
  rcases Finset.mem_filter.mp member with ⟨inside, free⟩
  exact ⟨i, Finset.mem_range.mp inside, free⟩

theorem freeSlots_take {n : Nat} {used : Nat → Bool} {i : Nat} (inside : i < n)
    (free : used i = false) :
    freeSlots n (Function.update used i true) + 1 = freeSlots n used := by
  have erased : (Finset.range n).filter (fun j => Function.update used i true j = false) =
      ((Finset.range n).filter fun j => used j = false).erase i := by
    ext j
    by_cases same : j = i
    · simp [same]
    · simp [same]
  have member : i ∈ (Finset.range n).filter fun j => used j = false := by
    simp [inside, free]
  rw [freeSlots, erased, Finset.card_erase_add_one member, freeSlots]

theorem freeSlots_give {n : Nat} {used : Nat → Bool} {i : Nat} (inside : i < n)
    (taken : used i = true) :
    freeSlots n (Function.update used i false) = freeSlots n used + 1 := by
  have back := freeSlots_take inside (show Function.update used i false i = false by simp)
  rw [Function.update_idem, ← taken, Function.update_eq_self] at back
  exact back.symm

/-- The slots from `count` on are free. -/
theorem freeSlots_from (n count : Nat) : freeSlots n (fun i => decide (i < count)) = n - count := by
  have same : (Finset.range n).filter (fun i => decide (i < count) = false) =
      Finset.Ico count n := by
    ext i
    simp only [Finset.mem_filter, Finset.mem_range, Finset.mem_Ico, decide_eq_false_iff_not]
    omega
  rw [freeSlots, same, Nat.card_Ico]

end TitorOS.Lib
