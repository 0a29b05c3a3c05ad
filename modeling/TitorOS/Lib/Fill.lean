import Mathlib.Logic.Function.Basic
import Mathlib.Order.Basic

/-! Loops that store one value after another. -/

namespace TitorOS.Lib

variable {α β : Type*} [DecidableEq α]

/-- The first `n` rounds; round `i` stores `value i` at `place i`. -/
def fill (place : Nat → α) (value : Nat → β) : Nat → (α → β) → α → β
  | 0, mem => mem
  | n + 1, mem => Function.update (fill place value n mem) (place n) (value n)

theorem fill_outside (place : Nat → α) (value : Nat → β) (n : Nat) (mem : α → β) (a : α)
    (outside : ∀ i < n, place i ≠ a) : fill place value n mem a = mem a := by
  induction n with
  | zero => rfl
  | succ n ih =>
      rw [fill, Function.update_of_ne (outside n n.lt_succ_self).symm]
      exact ih fun i below => outside i (Nat.lt_succ_of_lt below)

theorem fill_inside (place : Nat → α) (value : Nat → β) (n : Nat) (mem : α → β)
    (apart : ∀ i < n, ∀ j < n, place i = place j → i = j) (i : Nat) (inside : i < n) :
    fill place value n mem (place i) = value i := by
  induction n with
  | zero => exact absurd inside i.not_lt_zero
  | succ n ih =>
      rw [fill]
      rcases Nat.lt_succ_iff_lt_or_eq.mp inside with below | last
      · have other : place i ≠ place n := by
          intro same
          exact Nat.ne_of_lt below (apart i inside n n.lt_succ_self same)
        rw [Function.update_of_ne other]
        exact ih (fun j first k second => apart j (Nat.lt_succ_of_lt first) k
          (Nat.lt_succ_of_lt second)) below
      · rw [last, Function.update_self]

theorem fill_congr {place place' : Nat → α} {value value' : Nat → β} (n : Nat) (mem : α → β)
    (places : ∀ i < n, place i = place' i) (values : ∀ i < n, value i = value' i) :
    fill place value n mem = fill place' value' n mem := by
  induction n with
  | zero => rfl
  | succ n ih =>
      rw [fill, fill, places n n.lt_succ_self, values n n.lt_succ_self,
        ih (fun i below => places i (Nat.lt_succ_of_lt below))
          (fun i below => values i (Nat.lt_succ_of_lt below))]

theorem fill_add (place : Nat → α) (value : Nat → β) (m n : Nat) (mem : α → β) :
    fill place value (m + n) mem =
      fill (fun i => place (m + i)) (fun i => value (m + i)) n (fill place value m mem) := by
  induction n with
  | zero => rfl
  | succ n ih => rw [← Nat.add_assoc, fill, fill, ih]

/-- Stores made one after the other. -/
def storeAll (stores : List (α × β)) (mem : α → β) : α → β :=
  stores.foldl (fun mem store => Function.update mem store.1 store.2) mem

theorem storeAll_append (first second : List (α × β)) (mem : α → β) :
    storeAll (first ++ second) mem = storeAll second (storeAll first mem) := List.foldl_append

theorem storeAll_outside {stores : List (α × β)} {a : α} (outside : ∀ store ∈ stores, store.1 ≠ a)
    (mem : α → β) : storeAll stores mem a = mem a := by
  induction stores generalizing mem with
  | nil => rfl
  | cons store rest ih =>
      rw [storeAll, List.foldl_cons]
      have later := ih (fun other member => outside other (List.mem_cons_of_mem _ member))
        (Function.update mem store.1 store.2)
      rw [storeAll] at later
      rw [later, Function.update_of_ne (outside store List.mem_cons_self).symm]

theorem storeAll_once {stores : List (α × β)} {a : α} (outside : ∀ store ∈ stores, store.1 ≠ a)
    (b : β) (mem : α → β) : storeAll ((a, b) :: stores) mem a = b := by
  have stays := storeAll_outside outside (Function.update mem a b)
  rw [Function.update_self] at stays
  exact stays

/-- Values stored side by side, from `a` on. -/
def storeList : Nat → List β → (Nat → β) → Nat → β
  | _, [], mem => mem
  | a, value :: rest, mem => storeList (a + 1) rest (Function.update mem a value)

theorem storeList_outside (a b : Nat) (values : List β) (mem : Nat → β)
    (outside : b < a ∨ a + values.length ≤ b) : storeList a values mem b = mem b := by
  induction values generalizing a mem with
  | nil => rfl
  | cons value rest ih =>
      rw [List.length_cons] at outside
      rw [storeList, ih (a + 1) _ (by omega), Function.update_of_ne (by omega)]

theorem storeList_inside (a k : Nat) (values : List β) (mem : Nat → β) (inside : k < values.length) :
    values[k]? = some (storeList a values mem (a + k)) := by
  induction values generalizing a k mem with
  | nil => exact absurd inside k.not_lt_zero
  | cons value rest ih =>
      rw [storeList]
      cases k with
      | zero =>
          rw [storeList_outside (a + 1) (a + 0) rest _ (by omega), Nat.add_zero, Function.update_self]
          rfl
      | succ k =>
          have later := ih (a + 1) k (Function.update mem a value) (by simpa using inside)
          rw [List.getElem?_cons_succ, later]
          congr 2
          omega

theorem storeList_snoc (a : Nat) (values : List β) (value : β) (mem : Nat → β) :
    storeList a (values ++ [value]) mem =
      Function.update (storeList a values mem) (a + values.length) value := by
  induction values generalizing a mem with
  | nil => rfl
  | cons first rest ih =>
      rw [List.cons_append, storeList, ih, storeList, List.length_cons]
      congr 1
      omega

end TitorOS.Lib
