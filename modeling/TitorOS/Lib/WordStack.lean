import Mathlib.Logic.Function.Basic
import Mathlib.Data.List.Basic
import Mathlib.Data.Int.Basic

/-! A stack of words that grows down, over an unbounded memory of word addresses, and
block copies in ascending order. -/

namespace TitorOS.Lib

variable {W : Type*}

structure WordStack (W : Type*) where
  mem : Int → W
  esp : Int

namespace WordStack

def push (s : WordStack W) (w : W) : WordStack W :=
  ⟨Function.update s.mem (s.esp - 1) w, s.esp - 1⟩

def pushAll (s : WordStack W) (words : List W) : WordStack W := words.foldl push s

def drop (s : WordStack W) (count : Int) : WordStack W := { s with esp := s.esp + count }

@[simp]
theorem push_esp (s : WordStack W) (w : W) : (s.push w).esp = s.esp - 1 := rfl

theorem pushAll_esp (s : WordStack W) (words : List W) :
    (s.pushAll words).esp = s.esp - words.length := by
  induction words generalizing s with
  | nil => simp [pushAll]
  | cons w rest ih =>
      have onward := ih (s.push w)
      rw [pushAll, List.foldl_cons, ← pushAll, onward, push_esp, List.length_cons]
      omega

theorem pushAll_above (s : WordStack W) (words : List W) (a : Int) (above : s.esp ≤ a) :
    (s.pushAll words).mem a = s.mem a := by
  induction words generalizing s with
  | nil => rfl
  | cons w rest ih =>
      have onward := ih (s.push w) (by rw [push_esp]; omega)
      rw [pushAll, List.foldl_cons, ← pushAll, onward, push]
      exact Function.update_of_ne (by omega) ..

theorem pushAll_below (s : WordStack W) (words : List W) (a : Int)
    (below : a < s.esp - words.length) : (s.pushAll words).mem a = s.mem a := by
  induction words generalizing s with
  | nil => rfl
  | cons w rest ih =>
      rw [List.length_cons] at below
      have onward := ih (s.push w) (by rw [push_esp]; push_cast at below; omega)
      rw [pushAll, List.foldl_cons, ← pushAll, onward, push]
      exact Function.update_of_ne (by push_cast at below; omega) ..

theorem pushAll_append (s : WordStack W) (first second : List W) :
    s.pushAll (first ++ second) = (s.pushAll first).pushAll second := List.foldl_append ..

/-- The word pushed as number `j` is found `j + 1` words below the old top. -/
theorem pushAll_word (s : WordStack W) (words : List W) (j : Nat) (w : W)
    (pushed : words[j]? = some w) : (s.pushAll words).mem (s.esp - 1 - j) = w := by
  induction words generalizing s j with
  | nil => cases pushed
  | cons v rest ih =>
      rw [pushAll, List.foldl_cons, ← pushAll]
      cases j with
      | zero =>
          have same : v = w := by simpa using pushed
          rw [pushAll_above _ _ _ (by rw [push_esp]; simp), push, same]
          simp
      | succ j =>
          have onward := ih (s.push v) j (by simpa using pushed)
          rw [push_esp] at onward
          rw [← onward]
          congr 1
          omega

end WordStack

/-- `count` words copied one after another, from low to high addresses. -/
def movs : Nat → Int → Int → (Int → W) → Int → W
  | 0, _, _, mem => mem
  | count + 1, src, dst, mem => movs count (src + 1) (dst + 1) (Function.update mem dst (mem src))

theorem movs_spec (count : Nat) (src dst : Int) (mem : Int → W) (a : Int)
    (safe : dst ≤ src ∨ src + count ≤ dst) :
    movs count src dst mem a =
      if dst ≤ a ∧ a < dst + count then mem (a - dst + src) else mem a := by
  induction count generalizing src dst mem with
  | zero =>
      rw [movs, if_neg (by omega)]
  | succ count ih =>
      rw [movs, ih (src + 1) (dst + 1) _ (by push_cast at safe; omega)]
      by_cases first : a = dst
      · rw [if_neg (by omega), if_pos (by push_cast; omega), first, Function.update_self]
        congr 1
        omega
      · by_cases inside : dst ≤ a ∧ a < dst + (count + 1 : Nat)
        · rw [if_pos (by push_cast at inside; omega), if_pos inside]
          rw [Function.update_of_ne (by push_cast at safe inside; omega)]
          congr 1
          omega
        · rw [if_neg (by push_cast at inside; omega), if_neg inside, Function.update_of_ne first]

end TitorOS.Lib
