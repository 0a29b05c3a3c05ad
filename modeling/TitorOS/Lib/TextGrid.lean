import Mathlib.Logic.Function.Basic
import Mathlib.Data.Nat.Basic
import Mathlib.Tactic.Common

/-! Text laid out in rows of a fixed width, and a window that shows the last rows of it. -/

namespace TitorOS.Lib

variable {α : Type*}

/-- Cells in reading order, and the place of the next character. -/
structure TextGrid (α : Type*) where
  cell : Nat → α
  next : Nat

namespace TextGrid

def empty (blank : α) : TextGrid α := ⟨fun _ => blank, 0⟩

def put (grid : TextGrid α) (a : α) : TextGrid α :=
  ⟨Function.update grid.cell grid.next a, grid.next + 1⟩

/-- To the start of the next row. -/
def newline (width : Nat) (grid : TextGrid α) : TextGrid α :=
  { grid with next := grid.next + (width - grid.next % width) }

/-- A window of `height` rows from row `top` on, with its cursor at the next place. The window
starts at the first row until the cursor is in its last row. -/
structure Shows (width height : Nat) (blank : α) (grid : TextGrid α) (top : Nat)
    (screen : Nat → α) (cursor : Nat) : Prop where
  clean : ∀ i, grid.next ≤ i → grid.cell i = blank
  place : grid.next = width * top + cursor
  cells : ∀ i < width * height, screen i = grid.cell (width * top + i)
  low : top = 0 ∨ width * (height - 1) ≤ cursor

section Window

variable {width height top cursor : Nat} {blank : α} {grid : TextGrid α} {screen : Nat → α}

theorem shows_empty (screen : Nat → α) (cleared : ∀ i < width * height, screen i = blank) :
    Shows width height blank (empty blank) 0 screen 0 where
  clean _ _ := rfl
  place := rfl
  cells i inside := cleared i inside
  low := .inl rfl

theorem Shows.put (shows : Shows width height blank grid top screen cursor) (a : α)
    (screen' : Nat → α)
    (written : ∀ i < width * height, screen' i = if i = cursor then a else screen i) :
    Shows width height blank (grid.put a) top screen' (cursor + 1) where
  clean i beyond := by
    have later : grid.next ≠ i := Nat.ne_of_lt beyond
    exact (Function.update_of_ne later.symm ..).trans (shows.clean i (Nat.le_of_succ_le beyond))
  place := by
    change grid.next + 1 = _
    rw [shows.place, Nat.add_assoc]
  cells i inside := by
    change _ = Function.update grid.cell grid.next a (width * top + i)
    rw [written i inside, shows.place]
    by_cases here : i = cursor
    · rw [if_pos here, here, Function.update_self]
    · have other : width * top + i ≠ width * top + cursor := fun same => here (Nat.add_left_cancel same)
      rw [if_neg here, Function.update_of_ne other, shows.cells i inside]
  low := shows.low.imp id fun last => Nat.le_succ_of_le last

theorem Shows.newline (shows : Shows width height blank grid top screen cursor) :
    Shows width height blank (grid.newline width) top screen (cursor + (width - cursor % width)) where
  clean i beyond := shows.clean i (Nat.le_trans (Nat.le_add_right _ _) beyond)
  place := by
    change grid.next + (width - grid.next % width) = _
    rw [shows.place, Nat.mul_add_mod, Nat.add_assoc]
  cells := shows.cells
  low := shows.low.imp id fun last => Nat.le_trans last (Nat.le_add_right _ _)

/-- A cursor in the window is at most at its end after a newline. -/
theorem newline_le (inside : cursor < width * height) :
    cursor + (width - cursor % width) ≤ width * height := by
  have positive : 0 < width := Nat.pos_of_mul_pos_right (Nat.lt_of_le_of_lt (Nat.zero_le _) inside)
  have row : cursor / width < height := Nat.div_lt_of_lt_mul inside
  have split := Nat.div_add_mod cursor width
  have short := Nat.mod_lt cursor positive
  calc cursor + (width - cursor % width)
      = width * (cursor / width + 1) := by
        rw [Nat.mul_add, Nat.mul_one]
        omega
    _ ≤ width * height := Nat.mul_le_mul_left width row

theorem Shows.scroll (shows : Shows width height blank grid top screen (width * height))
    (tall : 0 < height) (screen' : Nat → α)
    (moved : ∀ i < width * (height - 1), screen' i = screen (i + width))
    (cleared : ∀ i < width * height, width * (height - 1) ≤ i → screen' i = blank) :
    Shows width height blank grid (top + 1) screen' (width * height - width) := by
  have rows : width * height = width * (height - 1) + width := by
    rw [← Nat.mul_succ, Nat.succ_eq_add_one, Nat.sub_add_cancel tall]
  have start : width * (top + 1) = width * top + width := Nat.mul_succ width top
  refine ⟨shows.clean, ?_, ?_, .inr ?_⟩
  · rw [shows.place, start]
    omega
  · intro i inside
    rcases Nat.lt_or_ge i (width * (height - 1)) with below | above
    · rw [moved i below, shows.cells (i + width) (by omega), start]
      congr 1
      omega
    · rw [cleared i inside above, shows.clean]
      rw [shows.place, start]
      omega
  · omega

theorem Shows.top_eq (shows : Shows width height blank grid top screen cursor)
    (inside : cursor < width * height) : top = grid.next / width + 1 - height := by
  have positive : 0 < width := Nat.pos_of_mul_pos_right (Nat.lt_of_le_of_lt (Nat.zero_le _) inside)
  have row : cursor / width < height := Nat.div_lt_of_lt_mul inside
  have whole : grid.next / width = top + cursor / width := by
    rw [shows.place, Nat.mul_add_div positive]
  rcases shows.low with zero | last
  · omega
  · have bottom : height - 1 ≤ cursor / width := by
      rw [Nat.le_div_iff_mul_le positive, Nat.mul_comm]
      exact last
    omega

end Window

section Lines

variable {width : Nat} {grid : TextGrid α}

theorem put_next (a : α) : (grid.put a).next = grid.next + 1 := rfl

def puts (grid : TextGrid α) (text : List α) : TextGrid α := text.foldl put grid

/-- A line and the step to the start of the next row. -/
def line (width : Nat) (grid : TextGrid α) (text : List α) : TextGrid α :=
  (grid.puts text).newline width

def lines (width : Nat) (grid : TextGrid α) (texts : List (List α)) : TextGrid α :=
  texts.foldl (line width) grid

theorem puts_next (text : List α) : (grid.puts text).next = grid.next + text.length := by
  induction text generalizing grid with
  | nil => rfl
  | cons a text ih =>
      have onward := @ih (grid.put a)
      rw [put_next, Nat.add_assoc, Nat.add_comm 1] at onward
      exact onward

theorem puts_outside (text : List α) {i : Nat}
    (outside : i < grid.next ∨ grid.next + text.length ≤ i) :
    (grid.puts text).cell i = grid.cell i := by
  induction text generalizing grid with
  | nil => rfl
  | cons a text ih =>
      rw [List.length_cons] at outside
      have other : i ≠ grid.next := by omega
      refine (@ih (grid.put a) ?_).trans (Function.update_of_ne other _ _)
      rw [put_next]
      omega

theorem puts_inside (text : List α) {j : Nat} {a : α} (there : text[j]? = some a) :
    (grid.puts text).cell (grid.next + j) = a := by
  induction text generalizing grid j with
  | nil => cases there
  | cons b text ih =>
      cases j with
      | zero =>
          rcases Option.some.inj there with rfl
          have before : grid.next < (grid.put b).next := Nat.lt_succ_self _
          exact (puts_outside text (.inl before)).trans (Function.update_self ..)
      | succ j =>
          have next := @ih (grid.put b) j (by simpa using there)
          rwa [put_next, Nat.add_right_comm, Nat.add_assoc] at next

/-- A line that is shorter than a row takes one row. -/
theorem line_next {row : Nat} {text : List α} (start : grid.next = width * row)
    (short : text.length < width) : (grid.line width text).next = width * (row + 1) := by
  change (grid.puts text).next + (width - (grid.puts text).next % width) = _
  rw [puts_next, start, Nat.mul_add_mod, Nat.mod_eq_of_lt short, Nat.mul_succ]
  omega

theorem lines_next {row : Nat} {texts : List (List α)} (start : grid.next = width * row)
    (short : ∀ text ∈ texts, text.length < width) :
    (grid.lines width texts).next = width * (row + texts.length) := by
  induction texts generalizing grid row with
  | nil => exact start
  | cons text texts ih =>
      rw [List.length_cons, Nat.add_comm texts.length, ← Nat.add_assoc]
      exact ih (line_next start (short text (.head _))) fun text' member =>
        short text' (.tail _ member)

theorem lines_outside {row i : Nat} {texts : List (List α)} (start : grid.next = width * row)
    (short : ∀ text ∈ texts, text.length < width)
    (outside : i < width * row ∨ width * (row + texts.length) ≤ i) :
    (grid.lines width texts).cell i = grid.cell i := by
  induction texts generalizing grid row with
  | nil => rfl
  | cons text texts ih =>
      have first := short text (.head _)
      rw [List.length_cons, Nat.add_comm texts.length, ← Nat.add_assoc] at outside
      have row_ : width * (row + 1) = width * row + width := Nat.mul_succ width row
      have below : width * (row + 1) ≤ width * (row + 1 + texts.length) :=
        Nat.mul_le_mul_left width (Nat.le_add_right _ _)
      refine (ih (line_next start first) (fun text' member => short text' (.tail _ member))
        (by omega)).trans ?_
      exact puts_outside text (by omega)

theorem lines_inside {row k j : Nat} {texts : List (List α)} {text : List α} {a : α}
    (start : grid.next = width * row) (short : ∀ text ∈ texts, text.length < width)
    (listed : texts[k]? = some text) (there : text[j]? = some a) :
    (grid.lines width texts).cell (width * (row + k) + j) = a := by
  induction texts generalizing grid row k with
  | nil => cases listed
  | cons first texts ih =>
      have next := line_next start (short first (.head _))
      have rest : ∀ text ∈ texts, text.length < width := fun text' member =>
        short text' (.tail _ member)
      cases k with
      | zero =>
          rcases Option.some.inj listed with rfl
          have inside : j < first.length := (List.getElem?_eq_some_iff.mp there).1
          have fits := short first (.head _)
          have row_ : width * (row + 1) = width * row + width := Nat.mul_succ width row
          rw [Nat.add_zero]
          refine (lines_outside next rest (.inl (by omega))).trans ?_
          rw [← start]
          exact puts_inside first there
      | succ k =>
          have later := ih next rest (k := k) (by simpa using listed)
          rwa [Nat.add_assoc row 1 k, Nat.add_comm 1 k] at later

end Lines

end TextGrid

end TitorOS.Lib
