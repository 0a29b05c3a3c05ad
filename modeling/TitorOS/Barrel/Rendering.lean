import TitorOS.Barrel.Screen

/-! What `print` shows: the last rows of the text printed since the screen was cleared. -/

namespace TitorOS.Barrel.Screen

open TitorOS.Lib

/-- The characters before the NUL. -/
def cstr (string : List UInt8) : List UInt8 := string.takeWhile (· ≠ 0)

def typeset (grid : TextGrid UInt8) (character : UInt8) : TextGrid UInt8 :=
  if character = 0x0A then grid.newline 80 else grid.put character

/-- The text in rows of 80, from an empty grid of blanks on. -/
def layout (text : List UInt8) : TextGrid UInt8 := text.foldl typeset (.empty 0x20)

def printAll : State → List (List UInt8) → Option State
  | s, [] => some s
  | s, string :: rest => (print s string).bind fun s => printAll s rest

/-- The screen shows 25 rows, the last of which is row 24 or, from there on, the row of the
next character; and the cursor is where that comes. -/
structure Renders (s : State) (grid : TextGrid UInt8) : Prop where
  characters : ∀ i < 2000, s.character i = grid.cell (80 * (grid.next / 80 - 24) + i)
  inside : s.cursor < 2000
  cursor : grid.next = 80 * (grid.next / 80 - 24) + s.cursor

abbrev Shows (s : State) (grid : TextGrid UInt8) (top : Nat) : Prop :=
  TextGrid.Shows 80 25 0x20 grid top s.character s.cursor

section Show

variable {s t : State} {grid : TextGrid UInt8} {top : Nat}

theorem Shows.renders (shows : Shows s grid top) (inside : s.cursor < 2000) : Renders s grid := by
  have rows := TextGrid.Shows.top_eq shows inside
  have window : top = grid.next / 80 - 24 := by omega
  rw [window] at shows
  exact ⟨shows.cells, inside, shows.place⟩

theorem Shows.scrollFull (shows : Shows s grid top) (inside : s.cursor ≤ 2000)
    (ran : Screen.scrollFull s = some t) : ∃ top', Shows t grid top' ∧ t.cursor < 2000 := by
  rcases scrollFull_cases s inside with ⟨below, same⟩ | ⟨full, _, scrolls⟩ | ⟨_, _, stuck⟩
  · cases same.symm.trans ran
    exact ⟨top, shows, below⟩
  · cases scrolls.symm.trans ran
    have home := scrolled_home s full
    rw [Shows, full] at shows
    refine ⟨top + 1, ?_, by omega⟩
    rw [Shows, home]
    exact TextGrid.Shows.scroll shows (by decide) _ (scrolled_up s) (scrolled_blank s)
  · cases stuck.symm.trans ran

theorem Shows.printChar {character : UInt8} (shows : Shows s grid top) (inside : s.cursor < 2000)
    (ran : Screen.printChar s character = some t) :
    ∃ top', Shows t (typeset grid character) top' ∧ t.cursor < 2000 := by
  rw [Screen.printChar] at ran
  rw [typeset]
  by_cases newline : character = 0x0A
  · rw [if_pos newline] at ran ⊢
    have fed : Shows (lineFed s) (grid.newline 80) top := by
      rw [Shows, lineFed_cursor s inside]
      exact TextGrid.Shows.newline shows
    refine fed.scrollFull ?_ ran
    rw [lineFed_cursor s inside]
    exact @TextGrid.newline_le 80 25 s.cursor inside
  · rw [if_neg newline] at ran ⊢
    have written : Shows (plottedAt s character) (grid.put character) top := by
      rw [Shows, plottedAt_cursor s character inside]
      exact TextGrid.Shows.put shows character _ fun i _ => plottedAt_character s character i
    refine written.scrollFull ?_ ran
    rw [plottedAt_cursor s character inside]
    exact inside

theorem Shows.print {string : List UInt8} (shows : Shows s grid top) (inside : s.cursor < 2000)
    (ran : Screen.print s string = some t) :
    ∃ top', Shows t ((cstr string).foldl typeset grid) top' ∧ t.cursor < 2000 := by
  induction string generalizing s grid top with
  | nil =>
      cases ran
      exact ⟨top, shows, inside⟩
  | cons character rest ih =>
      rw [Screen.print] at ran
      by_cases nul : character = 0
      · rw [if_pos nul] at ran
        cases ran
        have nothing : cstr (character :: rest) = [] := by simp [cstr, nul]
        rw [nothing]
        exact ⟨top, shows, inside⟩
      · rw [if_neg nul] at ran
        obtain ⟨u, first, later⟩ := Option.bind_eq_some_iff.mp ran
        obtain ⟨top', shows', inside'⟩ := shows.printChar inside first
        have more : cstr (character :: rest) = character :: cstr rest := by simp [cstr, nul]
        rw [more, List.foldl_cons]
        exact ih shows' inside' later

theorem Shows.printAll {strings : List (List UInt8)} (shows : Shows s grid top)
    (inside : s.cursor < 2000) (ran : Screen.printAll s strings = some t) :
    ∃ top', Shows t ((strings.map cstr).flatten.foldl typeset grid) top' ∧ t.cursor < 2000 := by
  induction strings generalizing s grid top with
  | nil =>
      cases ran
      exact ⟨top, shows, inside⟩
  | cons string rest ih =>
      obtain ⟨u, first, later⟩ := Option.bind_eq_some_iff.mp ran
      obtain ⟨top', shows', inside'⟩ := shows.print inside first
      rw [List.map_cons, List.flatten_cons, List.foldl_append]
      exact ih shows' inside' later

/-- With a page for the copies of a scroll it always returns. -/
theorem scrollFull_returns (s : State) (page : Page s) (inside : s.cursor ≤ 2000) :
    ∃ t, scrollFull s = some t ∧ t.cursor < 2000 ∧ Page t := by
  rcases scrollFull_cases s inside with ⟨below, same⟩ | ⟨full, _, scrolls⟩ | ⟨_, none, _⟩
  · exact ⟨s, same, below, page⟩
  · have home := scrolled_home s full
    exact ⟨scrolled s, scrolls, by omega, (scrolled_kept s).page.mpr page⟩
  · exact absurd page none

theorem printChar_returns (page : Page s) (inside : s.cursor < 2000) (character : UInt8) :
    ∃ t, printChar s character = some t ∧ t.cursor < 2000 ∧ Page t := by
  rw [printChar]
  split
  · refine scrollFull_returns (lineFed s) page ?_
    rw [lineFed_cursor s inside]
    exact @TextGrid.newline_le 80 25 s.cursor inside
  · refine scrollFull_returns (plottedAt s character) page ?_
    rw [plottedAt_cursor s character inside]
    exact inside

theorem print_returns (page : Page s) (inside : s.cursor < 2000) (string : List UInt8) :
    ∃ t, print s string = some t ∧ t.cursor < 2000 ∧ Page t := by
  induction string generalizing s with
  | nil => exact ⟨s, rfl, inside, page⟩
  | cons character rest ih =>
      rw [print]
      split
      · exact ⟨s, rfl, inside, page⟩
      · obtain ⟨u, first, inside', page'⟩ := printChar_returns page inside character
        rw [first]
        exact ih page' inside'

theorem printAll_returns (page : Page s) (inside : s.cursor < 2000) (strings : List (List UInt8)) :
    ∃ t, printAll s strings = some t := by
  induction strings generalizing s with
  | nil => exact ⟨s, rfl⟩
  | cons string rest ih =>
      obtain ⟨u, first, inside', page'⟩ := print_returns page inside string
      rw [printAll, first]
      exact ih page' inside'

end Show

theorem clearscreen_cursor (s : State) : (clearscreen s).cursor = 0 := cursor_setcursor _ 0

theorem clearscreen_shows (s : State) : Shows (clearscreen s) (.empty 0x20) 0 := by
  rw [Shows, clearscreen_cursor]
  exact TextGrid.shows_empty _ fun i inside => cleared_character s.video i inside

theorem initTerminal_cleared {s t : State} (booted : initTerminal s = some t) :
    ∃ u, t = clearscreen u := by
  simp only [initTerminal, Option.bind_eq_bind, Option.bind_eq_some_iff, Option.pure_def,
    Option.some.injEq, Prod.exists] at booted
  obtain ⟨_, _, _, _, _, _, _, _, _, rfl⟩ := booted
  exact ⟨_, rfl⟩

/-- For all strings printed from a cleared screen on: the text is rendered, and `print` returns
as long as there is a heap page for `mem_copy`. -/
theorem prints_rendered (s : State) (strings : List (List UInt8)) :
    (∀ t, printAll (clearscreen s) strings = some t →
        Renders t (layout (strings.map cstr).flatten)) ∧
      (Page s → ∃ t, printAll (clearscreen s) strings = some t) := by
  have inside : (clearscreen s).cursor < 2000 := by
    rw [clearscreen_cursor]
    decide
  refine ⟨fun t ran => ?_, fun page => ?_⟩
  · obtain ⟨top, shows, inside'⟩ := (clearscreen_shows s).printAll inside ran
    exact shows.renders inside'
  · have page' : Page (clearscreen s) := page
    exact printAll_returns page' inside strings

end TitorOS.Barrel.Screen
