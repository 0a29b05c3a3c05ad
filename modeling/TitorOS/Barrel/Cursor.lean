import TitorOS.Lib.Run
import TitorOS.Barrel.Rendering
import TitorOS.Barrel.Terminal

/-! Where the cursor can get to, and what `setpixel` is called with, in runs of everything that
writes to the screen. -/

namespace TitorOS.Barrel.Screen

open TitorOS.Lib

/-- The cursor is on the screen, and so was every pixel. -/
structure OnScreen (s : State) : Prop where
  cursor : s.cursor < 2000
  plotted : ∀ index ∈ s.plotted, index.toNat < 2000

/-- How far a text would take the cursor if there were rows enough. -/
def advanceChar (position : Nat) (character : UInt8) : Nat :=
  if character = 0x0A then position + (80 - position % 80) else position + 1

def advance (position : Nat) (string : List UInt8) : Nat := (cstr string).foldl advanceChar position

/-- The start of a row for `println`. -/
def lineStart (position : Nat) : Nat :=
  if position % 80 ≠ 0 then position + (80 - position % 80) else position

def advancePanic (position : Nat) (message : String) : Nat :=
  advance (lineStart (advance (lineStart position) (text "kernel panic"))) (text message)

/-- The same for an event. -/
def reach (s : State) : Event → Nat
  | .print string => advance s.cursor string
  | .println string => advance (lineStart s.cursor) string
  | .key key =>
      if key = 0x08 ∨ key = 0x1B ∨ key = 0x0A ∧ s.queueHead = s.queueTail then 0
      else advanceChar s.cursor key
  | .completeBuffer =>
      if s.queueHead = s.queueTail then 0 else advanceChar s.cursor 0x0A
  | .resume count =>
      if s.length > count ∧ count ≠ 0 then advancePanic s.cursor "sendbuffer too large"
      else advancePanic s.cursor "Kernel heap out of memory"
  | _ => 0

/-- No backspace takes a key off the line while the cursor is at the start of the screen, and
there is a page for `mem_copy` when the event goes past the last row. -/
structure Tame (s : State) (event : Event) : Prop where
  backspace : event = .key 0x08 → s.length ≠ 0 → s.cursor ≠ 0
  room : 2000 ≤ reach s event → Page s

/-- What becomes of printing up to a position: past the last row it takes a page. -/
structure Printed (s : State) (position : Nat) (result : Option State) : Prop where
  within : position < 2000 → ∃ t, result = some t ∧ OnScreen t ∧ Kept s t ∧ t.cursor = position
  page : 2000 ≤ position → Page s → ∃ t, result = some t ∧ OnScreen t ∧ Kept s t
  full : 2000 ≤ position → ¬ Page s → result = none

section Print

variable {s : State} {position : Nat} {result : Option State}

theorem Printed.done (good : OnScreen s) : Printed s s.cursor (some s) where
  within _ := ⟨s, rfl, good, .refl s, rfl⟩
  page above := absurd good.cursor (Nat.not_lt.mpr above)
  full above := absurd good.cursor (Nat.not_lt.mpr above)

theorem Printed.bind (printed : Printed s position result) (onward : Nat → Nat)
    (next : State → Option State) (further : ∀ c, c ≤ onward c)
    (prints : ∀ t, OnScreen t → Printed t (onward t.cursor) (next t)) :
    Printed s (onward position) (result.bind next) where
  within below := by
    obtain ⟨t, rfl, good, kept, rfl⟩ := printed.within (Nat.lt_of_le_of_lt (further _) below)
    obtain ⟨u, ran, good', kept', place⟩ := (prints t good).within below
    exact ⟨u, ran, good', kept.trans kept', place⟩
  page above page := by
    obtain ⟨t, rfl, good, kept⟩ : ∃ t, result = some t ∧ OnScreen t ∧ Kept s t := by
      rcases Nat.lt_or_ge position 2000 with below | past
      · obtain ⟨t, ran, good, kept, -⟩ := printed.within below
        exact ⟨t, ran, good, kept⟩
      · exact printed.page past page
    obtain ⟨u, ran, good', kept'⟩ : ∃ u, next t = some u ∧ OnScreen u ∧ Kept t u := by
      rcases Nat.lt_or_ge (onward t.cursor) 2000 with below | past
      · obtain ⟨u, ran, good', kept', -⟩ := (prints t good).within below
        exact ⟨u, ran, good', kept'⟩
      · exact (prints t good).page past (kept.page.mpr page)
    exact ⟨u, ran, good', kept.trans kept'⟩
  full above none := by
    rcases Nat.lt_or_ge position 2000 with below | past
    · obtain ⟨t, rfl, good, kept, rfl⟩ := printed.within below
      exact (prints t good).full above (kept.page.not.mpr none)
    · rw [printed.full past none]
      rfl

theorem scrollFull_printed {t : State} (kept : Kept s t) (inside : t.cursor ≤ 2000)
    (plotted : ∀ index ∈ t.plotted, index.toNat < 2000) :
    Printed s t.cursor (scrollFull t) := by
  rcases scrollFull_cases t inside with ⟨below, same⟩ | ⟨full, page, scrolls⟩ | ⟨full, none, stuck⟩
  · rw [same]
    exact ⟨fun _ => ⟨t, rfl, ⟨below, plotted⟩, kept, rfl⟩, fun above => by omega, fun above => by omega⟩
  · have home := scrolled_home t full
    refine ⟨fun below => by omega, fun _ _ => ?_, fun _ none => absurd (kept.page.mp page) none⟩
    exact ⟨scrolled t, scrolls, ⟨by omega, plotted⟩, kept.trans (scrolled_kept t)⟩
  · exact ⟨fun below => by omega, fun _ page => absurd (kept.page.mpr page) none, fun _ _ => stuck⟩

theorem nextRow_printed (good : OnScreen s) :
    Printed s (advanceChar s.cursor 0x0A) (nextRow s) := by
  have place : (lineFed s).cursor = advanceChar s.cursor 0x0A := lineFed_cursor s good.cursor
  have behind : (lineFed s).cursor ≤ 2000 := by
    rw [lineFed_cursor s good.cursor]
    exact @TextGrid.newline_le 80 25 s.cursor good.cursor
  rw [← place, nextRow_eq]
  exact scrollFull_printed ⟨rfl, rfl, rfl, rfl, rfl⟩ behind good.plotted

theorem putpixel_printed (good : OnScreen s) (character : UInt8) :
    Printed s (s.cursor + 1) (putpixel s character) := by
  have place := plottedAt_cursor s character good.cursor
  rw [← place, putpixel_eq]
  refine scrollFull_printed ⟨rfl, rfl, rfl, rfl, rfl⟩ ?_ ?_
  · rw [place]
    exact good.cursor
  · intro index member
    have indices : (plottedAt s character).plotted = s.plotted ++ [getcursor s] := rfl
    rw [indices, List.mem_append, List.mem_singleton] at member
    rcases member with before | rfl
    · exact good.plotted index before
    · exact good.cursor

theorem printChar_printed (good : OnScreen s) (character : UInt8) :
    Printed s (advanceChar s.cursor character) (printChar s character) := by
  rw [printChar]
  by_cases newline : character = 0x0A
  · rw [if_pos newline, newline]
    exact nextRow_printed good
  · rw [if_neg newline, advanceChar, if_neg newline]
    exact putpixel_printed good character

theorem le_advanceChar (position : Nat) (character : UInt8) :
    position ≤ advanceChar position character := by
  rw [advanceChar]
  split
  · omega
  · omega

theorem le_advance (position : Nat) (string : List UInt8) : position ≤ advance position string := by
  rw [advance]
  induction cstr string generalizing position with
  | nil => exact Nat.le_refl _
  | cons character rest ih => exact Nat.le_trans (le_advanceChar position character) (ih _)

theorem le_lineStart (position : Nat) : position ≤ lineStart position := by
  rw [lineStart]
  split
  · omega
  · omega

theorem print_printed (good : OnScreen s) (string : List UInt8) :
    Printed s (advance s.cursor string) (print s string) := by
  induction string generalizing s with
  | nil => exact .done good
  | cons character rest ih =>
      rw [print]
      by_cases nul : character = 0
      · have nothing : cstr (character :: rest) = [] := by simp [cstr, nul]
        rw [if_pos nul, advance, nothing]
        exact .done good
      · have more : cstr (character :: rest) = character :: cstr rest := by simp [cstr, nul]
        have shape : advance s.cursor (character :: rest) =
            advance (advanceChar s.cursor character) rest := by
          rw [advance, more, List.foldl_cons, advance]
        rw [if_neg nul, shape]
        exact (printChar_printed good character).bind (advance · rest) _ (le_advance · rest)
          fun t good' => ih good'

theorem println_printed (good : OnScreen s) (string : List UInt8) :
    Printed s (advance (lineStart s.cursor) string) (println s string) := by
  have column : getcursor s % 80 ≠ 0 ↔ s.cursor % 80 ≠ 0 := by
    rw [Ne, ← UInt16.toNat_inj, UInt16.toNat_mod]
    rfl
  have first : Printed s (lineStart s.cursor)
      (if getcursor s % 80 ≠ 0 then nextRow s else some s) := by
    rw [lineStart]
    by_cases mid : s.cursor % 80 ≠ 0
    · rw [if_pos mid, if_pos (column.mpr mid)]
      exact nextRow_printed good
    · rw [if_neg mid, if_neg (column.not.mpr mid)]
      exact .done good
  exact first.bind (advance · string) _ (le_advance · string) fun t good' => print_printed good' string

theorem Printed.halt (printed : Printed s position result) :
    Printed s position (result.map fun t => { t with halted := true }) where
  within below := by
    obtain ⟨t, rfl, good, kept, place⟩ := printed.within below
    exact ⟨_, rfl, ⟨good.cursor, good.plotted⟩, { kept with }, place⟩
  page above page := by
    obtain ⟨t, rfl, good, kept⟩ := printed.page above page
    exact ⟨_, rfl, ⟨good.cursor, good.plotted⟩, { kept with }⟩
  full above none := by
    rw [printed.full above none]
    rfl

theorem kpanic_printed (good : OnScreen s) (message : String) :
    Printed s (advancePanic s.cursor message) (kpanic s message) := by
  refine (println_printed good (text "kernel panic")).bind
    (fun c => advance (lineStart c) (text message)) _ ?_ ?_
  · intro c
    exact Nat.le_trans (le_lineStart c) (le_advance _ _)
  · intro t good'
    exact (println_printed good' (text message)).halt

theorem Printed.onScreen_iff (printed : Printed s position result) :
    (∃ t, result = some t ∧ OnScreen t) ↔ (2000 ≤ position → Page s) := by
  constructor
  · rintro ⟨t, ran, -⟩ above
    by_contra none
    rw [printed.full above none] at ran
    cases ran
  · intro room
    rcases Nat.lt_or_ge position 2000 with below | above
    · obtain ⟨t, ran, good, -⟩ := printed.within below
      exact ⟨t, ran, good⟩
    · obtain ⟨t, ran, good, -⟩ := printed.page above (room above)
      exact ⟨t, ran, good⟩

end Print

section Step

variable {s : State}

theorem onScreen_some {t : State} {event : Event} (good : OnScreen t) (still : reach s event = 0) :
    (∃ u, some t = some u ∧ OnScreen u) ↔ (2000 ≤ reach s event → Page s) := by
  rw [still]
  exact ⟨fun _ above => absurd above (by decide), fun _ => ⟨t, rfl, good⟩⟩

theorem OnScreen.cleared (good : OnScreen s) : OnScreen (clearscreen s) where
  cursor := by
    rw [clearscreen_cursor]
    decide
  plotted := good.plotted

theorem completeBuffer_iff (good : OnScreen s) :
    (∃ t, completeBuffer s = some t ∧ OnScreen t) ↔ (2000 ≤ reach s .completeBuffer → Page s) := by
  rw [completeBuffer]
  by_cases empty : s.queueHead = s.queueTail
  · have still : reach s .completeBuffer = 0 := if_pos empty
    rw [if_pos empty]
    exact onScreen_some good still
  · have onward : reach s .completeBuffer = advanceChar s.cursor 0x0A := if_neg empty
    rw [if_neg empty, onward]
    have edited : OnScreen { s with
        buffer := Function.update s.buffer s.length 0
        length := s.length + 1
        queueHead := s.queueHead + 1 } := ⟨good.cursor, good.plotted⟩
    exact (nextRow_printed edited).onScreen_iff

theorem backspace_iff (good : OnScreen s) :
    (∃ t, keybuffer s 0x08 = some t ∧ OnScreen t) ↔ (s.length ≠ 0 → s.cursor ≠ 0) := by
  have value : (getcursor s).toNat < 2000 := good.cursor
  by_cases empty : s.length = 0
  · have nothing : keybuffer s 0x08 = some s := by simp [keybuffer, empty]
    rw [nothing]
    exact ⟨fun _ some => absurd empty some, fun _ => ⟨s, rfl, good⟩⟩
  · have back : keybuffer s 0x08 = some (setpixel
        (setcursor { s with length := s.length - 1 } (getcursor s - 1)) (getcursor s - 1) 0x20
        s.screencolor) := by
      have place := getcursor_setcursor { s with length := s.length - 1 } (getcursor s - 1)
      have before : getcursor { s with length := s.length - 1 } = getcursor s := rfl
      simp only [keybuffer, if_true, ne_eq, empty, not_false_eq_true, before, place]
      rfl
    have place : (setpixel (setcursor { s with length := s.length - 1 } (getcursor s - 1))
        (getcursor s - 1) 0x20 s.screencolor).cursor = (getcursor s - 1).toNat :=
      cursor_setcursor { s with length := s.length - 1 } (getcursor s - 1)
    have one : (getcursor s - 1).toNat < 2000 ↔ s.cursor ≠ 0 := by
      rw [UInt16.toNat_sub, State.cursor]
      have unit : (1 : UInt16).toNat = 1 := rfl
      rw [unit]
      omega
    rw [back]
    constructor
    · rintro ⟨t, same, after⟩ _
      cases same
      rw [← one, ← place]
      exact after.cursor
    · intro notHome
      have small := one.mpr (notHome empty)
      refine ⟨_, rfl, by rw [place]; exact small, ?_⟩
      intro index member
      rcases List.mem_append.mp member with before | last
      · exact good.plotted index before
      · rw [List.mem_singleton.mp last]
        exact small

theorem resume_iff (good : OnScreen s) (count : UInt8) :
    (∃ t, resume s count = some t ∧ OnScreen t) ↔ (2000 ≤ reach s (.resume count) → Page s) := by
  rw [resume]
  by_cases large : s.length > count ∧ count ≠ 0
  · have onward : reach s (.resume count) = advancePanic s.cursor "sendbuffer too large" :=
      if_pos large
    rw [if_pos large, onward]
    exact (kpanic_printed good _).onScreen_iff
  · have onward : reach s (.resume count) = advancePanic s.cursor "Kernel heap out of memory" :=
      if_neg large
    rw [if_neg large, onward]
    by_cases page : Page s
    · rw [memCopy_page page]
      exact ⟨fun _ _ => page, fun _ => ⟨_, rfl, ⟨good.cursor, good.plotted⟩⟩⟩
    · rw [memCopy_full page]
      exact (kpanic_printed good _).onScreen_iff

theorem step_onScreen_iff (good : OnScreen s) (running : s.halted = false) (event : Event) :
    (∃ t, step s event = some t ∧ OnScreen t) ↔ Tame s event := by
  have runs : step s event = act s event := by
    rw [step, running]
    rfl
  rw [runs]
  have other (notBackspace : event ≠ .key 0x08) :
      Tame s event ↔ (2000 ≤ reach s event → Page s) :=
    ⟨Tame.room, fun room => ⟨fun same => absurd same notBackspace, room⟩⟩
  cases event with
  | print string =>
      rw [other Event.noConfusion]
      exact (print_printed good string).onScreen_iff
  | println string =>
      rw [other Event.noConfusion]
      exact (println_printed good string).onScreen_iff
  | key key =>
      by_cases backspace : key = 0x08
      · subst backspace
        have still : reach s (.key 0x08) = 0 := by simp [reach]
        refine (backspace_iff good).trans ⟨fun stays => ⟨fun _ => stays, ?_⟩, fun tame => tame.backspace rfl⟩
        rw [still]
        intro above
        exact absurd above (by decide)
      rw [other fun same => backspace (Event.key.inj same), act]
      by_cases newline : key = 0x0A
      · subst newline
        have complete : keybuffer s 0x0A = completeBuffer s := by simp [keybuffer]
        have same : reach s (.key 0x0A) = reach s .completeBuffer := by simp [reach]
        rw [complete, same]
        exact completeBuffer_iff good
      by_cases escape : key = 0x1B
      · subst escape
        have clears : keybuffer s 0x1B = some (clearscreen { s with length := 0 }) := by
          simp [keybuffer]
        have short : OnScreen { s with length := 0 } := ⟨good.cursor, good.plotted⟩
        rw [clears]
        exact onScreen_some short.cleared (by simp [reach])
      · have puts : keybuffer s key = putpixel { s with
            buffer := Function.update s.buffer s.length key
            length := s.length + 1 } key := by
          simp [keybuffer, backspace, newline, escape]
        have onward : reach s (.key key) = s.cursor + 1 := by
          simp [reach, backspace, newline, escape, advanceChar]
        have edited : OnScreen { s with
            buffer := Function.update s.buffer s.length key
            length := s.length + 1 } := ⟨good.cursor, good.plotted⟩
        rw [puts, onward]
        exact (putpixel_printed edited key).onScreen_iff
  | completeBuffer =>
      rw [other Event.noConfusion]
      exact completeBuffer_iff good
  | sendbuffer =>
      rw [other Event.noConfusion]
      exact onScreen_some ⟨good.cursor, good.plotted⟩ rfl
  | resume count =>
      rw [other Event.noConfusion]
      exact resume_iff good count
  | clearscreen =>
      rw [other Event.noConfusion]
      exact onScreen_some good.cleared rfl
  | other used =>
      rw [other Event.noConfusion]
      exact onScreen_some ⟨good.cursor, good.plotted⟩ rfl

end Step

theorem initTerminal_onScreen {s t : State} (booted : initTerminal s = some t) : OnScreen t := by
  simp only [initTerminal, Option.bind_eq_bind, Option.bind_eq_some_iff, Option.pure_def,
    Option.some.injEq, Prod.exists] at booted
  obtain ⟨_, _, _, _, _, _, _, _, _, rfl⟩ := booted
  refine ⟨?_, fun index member => absurd member List.not_mem_nil⟩
  rw [clearscreen_cursor]
  decide

/-- In every run of tame events from `init_terminal` on the cursor and all pixels stay on the
screen; and from there the next event keeps them there exactly when it is tame. -/
theorem tame_run_onScreen (s t : State) (booted : initTerminal s = some t) (u : State)
    (run : Run step Tame t u) :
    OnScreen u ∧ ∀ event, u.halted = false →
      ((∃ v, step u event = some v ∧ OnScreen v) ↔ Tame u event) := by
  have good : OnScreen u := by
    refine run.invariant OnScreen (initTerminal_onScreen booted) ?_
    intro v event w good tame taken
    have running : v.halted = false := by
      rw [step] at taken
      split at taken
      · cases taken
      · rename_i running
        exact Bool.eq_false_iff.mpr running
    obtain ⟨x, same, stays⟩ := (step_onScreen_iff good running event).mpr tame
    cases taken.symm.trans same
    exact stays
  exact ⟨good, fun event running => step_onScreen_iff good running event⟩

/-- A machine on which nothing has been written yet. -/
def bootScreen : State where
  video := fun _ => 0
  framecopy := fun _ => 0
  hi := 0
  lo := 0
  screencolor := 0
  buffer := fun _ => 0
  length := 0
  queueHead := 0
  queueTail := 0
  used := .low 0
  halted := false
  plotted := []

theorem bootScreen_boots : (initTerminal bootScreen).isSome = true := by decide +kernel

theorem key_taken_back :
    ∃ t u, initTerminal bootScreen = some t ∧ Run step Tame t u ∧
      u.plotted = [0, 80, 80] ∧ OnScreen u := by
  have booted : initTerminal bootScreen = some ((initTerminal bootScreen).get bootScreen_boots) :=
    (Option.some_get bootScreen_boots).symm
  have run1 : Run step Tame ((initTerminal bootScreen).get bootScreen_boots) _ :=
    Run.refl.next (Event.print [97, 10]) ⟨Event.noConfusion,
      fun above => absurd above (by decide +kernel)⟩ (by decide +kernel)
  have run2 := run1.next (Event.key 98) ⟨fun same => absurd (Event.key.inj same) (by decide),
    fun above => absurd above (by decide +kernel)⟩ (by decide +kernel)
  have run3 := run2.next (Event.key 0x08) ⟨fun _ _ => by decide +kernel,
    fun above => absurd above (by decide +kernel)⟩ (by decide +kernel)
  exact ⟨_, _, booted, run3, by decide +kernel, (tame_run_onScreen bootScreen _ booted _ run3).1⟩

theorem cleared_backspace_escapes :
    ¬ ∀ (s t u : State), initTerminal s = some t → Run step anyStep t u → OnScreen u := by
  intro claim
  have runs : ((initTerminal bootScreen).bind fun t =>
      runList step t [.key 97, .clearscreen, .key 0x08]).map State.cursor = some 65535 := by
    decide +kernel
  obtain ⟨u, ran, cursor⟩ := Option.map_eq_some_iff.mp runs
  obtain ⟨t, booted, steps⟩ := Option.bind_eq_some_iff.mp ran
  have good := claim bootScreen t u booted (Run.of_runList _ (fun _ _ _ => trivial) steps)
  have inside := good.cursor
  rw [cursor] at inside
  exact absurd inside (by decide)

/-- The two models of the terminal hold the same line, queue and cursor, and have the same heap. -/
structure SameLine (s : State) (t : Terminal.State) : Prop where
  buffer : t.buffer = s.buffer
  length : t.length = s.length
  queueHead : t.queueHead = s.queueHead
  queueTail : t.queueTail = s.queueTail
  cursor : t.cursor = getcursor s
  used : t.sched.used = s.used
  running : t.panicked = false

/-- Where the screen cannot scroll, the model without it has panicked. -/
inductive Follows : Option State → Terminal.State → Prop
  | goes {s : State} {t : Terminal.State} : SameLine s t → Follows (some s) t
  | panics {t : Terminal.State} : t.panicked = true → Follows none t

theorem scrollFull_follows {s : State} {t : Terminal.State} (same : SameLine s t)
    (position : UInt16) :
    Follows (scrollFull (setcursor s position)) (Terminal.setcursor t position) := by
  have there := getcursor_setcursor s position
  by_cases full : position ≥ 80 * 25
  · rw [scrollFull, there, if_pos full, Terminal.setcursor, if_pos full]
    by_cases page : Page s
    · have up : getcursor (scrolled (setcursor s position)) = position - 80 := by
        rw [scrolled_cursor, there]
      have free : ∃ page, page < HEAP_PAGES ∧ t.sched.used page = false := same.used ▸ page
      rw [scroll_page (s := setcursor s position) page,
        Terminal.scroll_page { t with cursor := position } free]
      exact .goes { same with cursor := up.symm }
    · have full : memCopy t.sched.used = none := same.used ▸ memCopy_full page
      rw [scroll_full (s := setcursor s position) page,
        Terminal.scroll_full { t with cursor := position } full]
      exact .panics rfl
  · rw [scrollFull, there, if_neg full, Terminal.setcursor, if_neg full]
    exact .goes { same with cursor := there.symm }

/-- A key does to the line, the queue and the cursor here what it does in the model without a
screen. -/
theorem keybuffer_follows {s : State} {t : Terminal.State} (same : SameLine s t) (key : UInt8) :
    Follows (keybuffer s key) (Terminal.keybuffer t key) := by
  rw [keybuffer, Terminal.keybuffer, same.length, same.cursor]
  by_cases backspace : key = 0x08
  · rw [if_pos backspace, if_pos backspace]
    by_cases taken : s.length ≠ 0
    · rw [if_pos taken, if_pos taken]
      have back := getcursor_setcursor { s with length := s.length - 1 } (getcursor s - 1)
      exact .goes { same with length := rfl, cursor := back.symm }
    · rw [if_neg taken, if_neg taken]
      exact .goes same
  rw [if_neg backspace, if_neg backspace]
  by_cases newline : key = 0x0A
  · rw [if_pos newline, if_pos newline, completeBuffer, Terminal.completeBuffer, same.queueHead,
      same.queueTail]
    by_cases empty : s.queueHead = s.queueTail
    · rw [if_pos empty, if_pos empty]
      exact .goes same
    · rw [if_neg empty, if_neg empty, same.length, same.buffer, same.cursor]
      refine scrollFull_follows (s := { s with
        buffer := Function.update s.buffer s.length 0
        length := s.length + 1
        queueHead := s.queueHead + 1 }) ?_ _
      exact ⟨rfl, rfl, rfl, rfl, rfl, same.used, same.running⟩
  rw [if_neg newline, if_neg newline]
  by_cases escape : key = 0x1B
  · rw [if_pos escape, if_pos escape]
    have home := getcursor_setcursor { s with
      length := 0, video := fill (2 * ·) (fun _ => 0x20) 2000 s.video } 0
    exact .goes { same with length := rfl, cursor := home.symm }
  · rw [if_neg escape, if_neg escape, same.buffer]
    refine scrollFull_follows (s := setpixel { s with
      buffer := Function.update s.buffer s.length key
      length := s.length + 1 } (getcursor s) key s.screencolor) ?_ _
    exact { same with buffer := rfl, length := rfl, cursor := rfl }

end TitorOS.Barrel.Screen
