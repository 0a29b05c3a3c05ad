import TitorOS.Lib.Fill
import TitorOS.Lib.TextGrid
import TitorOS.Barrel.Kheap
import Mathlib.Tactic.Common

/-! The text screen of `drivers/screen.c`: 80 columns and 25 rows of pixels in video memory, the
cursor in two registers of the CRT controller, and the line buffer as far as the screen depends on
it. -/

namespace TitorOS.Barrel.Screen

open TitorOS.Lib

/-- `video` are the bytes from `VID_MEM_BASE` on, `hi` and `lo` the CRT registers 14 and 15.
`queueHead` and `queueTail` index the queue's page. `plotted` is a ghost: the indices of all
calls of `setpixel`. -/
structure State where
  video : Nat → UInt8
  framecopy : Nat → UInt8
  hi : UInt8
  lo : UInt8
  screencolor : UInt8
  buffer : UInt8 → UInt8
  length : UInt8
  queueHead : Nat
  queueTail : Nat
  used : Kheap
  halted : Bool
  plotted : List UInt16

def setpixel (s : State) (index : UInt16) (character color : UInt8) : State :=
  { s with
    video := Function.update (Function.update s.video (2 * index.toNat) character)
      (2 * index.toNat + 1) color
    plotted := s.plotted ++ [index] }

def setcolor (s : State) (color : UInt8) : State :=
  { s with
    screencolor := color
    video := fill (fun i => 2 * i + 1) (fun _ => color) 2000 s.video }

def setcursor (s : State) (position : UInt16) : State :=
  { s with
    hi := (position >>> 8).toUInt8
    lo := position.toUInt8 }

def getcursor (s : State) : UInt16 := s.hi.toUInt16 * 256 + s.lo.toUInt16

def clearscreen (s : State) : State :=
  setcursor { s with video := fill (2 * ·) (fun _ => 0x20) 2000 s.video } 0

/-- `mem_copy` of memory outside the bounce page. -/
def copied (source dest : Nat → UInt8) (bytes : Nat) : Nat → UInt8 := fill id source bytes dest

/-- `none` where no page is left for a copy: then `kpanic` prints behind the screen, which
scrolls again, until the stack is full. -/
def scroll (s : State) : Option State :=
  let cursorPos := getcursor s
  (memCopy s.used).bind fun used =>
    let s := clearscreen
      { s with used := used, framecopy := copied s.video s.framecopy (2 * 25 * 80) }
    (memCopy s.used).map fun used =>
      let s := { s with
        used := used
        video := copied (fun i => s.framecopy (2 * 80 + i)) s.video (2 * 24 * 80) }
      setcursor s (cursorPos - 80)

def scrollFull (s : State) : Option State := if getcursor s ≥ 80 * 25 then scroll s else some s

def nextRow (s : State) : Option State :=
  scrollFull (setcursor s (getcursor s + (80 - getcursor s % 80)))

/-- A character at the cursor, which moves on. -/
def putpixel (s : State) (character : UInt8) : Option State :=
  let s := setpixel s (getcursor s) character s.screencolor
  scrollFull (setcursor s (getcursor s + 1))

/-- One round of the loop in `print`. -/
def printChar (s : State) (character : UInt8) : Option State :=
  if character = 0x0A then nextRow s else putpixel s character

def print : State → List UInt8 → Option State
  | s, [] => some s
  | s, character :: string =>
      if character = 0 then some s
      else (printChar s character).bind fun s => print s string

def println (s : State) (string : List UInt8) : Option State :=
  (if getcursor s % 80 ≠ 0 then nextRow s else some s).bind fun s => print s string

def text (string : String) : List UInt8 := string.toList.map fun c => UInt8.ofNat c.toNat

def kpanic (s : State) (message : String) : Option State :=
  (println s (text "kernel panic")).bind fun s =>
    (println s (text message)).map fun s => { s with halted := true }

def completeBuffer (s : State) : Option State :=
  if s.queueHead = s.queueTail then some s
  else
    nextRow { s with
      buffer := Function.update s.buffer s.length 0
      length := s.length + 1
      queueHead := s.queueHead + 1 }

def keybuffer (s : State) (key : UInt8) : Option State :=
  if key = 0x08 then
    if s.length ≠ 0 then
      let s := { s with length := s.length - 1 }
      let s := setcursor s (getcursor s - 1)
      some (setpixel s (getcursor s) 0x20 s.screencolor)
    else some s
  else if key = 0x0A then completeBuffer s
  else if key = 0x1B then some (clearscreen { s with length := 0 })
  else
    putpixel { s with
      buffer := Function.update s.buffer s.length key
      length := s.length + 1 } key

/-- `sendbuffer` up to `block`. -/
def sendbuffer (s : State) : State := { s with queueTail := s.queueTail + 1 }

/-- `sendbuffer` from there on. -/
def resume (s : State) (count : UInt8) : Option State :=
  if s.length > count ∧ count ≠ 0 then kpanic s "sendbuffer too large"
  else
    match memCopy s.used with
    | none => kpanic s "Kernel heap out of memory"
    | some used => some { s with used := used, length := 0 }

def initTerminal (s : State) : Option State := do
  let (_, used) ← kmalloc s.used
  let (_, used) ← kmalloc used
  let (_, used) ← kmalloc used
  let s := { s with
    length := 0, queueHead := 0, queueTail := 0, used := used, halted := false, plotted := [] }
  return clearscreen (setcolor s 0x60)

inductive Event where
  | print (string : List UInt8)
  | println (string : List UInt8)
  | key (key : UInt8)
  | completeBuffer
  | sendbuffer
  | resume (count : UInt8)
  | clearscreen
  | other (used : Kheap)

/-- `clearscreen` may be the system call; `other` is what the rest of the kernel does to its
heap. -/
def act (s : State) : Event → Option State
  | .print string => print s string
  | .println string => println s string
  | .key key => keybuffer s key
  | .completeBuffer => completeBuffer s
  | .sendbuffer => some (sendbuffer s)
  | .resume count => resume s count
  | .clearscreen => some (clearscreen s)
  | .other used => some { s with used := used }

def step (s : State) (event : Event) : Option State := if s.halted then none else act s event

def State.cursor (s : State) : Nat := (getcursor s).toNat

def State.character (s : State) (i : Nat) : UInt8 := s.video (2 * i)

def Page (s : State) : Prop := ∃ page < HEAP_PAGES, s.used page = false

/-- Everything but the screen is as before. -/
structure Kept (s t : State) : Prop where
  used : t.used = s.used
  buffer : t.buffer = s.buffer
  length : t.length = s.length
  queueHead : t.queueHead = s.queueHead
  queueTail : t.queueTail = s.queueTail

theorem Kept.refl (s : State) : Kept s s := ⟨rfl, rfl, rfl, rfl, rfl⟩

theorem Kept.trans {s t u : State} (first : Kept s t) (second : Kept t u) : Kept s u :=
  ⟨second.used.trans first.used, second.buffer.trans first.buffer, second.length.trans first.length,
    second.queueHead.trans first.queueHead, second.queueTail.trans first.queueTail⟩

theorem Kept.page {s t : State} (kept : Kept s t) : Page t ↔ Page s := by
  rw [Page, Page, kept.used]

theorem getcursor_setcursor (s : State) (position : UInt16) :
    getcursor (setcursor s position) = position := by
  have bound := position.toNat_lt
  rw [← UInt16.toNat_inj, getcursor, setcursor]
  simp only [UInt16.toNat_add, UInt16.toNat_mul, UInt8.toNat_toUInt16, UInt16.toNat_toUInt8,
    UInt16.toNat_shiftRight, UInt16.reduceToNat, Nat.shiftRight_eq_div_pow, Nat.reduceMod,
    Nat.reducePow]
  omega

theorem cursor_setcursor (s : State) (position : UInt16) :
    (setcursor s position).cursor = position.toNat := by
  rw [State.cursor, getcursor_setcursor]

/-- Writing a pixel does not move the cursor. -/
theorem copied_eq (source dest : Nat → UInt8) (bytes i : Nat) :
    copied source dest bytes i = if i < bytes then source i else dest i := by
  by_cases inside : i < bytes
  · rw [if_pos inside]
    exact fill_inside id source bytes dest (fun _ _ _ _ same => same) i inside
  · rw [if_neg inside]
    exact fill_outside id source bytes dest i fun j below => Nat.ne_of_lt (by
      change j < i
      omega)

theorem cleared_character (video : Nat → UInt8) (i : Nat) (inside : i < 2000) :
    fill (2 * ·) (fun _ => (0x20 : UInt8)) 2000 video (2 * i) = 0x20 := by
  refine fill_inside (2 * ·) (fun _ => (0x20 : UInt8)) 2000 video ?_ i inside
  intro i _ j _ same
  exact Nat.eq_of_mul_eq_mul_left Nat.two_pos same

theorem memCopy_page {s : State} (page : Page s) : memCopy s.used = some s.used := by
  obtain ⟨page, inside, free⟩ := page
  exact memCopy_free s.used page inside free

theorem memCopy_full {s : State} (full : ¬ Page s) : memCopy s.used = none :=
  (memCopy_none_iff s.used).mpr full

/-- What a scroll leaves. -/
def scrolled (s : State) : State :=
  let framecopy := copied s.video s.framecopy (2 * 25 * 80)
  let cleared := fill (2 * ·) (fun _ => 0x20) 2000 s.video
  setcursor { s with
    framecopy := framecopy
    video := copied (fun i => framecopy (2 * 80 + i)) cleared (2 * 24 * 80) } (getcursor s - 80)

theorem scroll_page {s : State} (page : Page s) : scroll s = some (scrolled s) := by
  have copies := memCopy_page page
  have again : (clearscreen { s with
      used := s.used, framecopy := copied s.video s.framecopy (2 * 25 * 80) }).used = s.used := rfl
  unfold scroll
  simp only [copies, Option.bind_some, again, Option.map_some]
  rfl

theorem scrolled_kept (s : State) : Kept s (scrolled s) := ⟨rfl, rfl, rfl, rfl, rfl⟩

theorem scrolled_cursor (s : State) : getcursor (scrolled s) = getcursor s - 80 :=
  getcursor_setcursor _ _

/-- Rows 1 to 24 have moved up. -/
theorem scrolled_up (s : State) (i : Nat) (above : i < 1920) :
    (scrolled s).character i = s.character (i + 80) := by
  have video : (scrolled s).video = copied (fun i => copied s.video s.framecopy (2 * 25 * 80)
      (2 * 80 + i)) (fill (2 * ·) (fun _ => 0x20) 2000 s.video) (2 * 24 * 80) := rfl
  rw [State.character, video, copied_eq, if_pos (by omega), copied_eq, if_pos (by omega),
    State.character]
  congr 1
  omega

/-- The last row is blank. -/
theorem scrolled_blank (s : State) (i : Nat) (inside : i < 2000) (last : 1920 ≤ i) :
    (scrolled s).character i = 0x20 := by
  have video : (scrolled s).video = copied (fun i => copied s.video s.framecopy (2 * 25 * 80)
      (2 * 80 + i)) (fill (2 * ·) (fun _ => 0x20) 2000 s.video) (2 * 24 * 80) := rfl
  rw [State.character, video, copied_eq, if_neg (by omega)]
  exact cleared_character s.video i inside

theorem scroll_full {s : State} (full : ¬ Page s) : scroll s = none := by
  rw [scroll, memCopy_full full]
  rfl

/-- A cursor behind the last row scrolls, if there is a page. -/
theorem scrollFull_cases (s : State) (inside : s.cursor ≤ 2000) :
    (s.cursor < 2000 ∧ scrollFull s = some s) ∨
      (s.cursor = 2000 ∧ Page s ∧ scrollFull s = some (scrolled s)) ∨
        s.cursor = 2000 ∧ ¬ Page s ∧ scrollFull s = none := by
  have limit : getcursor s ≥ 80 * 25 ↔ 2000 ≤ s.cursor := UInt16.le_iff_toNat_le
  rw [scrollFull]
  rcases Nat.lt_or_ge s.cursor 2000 with below | full
  · exact .inl ⟨below, if_neg (limit.not.mpr (Nat.not_le.mpr below))⟩
  · rw [if_pos (limit.mpr full)]
    by_cases page : Page s
    · exact .inr (.inl ⟨by omega, page, scroll_page page⟩)
    · exact .inr (.inr ⟨by omega, page, scroll_full page⟩)

theorem scrolled_home (s : State) (full : s.cursor = 2000) : (scrolled s).cursor = 1920 := by
  have value : (getcursor s).toNat = 2000 := full
  rw [State.cursor, scrolled_cursor, UInt16.toNat_sub, value]
  rfl

/-- The two states in which the rest is a scroll, if need be. -/
def lineFed (s : State) : State := setcursor s (getcursor s + (80 - getcursor s % 80))

def plottedAt (s : State) (character : UInt8) : State :=
  setcursor (setpixel s (getcursor s) character s.screencolor) (getcursor s + 1)

theorem nextRow_eq (s : State) : nextRow s = scrollFull (lineFed s) := rfl

theorem putpixel_eq (s : State) (character : UInt8) :
    putpixel s character = scrollFull (plottedAt s character) := rfl

theorem lineFed_cursor (s : State) (inside : s.cursor < 2000) :
    (lineFed s).cursor = s.cursor + (80 - s.cursor % 80) := by
  have value : (getcursor s).toNat < 2000 := inside
  have column : (getcursor s % 80).toNat = s.cursor % 80 := UInt16.toNat_mod ..
  have short : getcursor s % 80 ≤ 80 := by
    rw [UInt16.le_iff_toNat_le, column]
    exact Nat.le_of_lt (Nat.mod_lt _ (by decide))
  rw [lineFed, cursor_setcursor, UInt16.toNat_add, UInt16.toNat_sub_of_le _ _ short, column]
  have eighty : (80 : UInt16).toNat = 80 := rfl
  rw [eighty]
  unfold State.cursor
  omega

theorem plottedAt_cursor (s : State) (character : UInt8) (inside : s.cursor < 2000) :
    (plottedAt s character).cursor = s.cursor + 1 := by
  have value : (getcursor s).toNat < 2000 := inside
  rw [plottedAt, cursor_setcursor, UInt16.toNat_add]
  have one : (1 : UInt16).toNat = 1 := rfl
  rw [one]
  unfold State.cursor
  omega

theorem plottedAt_character (s : State) (character : UInt8) (i : Nat) :
    (plottedAt s character).character i = if i = s.cursor then character else s.character i := by
  change Function.update (Function.update s.video (2 * s.cursor) character) (2 * s.cursor + 1)
    s.screencolor (2 * i) = _
  rw [Function.update_of_ne (by omega)]
  by_cases here : i = s.cursor
  · rw [if_pos here, here, Function.update_self]
  · rw [if_neg here, Function.update_of_ne (by omega), State.character]

end TitorOS.Barrel.Screen
