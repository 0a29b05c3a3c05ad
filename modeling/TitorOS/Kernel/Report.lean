import TitorOS.Lib.Numeral
import TitorOS.Lib.TextGrid
import TitorOS.Stage2.Regions

/-! What the kernel prints when it starts: `kernel/kernel.c` and `kernel/pmm.c`, over the text
screen of `kernel/screen.c`. There is no scrolling: a cursor behind the last row goes on into the
memory behind the visible cells. -/

namespace TitorOS.Kernel

open TitorOS.Lib
open TitorOS.Stage2 (Memtable)

structure Pixel where
  character : UInt8
  color : UInt8

/-- The pixels from `vidmem` on, and the registers 14 and 15 of the display. -/
structure Screen where
  vidmem : Nat → Pixel
  high : UInt8
  low : UInt8

def WIDTH : UInt16 := 80
def HEIGHT : UInt16 := 25

def setcursor (position : UInt16) (s : Screen) : Screen :=
  { s with high := ((position >>> 8) &&& 0xFF).toUInt8, low := (position &&& 0xFF).toUInt8 }

def getcursor (s : Screen) : UInt16 := s.high.toUInt16 <<< 8 + s.low.toUInt16

def store (i : Nat) (f : Pixel → Pixel) (s : Screen) : Screen :=
  { s with vidmem := Function.update s.vidmem i (f (s.vidmem i)) }

def setcolor (color : UInt8) (s : Screen) : Screen :=
  (List.range (WIDTH * HEIGHT).toNat).foldl (fun s i => store i ({ · with color := color }) s) s

def clearscreen (s : Screen) : Screen :=
  setcursor 0 ((List.range (WIDTH * HEIGHT).toNat).foldl (fun s i => store i ({ · with character := 32 }) s) s)

def NEWLINE : UInt8 := 10

def printChar (s : Screen) (c : UInt8) : Screen :=
  if c = NEWLINE then setcursor (getcursor s + (WIDTH - getcursor s % WIDTH)) s
  else
    let s := store (getcursor s).toNat ({ · with character := c }) s
    setcursor (getcursor s + 1) s

/-- The characters of a string up to its NUL. -/
def print (string : List UInt8) (s : Screen) : Screen := string.foldl printChar s

def text (string : String) : List UInt8 := string.toList.map fun c => UInt8.ofNat c.toNat

/-- The character of round `i` of `printhex`. -/
def hexChar (hex : UInt64) (i : Nat) : UInt8 :=
  let c := ((hex >>> UInt64.ofNat (4 * (15 - i))) &&& 0x0f).toUInt8
  if c < 0xa then c + 48 else c + 55

def printhex (hex : UInt64) (s : Screen) : Screen :=
  (List.range 16).foldl (fun s i => print [hexChar hex i] s) (print (text "0x") s)

/-- One round of the loop of `init_pmm`. -/
def listEntry (state : UInt64 × Screen) (entry : Memtable) : UInt64 × Screen :=
  let s := print (text "entry:\n") state.2
  let s := print (text "-") (printhex entry.address s)
  let s := print (text "-") (printhex entry.size s)
  let s := print (text "-") (printhex entry.type.toUInt64 s)
  let s := print (text "\n") (printhex entry.extended.toUInt64 s)
  (state.1 + entry.size, s)

/-- `init_pmm` with the `entries` entries that lie at `memtable_addr`: `total`, and the screen. -/
def initPmm (table : Nat → Memtable) (entries : UInt32) (s : Screen) : UInt64 × Screen :=
  let state := ((List.range entries.toNat).map table).foldl listEntry (0, s)
  (state.1, printhex state.1 (print (text "total: ") state.2))

/-- `struct boot_info_t`. -/
structure BootInfo where
  memtable : UInt32
  entries : UInt32
  kaddr : UInt32
  ksize : UInt32

/-- `table` is what lies at `memtable`. -/
def kernel (bootTable : BootInfo) (table : Nat → Memtable) (s : Screen) : UInt64 × Screen :=
  let s := setcolor 0x60 (clearscreen s)
  let s := print (text "\nMemory map location: ") (print (text "Boot Table\n") s)
  let s := print (text "\nMemory map entries: ") (printhex bootTable.memtable.toUInt64 s)
  let s := print (text "\nKernel address: ") (printhex bootTable.entries.toUInt64 s)
  let s := print (text "\nKernel size: ") (printhex bootTable.kaddr.toUInt64 s)
  let s := print (text "\n\n") (printhex bootTable.ksize.toUInt64 s)
  initPmm table bootTable.entries s

/-! The cursor, and the screen as a grid of characters. -/

@[simp] theorem getcursor_setcursor (position : UInt16) (s : Screen) :
    getcursor (setcursor position s) = position := by
  have bound := position.toNat_lt
  have high : ((position >>> 8) &&& 0xFF).toUInt8.toNat = position.toNat / 256 := by
    rw [UInt16.toNat_toUInt8, UInt16.toNat_and, UInt16.toNat_shiftRight,
      show (0xFF : UInt16).toNat = 2 ^ 8 - 1 from rfl, Nat.and_two_pow_sub_one_eq_mod,
      show (8 : UInt16).toNat % 16 = 8 from rfl, Nat.shiftRight_eq_div_pow]
    omega
  have low : (position &&& 0xFF).toUInt8.toNat = position.toNat % 256 := by
    rw [UInt16.toNat_toUInt8, UInt16.toNat_and, show (0xFF : UInt16).toNat = 2 ^ 8 - 1 from rfl,
      Nat.and_two_pow_sub_one_eq_mod]
    omega
  apply UInt16.toNat_inj.mp
  rw [getcursor, UInt16.toNat_add, UInt16.toNat_shiftLeft, UInt8.toNat_toUInt16,
    UInt8.toNat_toUInt16, show (8 : UInt16).toNat % 16 = 8 from rfl, Nat.shiftLeft_eq]
  simp only [setcursor, high, low]
  omega

def Screen.grid (s : Screen) : TextGrid UInt8 :=
  ⟨fun i => (s.vidmem i).character, (getcursor s).toNat⟩

theorem grid_cell (s : Screen) (i : Nat) : s.grid.cell i = (s.vidmem i).character := rfl

@[simp] theorem setcursor_vidmem (position : UInt16) (s : Screen) :
    (setcursor position s).vidmem = s.vidmem := rfl

@[simp] theorem getcursor_store (i : Nat) (f : Pixel → Pixel) (s : Screen) :
    getcursor (store i f s) = getcursor s := rfl

theorem printChar_grid {s : Screen} {c : UInt8} (other : c ≠ NEWLINE)
    (room : s.grid.next + 1 < 65536) : (printChar s c).grid = s.grid.put c := by
  have next : (getcursor s + 1).toNat = (getcursor s).toNat + 1 := by
    rw [UInt16.toNat_add, UInt16.toNat_one]
    exact Nat.mod_eq_of_lt room
  rw [printChar, if_neg other]
  simp only [Screen.grid, TextGrid.put, getcursor_setcursor, getcursor_store, next,
    TextGrid.mk.injEq, and_true]
  funext i
  simp only [setcursor, store, Function.update_apply]
  split <;> rfl

theorem newline_grid {s : Screen} (room : (s.grid.newline 80).next < 65536) :
    (printChar s NEWLINE).grid = s.grid.newline 80 := by
  have column : (getcursor s % WIDTH).toNat = (getcursor s).toNat % 80 := UInt16.toNat_mod _ _
  have rest : (WIDTH - getcursor s % WIDTH).toNat = 80 - (getcursor s).toNat % 80 := by
    rw [UInt16.toNat_sub_of_le, column]
    · rfl
    · rw [UInt16.le_iff_toNat_le, column, show WIDTH.toNat = 80 from rfl]
      omega
  rw [printChar, if_pos rfl]
  simp only [Screen.grid, TextGrid.newline, getcursor_setcursor, TextGrid.mk.injEq]
  refine ⟨rfl, ?_⟩
  rw [UInt16.toNat_add, rest]
  exact Nat.mod_eq_of_lt room

theorem print_append (first second : List UInt8) (s : Screen) :
    print (first ++ second) s = print second (print first s) := List.foldl_append

theorem print_grid {s : Screen} {string : List UInt8} (plain : NEWLINE ∉ string)
    (room : s.grid.next + string.length < 65536) : (print string s).grid = s.grid.puts string := by
  induction string generalizing s with
  | nil => rfl
  | cons c string ih =>
      rw [List.length_cons] at room
      have other : c ≠ NEWLINE := fun same => plain (same ▸ .head _)
      have first := printChar_grid (s := s) other (by omega)
      refine (ih (s := printChar s c) (fun member => plain (.tail _ member)) ?_).trans ?_
      · rw [first, TextGrid.put_next]
        omega
      · rw [first]
        rfl

/-- A text that fits into a row. -/
structure Line (string : List UInt8) : Prop where
  plain : NEWLINE ∉ string
  short : string.length < 80

def unlines (strings : List (List UInt8)) : List UInt8 := strings.flatMap (· ++ [NEWLINE])

theorem print_lines {s : Screen} {row : Nat} {strings : List (List UInt8)}
    (start : s.grid.next = 80 * row) (lines : ∀ string ∈ strings, Line string)
    (room : 80 * (row + strings.length) < 65536) :
    (print (unlines strings) s).grid = s.grid.lines 80 strings := by
  induction strings generalizing s row with
  | nil => rfl
  | cons string strings ih =>
      have line := lines string (.head _)
      rw [List.length_cons] at room
      have short := line.short
      have first : (print string s).grid = s.grid.puts string :=
        print_grid line.plain (by omega)
      have next := TextGrid.line_next start short
      have second : (print (string ++ [NEWLINE]) s).grid = s.grid.line 80 string := by
        rw [print_append]
        refine (newline_grid ?_).trans ?_
        · rw [first]
          change (s.grid.line 80 string).next < 65536
          omega
        · rw [first]
          rfl
      have below : (print (string ++ [NEWLINE]) s).grid.next = 80 * (row + 1) := by
        rw [second, next]
      have onward := ih below (fun string' member => lines string' (.tail _ member)) (by omega)
      rw [unlines, List.flatMap_cons, print_append]
      refine onward.trans ?_
      rw [second]
      rfl

/-! Numbers in hexadecimal. -/

/-- What `printhex` prints. -/
def hexText (hex : UInt64) : List UInt8 := text "0x" ++ (List.range 16).map (hexChar hex)

theorem printhex_eq (hex : UInt64) (s : Screen) : printhex hex s = print (hexText hex) s := by
  rw [hexText, print_append, print, List.foldl_map]
  rfl

theorem hexChar_toNat (hex : UInt64) {j : Nat} (inside : j < 16) :
    (hexChar hex j).toNat = hex.toNat / 16 ^ (15 - j) % 16 +
      if hex.toNat / 16 ^ (15 - j) % 16 < 10 then 48 else 55 := by
  have shift : (UInt64.ofNat (4 * (15 - j))).toNat = 4 * (15 - j) :=
    UInt64.toNat_ofNat_of_lt' (by simp only [UInt64.size]; omega)
  have digit : ((hex >>> UInt64.ofNat (4 * (15 - j))) &&& 0x0f).toUInt8.toNat =
      hex.toNat / 16 ^ (15 - j) % 16 := by
    rw [UInt64.toNat_toUInt8, UInt64.toNat_and, UInt64.toNat_shiftRight, shift,
      show (0x0f : UInt64).toNat = 2 ^ 4 - 1 from rfl, Nat.and_two_pow_sub_one_eq_mod,
      Nat.mod_eq_of_lt (show 4 * (15 - j) < 64 by omega), Nat.shiftRight_eq_div_pow, Nat.pow_mul]
    exact Nat.mod_eq_of_lt (Nat.lt_of_lt_of_le (Nat.mod_lt _ (by decide)) (by decide))
  have bound : hex.toNat / 16 ^ (15 - j) % 16 < 16 := Nat.mod_lt _ (by decide)
  rw [hexChar]
  simp only [UInt8.lt_iff_toNat_lt, digit, show (0xa : UInt8).toNat = 10 from rfl]
  split
  · rw [UInt8.toNat_add, digit, show (48 : UInt8).toNat = 48 from rfl]
    omega
  · rw [UInt8.toNat_add, digit, show (55 : UInt8).toNat = 55 from rfl]
    omega

def hexValue (c : UInt8) : Option Nat :=
  if 48 ≤ c.toNat ∧ c.toNat < 58 then some (c.toNat - 48)
  else if 65 ≤ c.toNat ∧ c.toNat < 71 then some (c.toNat - 55)
  else none

theorem hexValue_hexChar (hex : UInt64) {j : Nat} (inside : j < 16) :
    hexValue (hexChar hex j) = some (hex.toNat / 16 ^ (15 - j) % 16) := by
  have bound : hex.toNat / 16 ^ (15 - j) % 16 < 16 := Nat.mod_lt _ (by decide)
  have value := hexChar_toNat hex inside
  rw [hexValue, value]
  split
  · rw [if_pos (by omega)]
    simp
  · rw [if_neg (by omega), if_pos (by omega)]
    simp

/-- The number of which the 18 characters from cell `i` on are the hexadecimal form. -/
def readHex (s : Screen) (i : Nat) : Option UInt64 :=
  if (s.vidmem i).character = 48 ∧ (s.vidmem (i + 1)).character = 120 then
    ((List.range 16).mapM fun j => hexValue (s.vidmem (i + 2 + j)).character).map fun digits =>
      UInt64.ofNat (digits.foldl (fun value d => value * 16 + d) 0)
  else none

theorem mapM_some {α β : Type} (f : α → Option β) (g : α → β) (list : List α)
    (each : ∀ a ∈ list, f a = some (g a)) : list.mapM f = some (list.map g) := by
  induction list with
  | nil => rfl
  | cons a list ih =>
      rw [List.mapM_cons, each a (.head _), ih fun b member => each b (.tail _ member)]
      rfl

theorem hexText_length (hex : UInt64) : (hexText hex).length = 18 := by
  rw [hexText, List.length_append, List.length_map, List.length_range]
  decide

theorem hexText_digit (hex : UInt64) {j : Nat} (inside : j < 16) :
    (hexText hex)[2 + j]? = some (hexChar hex j) := by
  have prefix_ : (text "0x").length = 2 := by decide
  rw [hexText, List.getElem?_append_right (by omega), prefix_, Nat.add_sub_cancel_left,
    List.getElem?_map, List.getElem?_range inside]
  rfl

theorem readHex_eq {s : Screen} {i : Nat} {hex : UInt64}
    (shown : ∀ j c, (hexText hex)[j]? = some c → (s.vidmem (i + j)).character = c) :
    readHex s i = some hex := by
  have zero : (s.vidmem i).character = 48 := shown 0 48 rfl
  have x : (s.vidmem (i + 1)).character = 120 := shown 1 120 rfl
  have digits : ((List.range 16).mapM fun j => hexValue (s.vidmem (i + 2 + j)).character) =
      some ((List.range 16).map fun j => hex.toNat / 16 ^ (16 - 1 - j) % 16) := by
    refine mapM_some _ _ _ fun j member => ?_
    have inside := List.mem_range.mp member
    rw [Nat.add_assoc, shown (2 + j) (hexChar hex j) (hexText_digit hex inside)]
    exact hexValue_hexChar hex inside
  rw [readHex, if_pos ⟨zero, x⟩, digits, Option.map_some, ← fixedDigits_eq_map,
    fixedDigits_value, show 16 ^ 16 = 2 ^ 64 by decide, Nat.mod_eq_of_lt hex.toNat_lt,
    UInt64.ofNat_toNat]

theorem newline_hexText (hex : UInt64) : NEWLINE ∉ hexText hex := by
  rw [hexText, List.mem_append]
  rintro (member | member)
  · exact absurd member (by decide)
  · rcases List.mem_map.mp member with ⟨j, inside, same⟩
    have value := hexChar_toNat hex (List.mem_range.mp inside)
    have ten : NEWLINE.toNat = 10 := rfl
    rw [same, ten] at value
    split at value <;> omega

/-! The report, line by line. -/

/-- Seven lines before the entries. -/
def header (bootTable : BootInfo) : List (List UInt8) :=
  [text "Boot Table", [], text "Memory map location: " ++ hexText bootTable.memtable.toUInt64,
    text "Memory map entries: " ++ hexText bootTable.entries.toUInt64,
    text "Kernel address: " ++ hexText bootTable.kaddr.toUInt64,
    text "Kernel size: " ++ hexText bootTable.ksize.toUInt64, []]

/-- The four numbers of an entry, 19 cells apart. -/
def fields (entry : Memtable) : List UInt8 :=
  hexText entry.address ++ text "-" ++ (hexText entry.size ++ text "-") ++
    (hexText entry.type.toUInt64 ++ text "-") ++ hexText entry.extended.toUInt64

def entryLines (entry : Memtable) : List (List UInt8) := [text "entry:", fields entry]

def report (bootTable : BootInfo) (entries : List Memtable) : List (List UInt8) :=
  header bootTable ++ entries.flatMap entryLines

theorem listEntry_eq (state : UInt64 × Screen) (entry : Memtable) :
    listEntry state entry =
      (state.1 + entry.size, print (unlines (entryLines entry)) state.2) := by
  have first : text "entry:\n" = text "entry:" ++ [NEWLINE] := by decide
  have last : text "\n" = [NEWLINE] := by decide
  simp only [listEntry, printhex_eq, ← print_append, first, last, unlines, entryLines, fields,
    List.flatMap_cons, List.flatMap_nil, List.append_assoc, List.append_nil]

theorem listEntries_eq (entries : List Memtable) (state : UInt64 × Screen) :
    entries.foldl listEntry state =
      (entries.foldl (fun total e => total + e.size) state.1,
        print (unlines (entries.flatMap entryLines)) state.2) := by
  induction entries generalizing state with
  | nil => rfl
  | cons entry entries ih =>
      rw [List.foldl_cons, ih, listEntry_eq]
      refine Prod.ext rfl ?_
      simp only [unlines, List.flatMap_cons, List.flatMap_append, print_append]

/-- All of the output: the lines of the report, and the total behind them. -/
theorem kernel_eq (bootTable : BootInfo) (table : Nat → Memtable) (s : Screen) :
    kernel bootTable table s =
      (Stage2.initPmm ((List.range bootTable.entries.toNat).map table),
        print (text "total: " ++
            hexText (Stage2.initPmm ((List.range bootTable.entries.toNat).map table)))
          (print (unlines (report bootTable ((List.range bootTable.entries.toNat).map table)))
            (setcolor 0x60 (clearscreen s)))) := by
  have title : text "Boot Table\n" = text "Boot Table" ++ [NEWLINE] := by decide
  have location : text "\nMemory map location: " = [NEWLINE] ++ text "Memory map location: " := by
    decide
  have entries : text "\nMemory map entries: " = [NEWLINE] ++ text "Memory map entries: " := by
    decide
  have address : text "\nKernel address: " = [NEWLINE] ++ text "Kernel address: " := by decide
  have size : text "\nKernel size: " = [NEWLINE] ++ text "Kernel size: " := by decide
  have last : text "\n\n" = [NEWLINE] ++ [NEWLINE] := by decide
  simp only [kernel, initPmm, listEntries_eq, printhex_eq, ← print_append, title, location,
    entries, address, size, last, report, header, unlines, List.flatMap_append, List.flatMap_cons,
    List.flatMap_nil, List.append_assoc, List.append_nil, List.nil_append]
  rfl

/-! Where everything is. -/

theorem getcursor_foldl_store (f : Pixel → Pixel) (places : List Nat) (s : Screen) :
    getcursor (places.foldl (fun s i => store i f s) s) = getcursor s := by
  induction places generalizing s with
  | nil => rfl
  | cons i places ih => exact (ih (store i f s)).trans (getcursor_store i f s)

theorem foldl_store_outside (f : Pixel → Pixel) (places : List Nat) (s : Screen) {i : Nat}
    (outside : i ∉ places) :
    (places.foldl (fun s i => store i f s) s).vidmem i = s.vidmem i := by
  induction places generalizing s with
  | nil => rfl
  | cons j places ih =>
      rw [List.mem_cons, not_or] at outside
      exact (ih (store j f s) outside.2).trans (Function.update_of_ne outside.1 _ _)

/-- The screen that the report is printed on. -/
def cleared (s : Screen) : Screen := setcolor 0x60 (clearscreen s)

theorem cleared_start (s : Screen) : (cleared s).grid.next = 80 * 0 := by
  have cursor : getcursor (cleared s) = 0 := by
    rw [cleared, setcolor, getcursor_foldl_store, clearscreen, getcursor_setcursor]
  rw [Screen.grid, cursor]
  rfl

theorem cleared_outside (s : Screen) {i : Nat} (outside : 2000 ≤ i) :
    (cleared s).grid.cell i = (s.vidmem i).character := by
  have beyond : i ∉ List.range (WIDTH * HEIGHT).toNat := by
    have cells : (WIDTH * HEIGHT).toNat = 2000 := rfl
    rw [List.mem_range, cells]
    omega
  have blank : (clearscreen s).vidmem i = s.vidmem i := by
    rw [clearscreen, setcursor_vidmem, foldl_store_outside _ _ _ beyond]
  have colored : (cleared s).vidmem i = (clearscreen s).vidmem i := by
    rw [cleared, setcolor, foldl_store_outside _ _ _ beyond]
  rw [grid_cell, colored, blank]

theorem fields_length (entry : Memtable) : (fields entry).length = 75 := by
  have dash : (text "-").length = 1 := by decide
  simp only [fields, List.length_append, hexText_length, dash]

theorem report_length (bootTable : BootInfo) (entries : List Memtable) :
    (report bootTable entries).length = 7 + 2 * entries.length := by
  have pairs : (entries.flatMap entryLines).length = 2 * entries.length := by
    induction entries with
    | nil => rfl
    | cons entry entries ih =>
        rw [List.flatMap_cons, List.length_append, ih, List.length_cons, entryLines]
        simp only [List.length_cons, List.length_nil]
        omega
  rw [report, List.length_append, pairs]
  rfl

theorem line_hexText {label : List UInt8} (hex : UInt64) (plain : NEWLINE ∉ label)
    (short : label.length < 62) : Line (label ++ hexText hex) where
  plain := by
    rw [List.mem_append, not_or]
    exact ⟨plain, newline_hexText hex⟩
  short := by
    rw [List.length_append, hexText_length]
    omega

theorem line_fields (entry : Memtable) : Line (fields entry) where
  plain := by
    have dash : NEWLINE ∉ text "-" := by decide
    simp only [fields, List.mem_append, newline_hexText, dash, or_self, not_false_eq_true]
  short := by
    rw [fields_length]
    decide

theorem report_lines (bootTable : BootInfo) (entries : List Memtable) :
    ∀ string ∈ report bootTable entries, Line string := by
  intro string member
  rcases List.mem_append.mp member with top | listed
  · simp only [header, List.mem_cons, List.not_mem_nil, or_false] at top
    rcases top with rfl | rfl | rfl | rfl | rfl | rfl | rfl
    · exact ⟨by decide, by decide⟩
    · exact ⟨by decide, by decide⟩
    · exact line_hexText _ (by decide) (by decide)
    · exact line_hexText _ (by decide) (by decide)
    · exact line_hexText _ (by decide) (by decide)
    · exact line_hexText _ (by decide) (by decide)
    · exact ⟨by decide, by decide⟩
  · rcases List.mem_flatMap.mp listed with ⟨entry, _, line⟩
    simp only [entryLines, List.mem_cons, List.not_mem_nil, or_false] at line
    rcases line with rfl | rfl
    · exact ⟨by decide, by decide⟩
    · exact line_fields entry

section Cells

variable {bootTable : BootInfo} {table : Nat → Memtable} {s : Screen}

/-- The entries as a list. -/
def listed (bootTable : BootInfo) (table : Nat → Memtable) : List Memtable :=
  (List.range bootTable.entries.toNat).map table

theorem listed_length : (listed bootTable table).length = bootTable.entries.toNat := by
  rw [listed, List.length_map, List.length_range]

/-- Before the cursor wraps, the output is a grid of lines with the total behind them. -/
theorem kernel_grid (few : bootTable.entries.toNat ≤ 405) :
    (kernel bootTable table s).2.grid =
      ((cleared s).grid.lines 80 (report bootTable (listed bootTable table))).puts
        (text "total: " ++ hexText (Stage2.initPmm (listed bootTable table))) := by
  have length := report_length bootTable (listed bootTable table)
  rw [listed_length] at length
  have lines := print_lines (cleared_start s) (report_lines bootTable (listed bootTable table))
    (by omega)
  have start := TextGrid.lines_next (cleared_start s) fun string member =>
    (report_lines bootTable (listed bootTable table) string member).short
  have label : (text "total: ").length = 7 := by decide
  have plain : NEWLINE ∉ text "total: " := by decide
  rw [kernel_eq, ← listed]
  refine (print_grid ?_ ?_).trans ?_
  · rw [List.mem_append, not_or]
    exact ⟨plain, newline_hexText _⟩
  · change (print _ (cleared s)).grid.next + _ < _
    rw [lines, start, List.length_append, hexText_length, label, length]
    omega
  · change (print _ (cleared s)).grid.puts _ = _
    rw [lines]

theorem line_cell (few : bootTable.entries.toNat ≤ 405) {k j : Nat} {string : List UInt8}
    {c : UInt8} (line : (report bootTable (listed bootTable table))[k]? = some string)
    (there : string[j]? = some c) :
    ((kernel bootTable table s).2.vidmem (80 * k + j)).character = c := by
  have lines := report_lines bootTable (listed bootTable table)
  have short : ∀ string ∈ report bootTable (listed bootTable table), string.length < 80 :=
    fun string member => (lines string member).short
  have inside : k < (report bootTable (listed bootTable table)).length :=
    (List.getElem?_eq_some_iff.mp line).1
  have column : j < string.length := (List.getElem?_eq_some_iff.mp there).1
  have fits := short string (List.mem_of_getElem? line)
  have start := TextGrid.lines_next (cleared_start s) short
  have cell := TextGrid.lines_inside (cleared_start s) short line there
  rw [Nat.zero_add] at cell
  change (kernel bootTable table s).2.grid.cell _ = _
  rw [kernel_grid few, TextGrid.puts_outside _ (.inl ?_), cell]
  rw [start]
  omega

theorem total_cell (few : bootTable.entries.toNat ≤ 405) {j : Nat} {c : UInt8}
    (there : (text "total: " ++ hexText (Stage2.initPmm (listed bootTable table)))[j]? = some c) :
    ((kernel bootTable table s).2.vidmem
      (80 * (7 + 2 * bootTable.entries.toNat) + j)).character = c := by
  have start := TextGrid.lines_next (cleared_start s) fun string member =>
    (report_lines bootTable (listed bootTable table) string member).short
  rw [report_length, listed_length, Nat.zero_add] at start
  change (kernel bootTable table s).2.grid.cell _ = _
  rw [kernel_grid few, ← start]
  exact TextGrid.puts_inside _ there

/-- A number in a line of the report can be read. -/
theorem readHex_line (few : bootTable.entries.toNat ≤ 405) {k col : Nat}
    {label rest : List UInt8} {hex : UInt64}
    (line : (report bootTable (listed bootTable table))[k]? = some (label ++ (hexText hex ++ rest)))
    (column : label.length = col) :
    readHex (kernel bootTable table s).2 (80 * k + col) = some hex := by
  refine readHex_eq fun j c there => ?_
  have inside : j < (hexText hex).length := (List.getElem?_eq_some_iff.mp there).1
  rw [Nat.add_assoc]
  refine line_cell few line ?_
  rw [← column, List.getElem?_append_right (Nat.le_add_right _ _), Nat.add_sub_cancel_left,
    List.getElem?_append_left inside]
  exact there

end Cells

/-! The report read back from the screen. -/

def readEntry (s : Screen) (i : Nat) : Option Memtable := do
  let address ← readHex s (80 * (8 + 2 * i) + 0)
  let size ← readHex s (80 * (8 + 2 * i) + 19)
  let type ← readHex s (80 * (8 + 2 * i) + 38)
  let extended ← readHex s (80 * (8 + 2 * i) + 57)
  return ⟨address, size, type.toUInt32, extended.toUInt32⟩

/-- The boot table, the entries and the total. -/
def readReport (s : Screen) : Option (BootInfo × List Memtable × UInt64) := do
  let memtable ← readHex s (80 * 2 + 21)
  let entries ← readHex s (80 * 3 + 20)
  let kaddr ← readHex s (80 * 4 + 16)
  let ksize ← readHex s (80 * 5 + 13)
  let table ← (List.range entries.toNat).mapM (readEntry s)
  let total ← readHex s (80 * (7 + 2 * entries.toNat) + 7)
  return (⟨memtable.toUInt32, entries.toUInt32, kaddr.toUInt32, ksize.toUInt32⟩, table, total)

section Reading

variable {bootTable : BootInfo} {table : Nat → Memtable} {s : Screen}

theorem report_entry (bootTable : BootInfo) (table : Nat → Memtable) {i : Nat}
    (inside : i < bootTable.entries.toNat) :
    (report bootTable (listed bootTable table))[7 + 2 * i]? = some (text "entry:") ∧
      (report bootTable (listed bootTable table))[8 + 2 * i]? = some (fields (table i)) := by
  have top : (header bootTable).length = 7 := rfl
  have there : i < (List.range bootTable.entries.toNat).length := by
    rwa [List.length_range]
  have pair := pairs_getElem (fun _ => text "entry:") (fun i => fields (table i))
    (List.range bootTable.entries.toNat) i there
  have lines : (listed bootTable table).flatMap entryLines =
      (List.range bootTable.entries.toNat).flatMap fun i => [text "entry:", fields (table i)] := by
    rw [listed, List.flatMap_map]
    rfl
  rw [List.getElem_range] at pair
  constructor
  · rw [report, List.getElem?_append_right (by omega), top, lines,
      show 7 + 2 * i - 7 = 2 * i by omega]
    exact pair.1
  · rw [report, List.getElem?_append_right (by omega), top, lines,
      show 8 + 2 * i - 7 = 2 * i + 1 by omega]
    exact pair.2

theorem readEntry_eq (few : bootTable.entries.toNat ≤ 405) {i : Nat}
    (inside : i < bootTable.entries.toNat) :
    readEntry (kernel bootTable table s).2 i = some (table i) := by
  have line := (report_entry bootTable table inside).2
  have dash : (text "-").length = 1 := by decide
  have field (label : List UInt8) (hex : UInt64) (rest : List UInt8) (col : Nat)
      (shape : fields (table i) = label ++ (hexText hex ++ rest)) (column : label.length = col) :
      readHex (kernel bootTable table s).2 (80 * (8 + 2 * i) + col) = some hex :=
    readHex_line few (line.trans (congrArg some shape)) column
  have address := field [] (table i).address _ 0 (by simp only [fields, List.append_assoc]; rfl) rfl
  have size := field (hexText (table i).address ++ text "-") (table i).size _ 19
    (by simp only [fields, List.append_assoc]; rfl)
    (by simp only [List.length_append, hexText_length, dash])
  have type := field
    (hexText (table i).address ++ text "-" ++ (hexText (table i).size ++ text "-"))
    (table i).type.toUInt64 _ 38 (by simp only [fields, List.append_assoc]; rfl)
    (by simp only [List.length_append, hexText_length, dash])
  have extended := field (hexText (table i).address ++ text "-" ++
      (hexText (table i).size ++ text "-") ++ (hexText (table i).type.toUInt64 ++ text "-"))
    (table i).extended.toUInt64 [] 57 (by simp only [fields, List.append_nil])
    (by simp only [List.length_append, hexText_length, dash])
  simp only [readEntry, address, size, type, extended, UInt32.toUInt32_toUInt64,
    Option.bind_eq_bind, Option.bind_some]
  rfl

theorem readReport_eq (few : bootTable.entries.toNat ≤ 405) :
    readReport (kernel bootTable table s).2 =
      some (bootTable, listed bootTable table, (kernel bootTable table s).1) := by
  have top {k col : Nat} {label : List UInt8} {hex : UInt64}
      (line : (header bootTable)[k]? = some (label ++ hexText hex)) (column : label.length = col) :
      readHex (kernel bootTable table s).2 (80 * k + col) = some hex := by
    have inside : k < (header bootTable).length := (List.getElem?_eq_some_iff.mp line).1
    have listed_ : (report bootTable (listed bootTable table))[k]? =
        some (label ++ (hexText hex ++ [])) := by
      rw [report, List.getElem?_append_left inside, List.append_nil, line]
    exact readHex_line few listed_ column
  have memtable := top (k := 2) rfl (show (text "Memory map location: ").length = 21 by decide)
  have entries := top (k := 3) rfl (show (text "Memory map entries: ").length = 20 by decide)
  have kaddr := top (k := 4) rfl (show (text "Kernel address: ").length = 16 by decide)
  have ksize := top (k := 5) rfl (show (text "Kernel size: ").length = 13 by decide)
  have number : bootTable.entries.toUInt64.toNat = bootTable.entries.toNat :=
    UInt32.toNat_toUInt64 _
  have rows : (List.range bootTable.entries.toNat).mapM (readEntry (kernel bootTable table s).2) =
      some (listed bootTable table) :=
    mapM_some _ _ _ fun i member => readEntry_eq few (List.mem_range.mp member)
  have label : (text "total: ").length = 7 := by decide
  have total : readHex (kernel bootTable table s).2 (80 * (7 + 2 * bootTable.entries.toNat) + 7) =
      some (kernel bootTable table s).1 := by
    refine readHex_eq fun j c there => ?_
    rw [Nat.add_assoc]
    refine total_cell few ?_
    rw [List.getElem?_append_right (by omega), label, Nat.add_sub_cancel_left]
    rwa [kernel_eq] at there
  simp only [readReport, memtable, entries, kaddr, ksize, number, rows, total,
    UInt32.toUInt32_toUInt64, Option.bind_eq_bind, Option.bind_some]
  rfl

end Reading

/-- As long as the cursor does not wrap, the boot table, every entry of the memory map and the
total can be read back from the screen. -/
theorem report_reads_back (bootTable : BootInfo) (table : Nat → Memtable) (s : Screen)
    (few : bootTable.entries.toNat ≤ 405) :
    readReport (kernel bootTable table s).2 =
      some (bootTable, listed bootTable table, (kernel bootTable table s).1) :=
  readReport_eq few

def sampleBoot : BootInfo := ⟨0x7e00, 2, 0x100000, 0x3000⟩

def sampleTable (i : Nat) : Memtable := ⟨0x100000 + 0x200000 * UInt64.ofNat i, 0x100000, 1, 1⟩

theorem sample_reads_back :
    readReport (kernel sampleBoot sampleTable ⟨fun _ => ⟨0, 0⟩, 0, 0⟩).2 =
      some (sampleBoot, [⟨0x100000, 0x100000, 1, 1⟩, ⟨0x300000, 0x100000, 1, 1⟩], 0x200000) :=
  (report_reads_back sampleBoot sampleTable ⟨fun _ => ⟨0, 0⟩, 0, 0⟩ (by decide)).trans (by
    rw [kernel_eq]
    rfl)

end TitorOS.Kernel
