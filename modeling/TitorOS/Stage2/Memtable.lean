import TitorOS.Lib.Span
import Mathlib.Data.List.Basic
import Mathlib.Data.UInt

/-! The memory map of `stage2.c`: `mmap` merges the usable entries of the E820
table, cuts them at 1 MiB, aligns them to pages and moves them to the front. -/

namespace TitorOS.Stage2

open TitorOS.Lib

def USABLE : UInt32 := 1
def UNUSABLE : UInt32 := 2
def PAGE_SIZE : UInt64 := 0x1000

structure Memtable where
  address : UInt64
  size : UInt64
  type : UInt32
  extended : UInt32
  deriving DecidableEq, Repr

/-- The region `start .. stop` with entry `kstart .. kend` merged in, or `none` for
`continue`. -/
def absorb (start stop kstart kend : UInt64) : Option (UInt64 × UInt64) :=
  if start ≤ kstart ∧ kstart ≤ stop then
    some (start, if kend > stop then kend else stop)
  else if start ≤ kend ∧ kend ≤ stop then
    some (if kstart < start then kstart else start, stop)
  else if kstart ≤ start ∧ kend ≥ stop then
    some (kstart, kend)
  else none

/-- The loop over `k`. -/
def checkOverlaps (start stop : UInt64) : List Memtable → UInt64 × UInt64 × List Memtable
  | [] => (start, stop, [])
  | e :: rest =>
      if e.type ≠ USABLE then
        let (start, stop, rest) := checkOverlaps start stop rest
        (start, stop, e :: rest)
      else
        match absorb start stop e.address (e.address + e.size) with
        | none =>
            let (start, stop, rest) := checkOverlaps start stop rest
            (start, stop, e :: rest)
        | some (start, stop) =>
            let (start, stop, rest) := checkOverlaps start stop rest
            (start, stop, { e with type := UNUSABLE } :: rest)

/-- The end of the loop body over `i`. -/
def cutLow (e : Memtable) (start stop : UInt64) : Memtable :=
  let type := if stop ≤ 0x100000 then UNUSABLE else e.type
  let start := if start < 0x100000 then 0x100000 else start
  { e with address := start, size := stop - start, type := type }

/-- The loop over `i`, with `entries` rounds to go. -/
def combine : Nat → List Memtable → List Memtable
  | 0, table => table
  | _ + 1, [] => []
  | entries + 1, e :: rest =>
      if e.type ≠ USABLE then e :: combine entries rest
      else
        let (start, stop, rest) := checkOverlaps e.address (e.address + e.size) rest
        cutLow e start stop :: combine entries rest

def alignStart (e : Memtable) : Memtable :=
  let misalignment := e.address % PAGE_SIZE
  if misalignment ≠ 0 then
    { e with
      address := e.address + (PAGE_SIZE - misalignment)
      size := e.size - (PAGE_SIZE - misalignment) }
  else e

def alignEnd (e : Memtable) : Memtable :=
  let misalignment := (e.address + e.size) % PAGE_SIZE
  if misalignment ≠ 0 then { e with size := e.size - misalignment } else e

def align (e : Memtable) : Memtable := alignEnd (alignStart e)

/-- The usable entries are copied down in place; `j` counts them. -/
def truncate : Nat → Nat → Nat → List Memtable → Nat × List Memtable
  | 0, _, j, table => (j, table)
  | entries + 1, i, j, table =>
      match table[i]? with
      | none => (j, table)
      | some e =>
          if e.type ≠ USABLE then truncate entries (i + 1) j table
          else truncate entries (i + 1) (j + 1) (table.set j e)

/-- `kaddr` is `none` in the endless loop after "Can't load kernel". -/
structure BootInfo where
  table : List Memtable
  entries : Nat
  kaddr : Option UInt32

def findSlot (ksize : UInt32) (regions : List Memtable) : Option UInt32 :=
  (regions.find? fun e => e.size ≥ ksize.toUInt64).map fun e => e.address.toUInt32

def mmap (ksize : UInt32) (table : List Memtable) : BootInfo :=
  let entries := table.length
  let table := combine entries table
  let table := table.map align
  let (j, table) := truncate entries 0 0 table
  ⟨table, j, findSlot ksize (table.take j)⟩

def BootInfo.regions (boot : BootInfo) : List Memtable := boot.table.take boot.entries

/-- As the BIOS delivers it. -/
def Reported (table : List Memtable) : Prop :=
  ∀ e ∈ table, e.address.toNat + e.size.toNat < 2 ^ 64

def Memtable.Covers (e : Memtable) (b : Nat) : Prop :=
  e.address.toNat ≤ b ∧ b < e.address.toNat + e.size.toNat

/-- Every byte of the regions is above 1 MiB and was reported usable. -/
def MapSound (reported : List Memtable) (boot : BootInfo) : Prop :=
  ∀ e ∈ boot.regions, ∀ b, e.Covers b →
    0x100000 ≤ b ∧ ∃ o ∈ reported, o.type = USABLE ∧ o.Covers b

def Memtable.span (e : Memtable) : Option (Span Nat) :=
  if e.type = USABLE then
    some ⟨e.address.toNat, e.address.toNat + e.size.toNat, Nat.le_add_right ..⟩
  else none

/-- No group of merged entries lies strictly inside one page above 1 MiB. A group is
an entry that no earlier usable entry touches, with the later usable entries
that chains of touching entries lead to, less those of earlier groups. -/
def PageCrossing (table : List Memtable) : Prop :=
  ∀ i s page, (table.map Memtable.span)[i]? = some (some s) → Root (table.map Memtable.span) i →
    0x100000 ≤ page * 4096 → s.lo / 4096 = page →
      ∃ k t, (table.map Memtable.span)[k]? = some (some t) ∧
        Owns (table.map Memtable.span) i k ∧
        (t.lo ≤ page * 4096 ∨ (page + 1) * 4096 ≤ t.hi)

theorem absorb_spec (start stop kstart kend : UInt64) (s t : Span Nat)
    (low : start.toNat = s.lo) (high : stop.toNat = s.hi) (klow : kstart.toNat = t.lo)
    (khigh : kend.toNat = t.hi) :
    (¬ s.Touches t ∧ absorb start stop kstart kend = none) ∨
      ∃ a b, s.Touches t ∧ absorb start stop kstart kend = some (a, b) ∧
        a.toNat = (s.hull t).lo ∧ b.toNat = (s.hull t).hi := by
  have orderedS := s.ordered
  have orderedT := t.ordered
  simp only [Span.Touches, Span.hull, absorb, UInt64.le_iff_toNat_le, UInt64.lt_iff_toNat_lt,
    gt_iff_lt, ge_iff_le, low, high, klow, khigh]
  by_cases first : s.lo ≤ t.lo ∧ t.lo ≤ s.hi
  · right
    by_cases longer : s.hi < t.hi
    · exact ⟨start, kend, by omega, by simp [first, longer], by omega, by omega⟩
    · exact ⟨start, stop, by omega, by simp [first, longer], by omega, by omega⟩
  by_cases second : s.lo ≤ t.hi ∧ t.hi ≤ s.hi
  · right
    by_cases earlier : t.lo < s.lo
    · exact ⟨kstart, stop, by omega, by simp [first, second, earlier], by omega, by omega⟩
    · exact ⟨start, stop, by omega, by simp [first, second, earlier], by omega, by omega⟩
  by_cases third : t.lo ≤ s.lo ∧ s.hi ≤ t.hi
  · exact .inr ⟨kstart, kend, by omega, by simp [first, second, third], by omega, by omega⟩
  · exact .inl ⟨by omega, by simp [first, second, third]⟩

theorem span_usable (e : Memtable) (usable : e.type = USABLE) :
    ∃ t, e.span = some t ∧ t.lo = e.address.toNat ∧ t.hi = e.address.toNat + e.size.toNat :=
  ⟨_, if_pos usable, rfl, rfl⟩

theorem span_unusable (e : Memtable) (unusable : e.type ≠ USABLE) : e.span = none :=
  if_neg unusable

theorem checkOverlaps_spec (start stop : UInt64) (table : List Memtable) (s : Span Nat)
    (low : start.toNat = s.lo) (high : stop.toNat = s.hi) (reported : Reported table) :
    (checkOverlaps start stop table).1.toNat = (sweep s (table.map Memtable.span)).1.lo ∧
    (checkOverlaps start stop table).2.1.toNat = (sweep s (table.map Memtable.span)).1.hi ∧
    (checkOverlaps start stop table).2.2.map Memtable.span =
      (sweep s (table.map Memtable.span)).2 ∧
    Reported (checkOverlaps start stop table).2.2 := by
  induction table generalizing start stop s with
  | nil => exact ⟨low, high, rfl, reported⟩
  | cons e rest ih =>
      have reportedRest : Reported rest := fun o member => reported o (List.mem_cons_of_mem e member)
      have bound := reported e List.mem_cons_self
      by_cases usable : e.type = USABLE
      · rcases span_usable e usable with ⟨t, shape, tlow, thigh⟩
        have khigh : (e.address + e.size).toNat = t.hi := by
          rw [UInt64.toNat_add, Nat.mod_eq_of_lt bound, thigh]
        rcases absorb_spec start stop e.address (e.address + e.size) s t low high tlow.symm khigh
          with ⟨apart, skipped⟩ | ⟨a, b, touch, merged, lowA, highB⟩
        · rcases ih start stop s low high reportedRest with ⟨first, second, cells, keep⟩
          simp only [checkOverlaps, usable, skipped, ne_eq, not_true_eq_false, if_false,
            List.map_cons, shape, sweep, apart]
          refine ⟨first, second, by rw [cells], ?_⟩
          intro o member
          rcases List.mem_cons.mp member with rfl | inside
          · exact bound
          · exact keep o inside
        · rcases ih a b (s.hull t) lowA highB reportedRest with ⟨first, second, cells, keep⟩
          simp only [checkOverlaps, usable, merged, ne_eq, not_true_eq_false, if_false,
            List.map_cons, shape, sweep, touch, if_true]
          refine ⟨first, second, ?_, ?_⟩
          · rw [cells, span_unusable _ (show UNUSABLE ≠ USABLE by decide)]
          · intro o member
            rcases List.mem_cons.mp member with rfl | inside
            · exact bound
            · exact keep o inside
      · rcases ih start stop s low high reportedRest with ⟨first, second, cells, keep⟩
        simp only [checkOverlaps, usable, ne_eq, not_false_eq_true, if_true, List.map_cons,
          span_unusable e usable, sweep]
        refine ⟨first, second, by rw [cells], ?_⟩
        intro o member
        rcases List.mem_cons.mp member with rfl | inside
        · exact bound
        · exact keep o inside

/-- What `combine` leaves of a cell: a region that starts at or above 1 MiB, or an
unusable entry. -/
def Cut : Option (Span Nat) → Memtable → Prop
  | none, e => e.type ≠ USABLE
  | some s, e =>
      if s.hi ≤ 0x100000 then e.type ≠ USABLE
      else e.type = USABLE ∧ e.address.toNat = max s.lo 0x100000 ∧
        e.address.toNat + e.size.toNat = s.hi ∧ s.hi < 2 ^ 64

theorem cutLow_spec (e : Memtable) (start stop : UInt64) (s : Span Nat) (usable : e.type = USABLE)
    (low : start.toNat = s.lo) (high : stop.toNat = s.hi) : Cut (some s) (cutLow e start stop) := by
  have ordered := s.ordered
  have bound := stop.toNat_lt
  simp only [Cut, cutLow, UInt64.le_iff_toNat_le, UInt64.lt_iff_toNat_lt, high, low, usable]
  have mib : (0x100000 : UInt64).toNat = 0x100000 := rfl
  rw [mib]
  by_cases below : s.hi ≤ 0x100000
  · simp only [below, if_true]
    decide
  · simp only [below, if_false, true_and]
    by_cases cut : s.lo < 0x100000
    · have difference : (stop - 0x100000).toNat = s.hi - 0x100000 := by
        rw [UInt64.toNat_sub_of_le _ _ (UInt64.le_iff_toNat_le.mpr (by omega)), high, mib]
      simp only [cut, if_true, mib, difference]
      omega
    · have difference : (stop - start).toNat = s.hi - s.lo := by
        rw [UInt64.toNat_sub_of_le _ _ (UInt64.le_iff_toNat_le.mpr (by omega)), high, low]
      simp only [cut, if_false, low, difference]
      omega

theorem combine_spec (entries : Nat) (table : List Memtable) (enough : table.length ≤ entries)
    (reported : Reported table) :
    List.Forall₂ Cut (merge (table.map Memtable.span)) (combine entries table) := by
  induction entries generalizing table with
  | zero =>
      have empty : table = [] := List.length_eq_zero_iff.mp (Nat.le_zero.mp enough)
      rw [empty, List.map_nil, merge]
      exact .nil
  | succ entries ih =>
      cases table with
      | nil =>
          rw [List.map_nil, merge]
          exact .nil
      | cons e rest =>
          have reportedRest : Reported rest := fun o member =>
            reported o (List.mem_cons_of_mem e member)
          have shorter : rest.length ≤ entries := Nat.le_of_succ_le_succ enough
          by_cases usable : e.type = USABLE
          · rcases span_usable e usable with ⟨t, shape, tlow, thigh⟩
            have stop : (e.address + e.size).toNat = t.hi := by
              rw [UInt64.toNat_add, Nat.mod_eq_of_lt (reported e List.mem_cons_self), thigh]
            rcases checkOverlaps_spec e.address (e.address + e.size) rest t tlow.symm stop
              reportedRest with ⟨first, second, cells, keep⟩
            have length : (checkOverlaps e.address (e.address + e.size) rest).2.2.length =
                rest.length := by
              have same := congrArg List.length cells
              simpa [sweep_length] using same
            simp only [List.map_cons, shape, merge, combine, usable, ne_eq, not_true_eq_false,
              if_false]
            refine .cons (cutLow_spec e _ _ _ usable first second) ?_
            rw [← cells]
            exact ih _ (length ▸ shorter) keep
          · simp only [List.map_cons, span_unusable e usable, merge, combine, usable, ne_eq,
              not_false_eq_true, if_true]
            exact .cons usable (ih rest shorter reportedRest)

theorem align_type (e : Memtable) : (align e).type = e.type := by
  simp only [align, alignEnd, alignStart]
  split <;> split <;> rfl

theorem toNat_mod_page (x : UInt64) : (x % PAGE_SIZE).toNat = x.toNat % 4096 := UInt64.toNat_mod ..

theorem mod_page_eq_zero (x : UInt64) : x % PAGE_SIZE = 0 ↔ x.toNat % 4096 = 0 := by
  rw [← UInt64.toNat_inj, toNat_mod_page]
  rfl

/-- The first page boundary at or above `a`. -/
def pageAbove (a : Nat) : Nat := (a + 4095) / 4096 * 4096

theorem alignStart_toNat (e : Memtable) (h : Nat) (high : e.address.toNat + e.size.toNat = h)
    (bound : h < 2 ^ 64) :
    (alignStart e).address.toNat = pageAbove e.address.toNat % 2 ^ 64 ∧
      ((alignStart e).address + (alignStart e).size).toNat = h := by
  have page : PAGE_SIZE.toNat = 4096 := rfl
  have addressBound := e.address.toNat_lt
  by_cases aligned : e.address % PAGE_SIZE = 0
  · have zero := (mod_page_eq_zero _).mp aligned
    simp only [alignStart, aligned, ne_eq, not_true_eq_false, if_false, pageAbove]
    refine ⟨by omega, ?_⟩
    rw [UInt64.toNat_add, high, Nat.mod_eq_of_lt bound]
  · have misaligned : e.address.toNat % 4096 ≠ 0 := (mod_page_eq_zero _).not.mp aligned
    have small : e.address % PAGE_SIZE ≤ PAGE_SIZE := by
      rw [UInt64.le_iff_toNat_le, toNat_mod_page, page]
      omega
    have gap : (PAGE_SIZE - e.address % PAGE_SIZE).toNat = 4096 - e.address.toNat % 4096 := by
      rw [UInt64.toNat_sub_of_le _ _ small, toNat_mod_page, page]
    simp only [alignStart, aligned, ne_eq, not_false_eq_true, if_true]
    constructor
    · have next : e.address.toNat + (4096 - e.address.toNat % 4096) = pageAbove e.address.toNat := by
        rw [pageAbove]
        omega
      rw [UInt64.toNat_add, gap, next]
    · rw [UInt64.add_assoc, UInt64.add_comm (PAGE_SIZE - _), UInt64.sub_add_cancel,
        UInt64.toNat_add, high, Nat.mod_eq_of_lt bound]

theorem alignEnd_toNat (e : Memtable) :
    (alignEnd e).address = e.address ∧
      ((alignEnd e).address + (alignEnd e).size).toNat = (e.address + e.size).toNat / 4096 * 4096 := by
  by_cases aligned : (e.address + e.size) % PAGE_SIZE = 0
  · have zero := (mod_page_eq_zero _).mp aligned
    simp only [alignEnd, aligned, ne_eq, not_true_eq_false, if_false, true_and]
    omega
  · simp only [alignEnd, aligned, ne_eq, not_false_eq_true, if_true, true_and]
    have below : (e.address + e.size) % PAGE_SIZE ≤ e.address + e.size := by
      rw [UInt64.le_iff_toNat_le, toNat_mod_page]
      exact Nat.mod_le ..
    rw [← add_sub_assoc, UInt64.toNat_sub_of_le _ _ below, toNat_mod_page]
    omega

theorem align_toNat (e : Memtable) (h : Nat) (high : e.address.toNat + e.size.toNat = h)
    (bound : h < 2 ^ 64) :
    (align e).address.toNat = pageAbove e.address.toNat % 2 ^ 64 ∧
      ((align e).address.toNat + (align e).size.toNat) % 2 ^ 64 = h / 4096 * 4096 := by
  rcases alignStart_toNat e h high bound with ⟨start, stop⟩
  rcases alignEnd_toNat (alignStart e) with ⟨same, down⟩
  rw [align, ← UInt64.toNat_add, down, stop, same, start]
  exact ⟨rfl, rfl⟩

theorem align_shrinks (e : Memtable) (h : Nat) (high : e.address.toNat + e.size.toNat = h)
    (bound : h < 2 ^ 64) (crossing : pageAbove e.address.toNat ≤ h) :
    e.address.toNat ≤ (align e).address.toNat ∧
      (align e).address.toNat + (align e).size.toNat ≤ h := by
  rcases align_toNat e h high bound with ⟨start, stop⟩
  have sizeBound := (align e).size.toNat_lt
  rw [Nat.mod_eq_of_lt (by omega)] at start
  rw [pageAbove] at start crossing
  omega

theorem align_wraps (e : Memtable) (h : Nat) (high : e.address.toNat + e.size.toNat = h)
    (bound : h < 2 ^ 64) (inside : h < pageAbove e.address.toNat) :
    (align e).address.toNat = pageAbove e.address.toNat % 2 ^ 64 ∧
      (align e).size.toNat = 2 ^ 64 - 4096 := by
  rcases align_toNat e h high bound with ⟨start, stop⟩
  have sizeBound := (align e).size.toNat_lt
  refine ⟨start, ?_⟩
  rw [start] at stop
  rw [pageAbove] at inside stop
  omega

/-- The compaction keeps the usable entries in order: below `i` the table is done, from
`i` on it is untouched. -/
theorem truncate_spec (entries i j : Nat) (table done : List Memtable) (behind : j ≤ i)
    (within : i ≤ table.length) (all : table.length ≤ i + entries)
    (kept : table.take j = done) (count : done.length = j) :
    (truncate entries i j table).2.take (truncate entries i j table).1 =
      done ++ (table.drop i).filter (·.type = USABLE) := by
  induction entries generalizing i j table done with
  | zero =>
      rw [truncate, kept, List.drop_eq_nil_of_le (by omega), List.filter_nil, List.append_nil]
  | succ entries ih =>
      rcases Nat.lt_or_ge i table.length with more | last
      · have here : table[i]? = some table[i] := List.getElem?_eq_getElem more
        rw [List.drop_eq_getElem_cons more]
        by_cases usable : table[i].type = USABLE
        · simp only [truncate, here, usable, ne_eq, not_true_eq_false, if_false, decide_true,
            List.filter_cons_of_pos]
          rw [ih (i + 1) (j + 1) (table.set j table[i]) (done ++ [table[i]]) (by omega)
            (by simpa using Nat.succ_le_of_lt more) (by simp; omega) ?_ (by simp [count])]
          · rw [List.drop_set_of_lt (by omega), List.append_assoc]
            rfl
          · rw [List.take_add_one, List.take_set_of_le (by omega), kept]
            have slot : (table.set j table[i])[j]? = some table[i] :=
              List.getElem?_set_self (by omega)
            rw [slot]
            rfl
        · simp only [truncate, here, usable, ne_eq, not_false_eq_true, if_true, decide_false,
            List.filter_cons_of_neg, Bool.false_eq_true]
          exact ih (i + 1) j table done (by omega) more (by omega) kept count
      · have none : table[i]? = none := List.getElem?_eq_none last
        rw [truncate, none, List.drop_eq_nil_of_le last, List.filter_nil, List.append_nil]
        exact kept

/-- The region of a merged span, cut at 1 MiB. -/
structure Region (s : Span Nat) (o : Memtable) : Prop where
  low : o.address.toNat = max s.lo 0x100000
  high : o.address.toNat + o.size.toNat = s.hi
  above : 0x100000 < s.hi
  bound : s.hi < 2 ^ 64

theorem cut_usable (cell : Option (Span Nat)) (o : Memtable) (cut : Cut cell o)
    (usable : o.type = USABLE) : ∃ s, cell = some s ∧ Region s o := by
  cases cell with
  | none => exact absurd usable cut
  | some s =>
      simp only [Cut] at cut
      split at cut
      · exact absurd usable cut
      · rename_i above
        exact ⟨s, rfl, cut.2.1, cut.2.2.1, Nat.lt_of_not_le above, cut.2.2.2⟩

theorem exists_region (table : List Memtable) (reported : Reported table) (i : Nat) (s : Span Nat)
    (merged : Cells.Holds (merge (table.map Memtable.span)) i s) (above : 0x100000 < s.hi) :
    ∃ o, (combine table.length table)[i]? = some o ∧ o.type = USABLE ∧ Region s o := by
  have cuts := combine_spec table.length table le_rfl reported
  rcases List.forall₂_iff_get.mp cuts with ⟨same, pointwise⟩
  rcases List.getElem?_eq_some_iff.mp merged with ⟨first, cell⟩
  have second : i < (combine table.length table).length := same ▸ first
  have cut := pointwise i first second
  rw [List.get_eq_getElem, List.get_eq_getElem, cell, Cut, if_neg (Nat.not_le_of_lt above)] at cut
  exact ⟨_, List.getElem?_eq_getElem second, cut.1, cut.2.1, cut.2.2.1, above, cut.2.2.2⟩

theorem checkOverlaps_length (start stop : UInt64) (table : List Memtable) :
    (checkOverlaps start stop table).2.2.length = table.length := by
  induction table generalizing start stop with
  | nil => rfl
  | cons e rest ih =>
      rw [checkOverlaps]
      split
      · simp [ih]
      · split
        · simp [ih]
        · simp [ih]

theorem combine_length (entries : Nat) (table : List Memtable) :
    (combine entries table).length = table.length := by
  induction entries generalizing table with
  | zero => rfl
  | succ entries ih =>
      cases table with
      | nil => rfl
      | cons e rest =>
          rw [combine]
          split
          · simp [ih]
          · simp [ih, checkOverlaps_length]

theorem regions_eq (ksize : UInt32) (table : List Memtable) :
    (mmap ksize table).regions =
      ((combine table.length table).map align).filter (·.type = USABLE) := by
  have taken := truncate_spec table.length 0 0 ((combine table.length table).map align) [] le_rfl
    (Nat.zero_le _) (by rw [List.length_map, combine_length, Nat.zero_add]) rfl rfl
  rw [List.nil_append, List.drop_zero] at taken
  exact taken

theorem mem_regions (ksize : UInt32) (table : List Memtable) (reported : Reported table)
    (e : Memtable) :
    e ∈ (mmap ksize table).regions ↔
      ∃ i s o, Cells.Holds (merge (table.map Memtable.span)) i s ∧ Region s o ∧ o.type = USABLE ∧
        (combine table.length table)[i]? = some o ∧ e = align o := by
  have cuts := combine_spec table.length table le_rfl reported
  rcases List.forall₂_iff_get.mp cuts with ⟨same, pointwise⟩
  rw [regions_eq ksize table, List.mem_filter, List.mem_map]
  constructor
  · rintro ⟨⟨o, member, rfl⟩, usable⟩
    rw [align_type, decide_eq_true_eq] at usable
    rcases List.mem_iff_getElem.mp member with ⟨i, inside, here⟩
    have cut := pointwise i (by omega) inside
    rw [List.get_eq_getElem, List.get_eq_getElem, here] at cut
    rcases cut_usable _ o cut usable with ⟨s, cell, region⟩
    refine ⟨i, s, o, ?_, region, usable, ?_, rfl⟩
    · rw [Cells.Holds, List.getElem?_eq_getElem (by omega), cell]
    · rw [List.getElem?_eq_getElem inside, here]
  · rintro ⟨i, s, o, _, _, usable, here, rfl⟩
    exact ⟨⟨o, List.mem_of_getElem? here, rfl⟩, by rw [align_type, usable]; rfl⟩

theorem covers_ofPart (b : Nat) : OfPart fun s : Span Nat => s.Covers b :=
  fun s t touch => s.hull_covers t b touch

theorem not_within_ofPart (p q : Nat) : OfPart fun s : Span Nat => ¬ s.Within p q := by
  intro s t _
  simp only [Span.hull_within, not_and_or]

theorem holds_span (table : List Memtable) (k : Nat) (t : Span Nat)
    (holds : Cells.Holds (table.map Memtable.span) k t) :
    ∃ o ∈ table, o.type = USABLE ∧ t.lo = o.address.toNat ∧
      t.hi = o.address.toNat + o.size.toNat := by
  rw [Cells.Holds, List.getElem?_map, Option.map_eq_some_iff] at holds
  rcases holds with ⟨o, here, shape⟩
  by_cases usable : o.type = USABLE
  · rcases span_usable o usable with ⟨u, same, low, high⟩
    cases same.symm.trans shape
    exact ⟨o, List.mem_of_getElem? here, usable, low, high⟩
  · rw [span_unusable o usable] at shape
    cases shape

theorem merged_within (table : List Memtable) (i page : Nat) (u : Span Nat)
    (merged : Cells.Holds (merge (table.map Memtable.span)) i u) :
    u.Within (page * 4096) ((page + 1) * 4096) ↔
      ∀ k t, Cells.Holds (table.map Memtable.span) k t → Owns (table.map Memtable.span) i k →
        t.Within (page * 4096) ((page + 1) * 4096) := by
  have parts := merge_ofPart (not_within_ofPart (page * 4096) ((page + 1) * 4096)) _ i u merged
  rw [← not_iff_not, parts]
  push Not
  rfl

/-- A merged span that ends above 1 MiB and is not strictly inside one page reaches the
page boundary above its start. -/
theorem region_crosses (s : Span Nat) (o : Memtable) (region : Region s o)
    (outside : 0x100000 ≤ s.lo / 4096 * 4096 →
      ¬ s.Within (s.lo / 4096 * 4096) ((s.lo / 4096 + 1) * 4096)) :
    pageAbove o.address.toNat ≤ s.hi := by
  have above := region.above
  have ordered := s.ordered
  rw [pageAbove, region.low]
  simp only [Span.Within] at outside
  omega

/-- A group strictly inside a page above 1 MiB leaves a region that covers byte `2^64 - 1`,
or byte 0 if its page is the last one. -/
theorem within_page_unsound (ksize : UInt32) (table : List Memtable) (reported : Reported table)
    (i page : Nat) (u : Span Nat) (merged : Cells.Holds (merge (table.map Memtable.span)) i u)
    (above : 0x100000 ≤ page * 4096) (inside : u.Within (page * 4096) ((page + 1) * 4096)) :
    ¬ MapSound table (mmap ksize table) := by
  intro sound
  rcases inside with ⟨low, high⟩
  have ordered := u.ordered
  rcases exists_region table reported i u merged (by omega) with ⟨o, here, usable, region⟩
  have start := region.low
  have next : pageAbove o.address.toNat = (page + 1) * 4096 := by
    rw [pageAbove]
    omega
  rcases align_wraps o u.hi region.high region.bound (by omega) with ⟨address, size⟩
  have member := (mem_regions ksize table reported (align o)).mpr
    ⟨i, u, o, merged, region, usable, here, rfl⟩
  have bound := o.address.toNat_lt
  rw [next] at address
  by_cases last : (page + 1) * 4096 = 2 ^ 64
  · rw [last, Nat.mod_self] at address
    have zero := (sound _ member 0 ⟨by omega, by omega⟩).1
    omega
  · rcases (sound _ member (2 ^ 64 - 1) ⟨by omega, by omega⟩).2 with ⟨e, listed, _, _, top⟩
    have fits := reported e listed
    omega

theorem crossing_sound (ksize : UInt32) (table : List Memtable) (reported : Reported table)
    (crossing : PageCrossing table) : MapSound table (mmap ksize table) := by
  intro e member b covered
  rcases (mem_regions ksize table reported e).mp member with ⟨i, s, o, merged, region, _, _, rfl⟩
  have outside : 0x100000 ≤ s.lo / 4096 * 4096 →
      ¬ s.Within (s.lo / 4096 * 4096) ((s.lo / 4096 + 1) * 4096) := by
    intro above inside
    have group := (merged_within table i _ s merged).mp inside
    have root := (merge_root _ i).mp ⟨s, merged⟩
    rcases root.1 with ⟨t, own⟩
    rcases group i t own root.owns with ⟨low, high⟩
    have ordered := t.ordered
    rcases crossing i t (s.lo / 4096) own root above (by omega) with ⟨k, v, holds, owns, part⟩
    rcases group k v holds owns with ⟨lowV, highV⟩
    omega
  have crosses := region_crosses s o region outside
  rcases align_shrinks o s.hi region.high region.bound crosses with ⟨low, high⟩
  rcases covered with ⟨left, right⟩
  have start := region.low
  have inside : s.Covers b := ⟨by omega, by omega⟩
  rcases (merge_ofPart (covers_ofPart b) _ i s merged).mp inside with ⟨k, t, holds, _, part⟩
  rcases holds_span table k t holds with ⟨e, listed, usable, lowE, highE⟩
  refine ⟨by omega, e, listed, usable, ?_, ?_⟩
  · rw [← lowE]
    exact part.1
  · rw [← highE]
    exact part.2

/-- The memory map is sound exactly when no group of entries to be merged lies strictly
inside one page above 1 MiB. -/
theorem mmap_sound_iff (ksize : UInt32) (table : List Memtable) (reported : Reported table) :
    MapSound table (mmap ksize table) ↔ PageCrossing table := by
  constructor
  · intro sound i s page holds root above start
    by_contra none
    rcases (merge_root _ i).mpr root with ⟨u, merged⟩
    have inside : u.Within (page * 4096) ((page + 1) * 4096) := by
      rw [merged_within table i page u merged]
      intro k t here owns
      by_contra outside
      refine none ⟨k, t, here, owns, ?_⟩
      simp only [Span.Within] at outside
      omega
    exact within_page_unsound ksize table reported i page u merged above inside sound
  · exact crossing_sound ksize table reported

/-- One usable megabyte at 1 MiB. -/
def oneRegion : List Memtable := [⟨0x100000, 0x100000, USABLE, 1⟩]

theorem oneRegion_sound : MapSound oneRegion (mmap 0x1000 oneRegion) := by
  have reported : Reported oneRegion := by
    rw [Reported]
    decide
  rw [mmap_sound_iff 0x1000 oneRegion reported]
  intro i s page holds root above start
  refine ⟨i, s, holds, root.owns, ?_⟩
  rcases holds_span oneRegion i s holds with ⟨e, listed, _, low, _⟩
  rw [List.mem_singleton.mp listed] at low
  left
  rw [low] at start ⊢
  rw [← start]
  decide

theorem one_byte_unsound :
    ¬ ∀ (ksize : UInt32) (table : List Memtable), Reported table →
      MapSound table (mmap ksize table) := by
  intro claim
  have reported : Reported [⟨0x100001, 1, USABLE, 1⟩] := by
    rw [Reported]
    decide
  have region : (⟨0x101000, 0xfffffffffffff000, USABLE, 1⟩ : Memtable) ∈
      (mmap 0x1000 [⟨0x100001, 1, USABLE, 1⟩]).regions := by
    decide
  rcases (claim 0x1000 _ reported _ region 0x101000 (by rw [Memtable.Covers]; decide)).2 with
    ⟨e, listed, _, covered⟩
  rw [List.mem_singleton.mp listed, Memtable.Covers] at covered
  exact absurd covered (by decide)

end TitorOS.Stage2
