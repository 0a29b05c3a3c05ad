import TitorOS.Stage2.Slot

/-! The BIOS calls of the loader, in real mode: `bios_e820` collects the memory table with
INT 15h, `bios_read` gets a sector with INT 13h. -/

namespace TitorOS.Stage2

open TitorOS.Lib

section E820

/-- What INT 15h/E820h does on one call: it stores an entry of 24 bytes and returns a
continuation, or sets the carry flag. -/
structure Response where
  carry : Bool
  entry : Fin 24 → UInt8
  ebx : UInt32

abbrev Bios := Nat → Response

def Response.byte (r : Response) (i : Nat) : UInt8 :=
  if inside : i < 24 then r.entry ⟨i, inside⟩ else 0

structure Cpu where
  es : UInt16
  di : UInt16
  ax : UInt16
  ebx : UInt32
  cf : Bool
  zf : Bool
  stack : List UInt16
  mem : Memory

def linear (segment offset : UInt16) : UInt32 := segment.toUInt32 * 16 + offset.toUInt32

namespace Cpu

def int15 (r : Response) (cpu : Cpu) : Cpu :=
  { cpu with
    ebx := r.ebx
    cf := r.carry
    mem := if r.carry then cpu.mem
      else fill (fun i => linear cpu.es (cpu.di + UInt16.ofNat i)) r.byte 24 cpu.mem }

def addDi (n : UInt16) (cpu : Cpu) : Cpu :=
  { cpu with di := cpu.di + n, cf := decide (2 ^ 16 ≤ cpu.di.toNat + n.toNat), zf := cpu.di + n == 0 }

def popAx (cpu : Cpu) : Cpu :=
  match cpu.stack with
  | [] => cpu
  | a :: rest => { cpu with ax := a, stack := rest }

/-- `inc` leaves the carry flag alone. -/
def incAx (cpu : Cpu) : Cpu := { cpu with ax := cpu.ax + 1, zf := cpu.ax + 1 == 0 }

def pushAx (cpu : Cpu) : Cpu := { cpu with stack := cpu.ax :: cpu.stack }

def cmpEbx (n : UInt32) (cpu : Cpu) : Cpu :=
  { cpu with cf := decide (cpu.ebx < n), zf := cpu.ebx == n }

def e820Round (r : Response) (cpu : Cpu) : Cpu := (cpu.int15 r |>.addDi 24).popAx.incAx.pushAx

end Cpu

/-- `none` is a loop that has not ended. -/
def e820Loop (bios : Bios) : Nat → Nat → Cpu → Option (Nat × Cpu)
  | 0, _, _ => none
  | rounds + 1, calls, cpu =>
      let cpu := cpu.e820Round (bios calls)
      if cpu.cf then some (calls + 1, cpu)
      else
        let cpu := cpu.cmpEbx 0
        if cpu.zf then some (calls + 1, cpu) else e820Loop bios rounds (calls + 1) cpu

def e820Setup (dest : UInt32) (mem : Memory) : Cpu where
  es := ((dest >>> 4) &&& 0xF000).toUInt16
  di := (dest &&& 0xFFFF).toUInt16
  ax := 0
  ebx := 0
  cf := false
  zf := true
  stack := [0]
  mem := mem

/-- `calls` is the number of calls made, `count` the value returned. -/
structure E820Result where
  calls : Nat
  count : UInt32
  memory : Memory

/-- The offset wraps around within `2^16` rounds. -/
def biosE820 (bios : Bios) (dest : UInt32) (mem : Memory) : Option E820Result :=
  (e820Loop bios (2 ^ 16) 0 (e820Setup dest mem)).map fun (calls, cpu) =>
    ⟨calls, cpu.popAx.ax.toUInt32, cpu.mem⟩

def MEMTABLE : UInt32 := 0x20000

/-- How a list ends: with a continuation of zero, or with the carry flag on the next call. -/
inductive Ending where
  | zero
  | carry
  deriving DecidableEq

structure Follows (bios : Bios) (n : Nat) (ending : Ending) : Prop where
  positive : 0 < n
  stored : ∀ k < n, (bios k).carry = false
  onward : ∀ k, k + 1 < n → (bios k).ebx ≠ 0
  last : match ending with
    | .zero => (bios (n - 1)).ebx = 0
    | .carry => (bios (n - 1)).ebx ≠ 0 ∧ (bios n).carry = true

/-- The calls end with the list, the entries are counted, and they fill the table. -/
structure Collected (bios : Bios) (n : Nat) (ending : Ending) (r : E820Result) : Prop where
  calls : r.calls = match ending with
    | .zero => n
    | .carry => n + 1
  count : r.count.toNat = n
  table : ∀ i < n, ∀ j < 24, r.memory (MEMTABLE + UInt32.ofNat (24 * i + j)) = (bios i).byte j

def afterCalls (bios : Bios) (mem : Memory) : Nat → Memory
  | 0 => mem
  | k + 1 =>
      if (bios k).carry then afterCalls bios mem k
      else fill (fun i => linear 0x2000 (UInt16.ofNat (24 * k) + UInt16.ofNat i)) (bios k).byte 24
        (afterCalls bios mem k)

structure E820At (bios : Bios) (mem : Memory) (k : Nat) (cpu : Cpu) : Prop where
  es : cpu.es = 0x2000
  di : cpu.di = UInt16.ofNat (24 * k)
  stack : cpu.stack = [UInt16.ofNat k]
  memory : cpu.mem = afterCalls bios mem k

variable {bios : Bios} {mem : Memory} {k : Nat} {cpu : Cpu}

theorem e820At_setup (bios : Bios) (mem : Memory) : E820At bios mem 0 (e820Setup MEMTABLE mem) := by
  have segment : ((MEMTABLE >>> 4) &&& 0xF000).toUInt16 = 0x2000 := by decide
  have offset : (MEMTABLE &&& 0xFFFF).toUInt16 = UInt16.ofNat (24 * 0) := by decide
  exact ⟨segment, offset, rfl, rfl⟩

theorem e820Round_eq (r : Response) (cpu : Cpu) (count : UInt16) (stack : cpu.stack = [count]) :
    cpu.e820Round r =
      { es := cpu.es, di := cpu.di + 24, ax := count + 1, ebx := r.ebx
        cf := decide (2 ^ 16 ≤ cpu.di.toNat + 24), zf := count + 1 == 0, stack := [count + 1]
        mem := (cpu.int15 r).mem } := by
  simp only [Cpu.e820Round, Cpu.pushAx, Cpu.incAx, Cpu.popAx, Cpu.addDi, Cpu.int15, stack]
  rfl

theorem E820At.round (here : E820At bios mem k cpu) :
    E820At bios mem (k + 1) (cpu.e820Round (bios k)) := by
  rw [e820Round_eq _ _ _ here.stack]
  constructor
  · exact here.es
  · dsimp only
    rw [here.di, Nat.mul_succ, UInt16.ofNat_add]
    rfl
  · dsimp only
    rw [UInt16.ofNat_add]
    rfl
  · simp only [Cpu.int15, here.es, here.di, here.memory, afterCalls]

theorem E820At.round_cf (here : E820At bios mem k cpu) (small : k ≤ 2730) :
    (cpu.e820Round (bios k)).cf = decide (k = 2730) := by
  have offset : cpu.di.toNat = 24 * k := by
    rw [here.di, UInt16.toNat_ofNat', Nat.mod_eq_of_lt (by omega)]
  rw [e820Round_eq _ _ _ here.stack]
  dsimp only
  rw [offset]
  congr 1
  simp only [eq_iff_iff]
  omega

theorem E820At.round_ebx (here : E820At bios mem k cpu) :
    (cpu.e820Round (bios k)).ebx = (bios k).ebx := by
  rw [e820Round_eq _ _ _ here.stack]

theorem E820At.cmp (here : E820At bios mem k cpu) : E820At bios mem k (cpu.cmpEbx 0) :=
  ⟨here.es, here.di, here.stack, here.memory⟩

theorem e820Loop_spec (left rounds : Nat) (here : E820At bios mem k cpu) (small : k + left = 2730)
    (enough : left < rounds) :
    ∃ stop cpu', k ≤ stop ∧ stop ≤ 2730 ∧ (∀ m, k ≤ m → m < stop → (bios m).ebx ≠ 0) ∧
      ((bios stop).ebx = 0 ∨ stop = 2730) ∧
      e820Loop bios rounds k cpu = some (stop + 1, cpu') ∧ E820At bios mem (stop + 1) cpu' := by
  induction left generalizing k cpu rounds with
  | zero =>
      obtain ⟨rounds, rfl⟩ := Nat.exists_eq_add_of_lt enough
      refine ⟨k, cpu.e820Round (bios k), le_rfl, by omega, by omega, .inr (by omega), ?_, here.round⟩
      have carried : (cpu.e820Round (bios k)).cf = true := by
        rw [here.round_cf (by omega), decide_eq_true_eq]
        omega
      simp only [e820Loop, carried, if_true]
  | succ left ih =>
      obtain ⟨rounds, rfl⟩ := Nat.exists_eq_add_of_lt enough
      have clear : (cpu.e820Round (bios k)).cf = false := by
        rw [here.round_cf (by omega), decide_eq_false_iff_not]
        omega
      have compared : ((cpu.e820Round (bios k)).cmpEbx 0).zf = ((bios k).ebx == 0) := by
        rw [← here.round_ebx]
        rfl
      by_cases done : (bios k).ebx = 0
      · refine ⟨k, (cpu.e820Round (bios k)).cmpEbx 0, le_rfl, by omega, by omega, .inl done, ?_,
          here.round.cmp⟩
        simp [e820Loop, clear, compared, done]
      · rcases ih (left + 1 + rounds) here.round.cmp (by omega) (by omega) with
          ⟨stop, cpu', after, bound, before, last, loop, there⟩
        refine ⟨stop, cpu', by omega, bound, ?_, last, ?_, there⟩
        · intro m low high
          by_cases first : m = k
          · rw [first]
            exact done
          · exact before m (by omega) high
        · have unequal : ((bios k).ebx == 0) = false := by simpa using done
          simp only [e820Loop, clear, compared, unequal, Bool.false_eq_true, if_false]
          exact loop

theorem biosE820_spec (bios : Bios) (mem : Memory) :
    ∃ stop ≤ 2730, (∀ m < stop, (bios m).ebx ≠ 0) ∧ ((bios stop).ebx = 0 ∨ stop = 2730) ∧
      biosE820 bios MEMTABLE mem =
        some ⟨stop + 1, UInt32.ofNat (stop + 1), afterCalls bios mem (stop + 1)⟩ := by
  rcases e820Loop_spec 2730 (2 ^ 16) (e820At_setup bios mem) rfl (by decide) with
    ⟨stop, cpu, _, bound, before, last, loop, here⟩
  refine ⟨stop, bound, fun m below => before m m.zero_le below, last, ?_⟩
  have returned : cpu.popAx.ax.toUInt32 = UInt32.ofNat (stop + 1) := by
    simp only [Cpu.popAx, here.stack]
    rw [← UInt32.toNat_inj, UInt16.toNat_toUInt32, UInt16.toNat_ofNat',
      UInt32.toNat_ofNat_of_lt' (by simp only [UInt32.size]; omega),
      Nat.mod_eq_of_lt (by omega)]
  rw [biosE820, loop, Option.map_some]
  dsimp only
  rw [returned, here.memory]

theorem entry_place (k i : Nat) (inside : 24 * k + i < 2 ^ 16) :
    linear 0x2000 (UInt16.ofNat (24 * k) + UInt16.ofNat i) = MEMTABLE + UInt32.ofNat (24 * k + i) := by
  rw [← UInt16.ofNat_add, ← UInt32.toNat_inj, linear, UInt32.toNat_add, UInt32.toNat_add,
    UInt16.toNat_toUInt32, UInt16.toNat_ofNat',
    UInt32.toNat_ofNat_of_lt' (by simp only [UInt32.size]; omega),
    show ((0x2000 : UInt16).toUInt32 * 16).toNat = 0x20000 from rfl,
    show MEMTABLE.toNat = 0x20000 from rfl, Nat.mod_eq_of_lt inside]

theorem afterCalls_table (bios : Bios) (mem : Memory) (n : Nat) (small : n ≤ 2730)
    (stored : ∀ k < n, (bios k).carry = false) (i : Nat) (inside : i < n) (j : Nat) (byte : j < 24) :
    afterCalls bios mem n (MEMTABLE + UInt32.ofNat (24 * i + j)) = (bios i).byte j := by
  induction n with
  | zero => exact absurd inside i.not_lt_zero
  | succ n ih =>
      have placed (l : Nat) (below : l < 24) := entry_place n l (by omega)
      have entry := fill_congr 24 (afterCalls bios mem n) placed fun l _ => Eq.refl ((bios n).byte l)
      rw [afterCalls, stored n n.lt_succ_self, if_neg Bool.false_ne_true, entry]
      by_cases last : i = n
      · rw [last]
        refine fill_inside (fun l => MEMTABLE + UInt32.ofNat (24 * n + l)) _ 24 _ ?_ j byte
        intro l first m second same
        have equal := place_inj MEMTABLE _ _ (by omega) (by omega) same
        omega
      · rw [fill_outside, ih (by omega) (fun k below => stored k (Nat.lt_succ_of_lt below)) (by omega)]
        intro l below same
        have equal := place_inj MEMTABLE _ _ (by omega) (by omega) same
        omega

theorem afterCalls_outside (bios : Bios) (mem : Memory) (n : Nat) (a : UInt32)
    (outside : 0x30000 ≤ a.toNat) : afterCalls bios mem n a = mem a := by
  induction n with
  | zero => rfl
  | succ n ih =>
      rw [afterCalls]
      split
      · exact ih
      · rw [fill_outside, ih]
        intro i _ same
        have bound := (UInt16.ofNat (24 * n) + UInt16.ofNat i).toNat_lt
        have address := congrArg UInt32.toNat same
        rw [linear, UInt32.toNat_add, UInt16.toNat_toUInt32,
          show ((0x2000 : UInt16).toUInt32 * 16).toNat = 0x20000 from rfl] at address
        omega

/-- The table is collected exactly when the list ends with a continuation of zero and fits
into the segment. -/
theorem e820_collected_iff (bios : Bios) (n : Nat) (ending : Ending)
    (follows : Follows bios n ending) :
    (∀ mem, ∃ r, biosE820 bios MEMTABLE mem = some r ∧ Collected bios n ending r) ↔
      ending = .zero ∧ n ≤ 2730 := by
  constructor
  · intro collects
    -- memory that differs from what the 2731st entry would put past the segment
    rcases collects fun _ => (bios 2730).byte 16 + 1 with ⟨r, ran, good⟩
    rcases biosE820_spec bios fun _ => (bios 2730).byte 16 + 1 with ⟨stop, bound, _, _, result⟩
    cases result.symm.trans ran
    have calls := good.calls
    have count := good.count
    rw [UInt32.toNat_ofNat_of_lt' (by simp only [UInt32.size]; omega)] at count
    cases ending with
    | carry =>
        dsimp only at calls count
        omega
    | zero =>
        refine ⟨rfl, ?_⟩
        by_contra long
        have most : n = 2731 := by omega
        have past := good.table 2730 (by omega) 16 (by decide)
        dsimp only at past
        rw [afterCalls_outside bios _ _ _ (by decide)] at past
        exact absurd past (by simp)
  · rintro ⟨rfl, small⟩ mem
    rcases biosE820_spec bios mem with ⟨stop, bound, before, last, result⟩
    have positive := follows.positive
    have zero : (bios (n - 1)).ebx = 0 := follows.last
    have here : stop = n - 1 := by
      rcases Nat.lt_trichotomy stop (n - 1) with early | same | late
      · rcases last with stopped | top
        · exact absurd stopped (follows.onward stop (by omega))
        · omega
      · exact same
      · exact absurd zero (before _ late)
    have number : stop + 1 = n := by omega
    rw [number] at result
    refine ⟨_, result, rfl, UInt32.toNat_ofNat_of_lt' (by simp only [UInt32.size]; omega), ?_⟩
    exact afterCalls_table bios mem n small follows.stored

def oneEntry : Bios := fun _ => ⟨false, fun i => UInt8.ofNat i.val, 0⟩

theorem oneEntry_collected :
    Follows oneEntry 1 .zero ∧
      ∀ mem, ∃ r, biosE820 oneEntry MEMTABLE mem = some r ∧ Collected oneEntry 1 .zero r := by
  have follows : Follows oneEntry 1 .zero := ⟨by decide, fun _ _ => rfl, by omega, rfl⟩
  exact ⟨follows, (e820_collected_iff oneEntry 1 .zero follows).mpr ⟨rfl, by decide⟩⟩

def carryEnd : Bios := fun k => ⟨k != 0, fun i => UInt8.ofNat i.val, if k = 0 then 1 else 0⟩

theorem carryEnd_miscounted :
    ¬∀ (bios : Bios) (n : Nat) (ending : Ending), Follows bios n ending →
      ∀ mem, ∃ r, biosE820 bios MEMTABLE mem = some r ∧ Collected bios n ending r := by
  intro claim
  have follows : Follows carryEnd 1 .carry := by
    refine ⟨by decide, ?_, by omega, by decide, rfl⟩
    intro k below
    rw [show k = 0 by omega]
    rfl
  rcases claim carryEnd 1 .carry follows fun _ => 0 with ⟨r, ran, good⟩
  rcases biosE820_spec carryEnd fun _ => 0 with ⟨stop, bound, _, _, result⟩
  cases result.symm.trans ran
  have calls := good.calls
  have count := good.count
  rw [UInt32.toNat_ofNat_of_lt' (by simp only [UInt32.size]; omega)] at count
  dsimp only at calls count
  omega

end E820

section Read

/-- The place on the disk that INT 13h, AH=02h, takes from the registers. -/
structure Chs where
  cylinder : Nat
  head : Nat
  sector : Nat

/-- The cylinder in CH and bits 6 and 7 of CL, the sector in the rest of CL, the head in DH. -/
def int13 (ecx edx : UInt32) : Chs where
  cylinder := ecx.toNat / 256 % 256 + ecx.toNat / 64 % 4 * 256
  head := edx.toNat / 256 % 256
  sector := ecx.toNat % 64

/-- The number of the sector, counted from 1, with 63 sectors on a track. -/
def Chs.number (heads : Nat) (place : Chs) : Option Nat :=
  if place.sector ≠ 0 ∧ place.head < heads then
    some ((place.cylinder * heads + place.head) * 63 + place.sector)
  else none

/-- The sector that `bios_read` obtains; the boot sector leaves the drive's number in the low
byte. `none` is an error, which nobody looks at. -/
def biosRead (heads : Nat) (drive : UInt8) (sector : UInt32) : Option Nat :=
  (int13 sector drive.toUInt32).number heads

def readInto (image : Nat → Sector) (heads : Nat) (drive : UInt8) (sector : UInt32)
    (buffer : Sector) : Sector :=
  match biosRead heads drive sector with
  | some number => image number
  | none => buffer

variable (image : Nat → Sector) (heads : Nat) (drive : UInt8) (buffer : Sector)

/-- The reads of the search for the ELF header, with the buffer after each of them. -/
inductive Searched : UInt32 → Sector → Prop
  | first : Searched 1 (readInto image heads drive 1 buffer)
  | next {sector : UInt32} {found : Sector} : Searched sector found → found.isElf = false →
      Searched (sector + 1) (readInto image heads drive (sector + 1) found)

/-- The sector numbers that `stage2` passes to `bios_read`, if the memory map has room for the
kernel. -/
inductive Requested : UInt32 → Prop
  | search {sector : UInt32} {found : Sector} :
      Searched image heads drive buffer sector found → Requested sector
  | load {base pos : UInt32} {found : Sector} :
      Searched image heads drive buffer base found → found.isElf = true →
      LoadPos found.progHeader.pFilesz pos → pos.toUInt64 ≤ found.progHeader.pFilesz →
        Requested ((base.toUInt64 + found.progHeader.pOffset / 512).toUInt32 + pos / 512)

def SectorsRight : Prop :=
  ∀ sector, Requested image heads drive buffer sector →
    biosRead heads drive sector = some sector.toNat

/-- The file starts at sector `base` of the image, and at no earlier one. -/
structure ElfAt (base : Nat) : Prop where
  positive : 1 ≤ base
  elf : (image base).isElf = true
  first : ∀ sector, 1 ≤ sector → sector < base → (image sector).isElf = false

/-- On the first track, or so far out that the register's upper half is lost and the cylinder
it leaves happens to be the right one. -/
def Addressable (sector : Nat) : Prop :=
  1 ≤ sector ∧ sector ≤ 63 ∨ 2 ^ 16 ≤ sector ∧ sector % 64 ≠ 0 ∧
    63 * heads * (sector / 256 % 256 + sector / 64 % 4 * 256) = sector / 64 * 64

/-- The header is on the first track and every sector of the segment can be addressed. -/
def ReadsFit (base : Nat) : Prop :=
  base ≤ 63 ∧ ∀ j ≤ (image base).progHeader.pFilesz.toNat / 512,
    Addressable heads ((base + (image base).progHeader.pOffset.toNat / 512 + j) % 2 ^ 32)

variable {image heads drive buffer}

theorem cylinder_apart (heads q : Nat) (positive : 0 < q) (small : q < 1024) :
    ¬63 * heads * (q / 4 % 256 + q % 4 * 256) = q * 64 := by
  intro equal
  have all : (List.range 1024).all (fun q =>
      q == 0 || !decide (63 * (q / 4 % 256 + q % 4 * 256) ∣ q * 64)) = true := by
    decide +kernel
  have here := List.all_eq_true.mp all q (List.mem_range.mpr small)
  have divides : 63 * (q / 4 % 256 + q % 4 * 256) ∣ q * 64 := ⟨heads, by
    rw [← equal]
    ac_rfl⟩
  simp [divides] at here
  omega

theorem biosRead_eq (present : 0 < heads) (sector : UInt32) :
    biosRead heads drive sector =
      if sector.toNat % 64 = 0 then none
      else some ((sector.toNat / 256 % 256 + sector.toNat / 64 % 4 * 256) * heads * 63 +
        sector.toNat % 64) := by
  have head : drive.toUInt32.toNat / 256 % 256 = 0 := by
    have bound := drive.toNat_lt
    rw [UInt8.toNat_toUInt32]
    omega
  simp only [biosRead, Chs.number, int13, head, present, and_true, Nat.add_zero, ne_eq, ite_not]

theorem biosRead_right_iff (drive : UInt8) (present : 0 < heads) (sector : UInt32) :
    biosRead heads drive sector = some sector.toNat ↔ Addressable heads sector.toNat := by
  rw [biosRead_eq present, Addressable]
  generalize sector.toNat = s
  have shape : s / 256 % 256 = s / 64 / 4 % 256 := by omega
  have order : (s / 256 % 256 + s / 64 % 4 * 256) * heads * 63 =
      63 * heads * (s / 256 % 256 + s / 64 % 4 * 256) := by ac_rfl
  rw [order]
  by_cases zero : s % 64 = 0
  · rw [if_pos zero]
    constructor
    · intro none
      cases none
    · omega
  · rw [if_neg zero, Option.some.injEq]
    by_cases low : s < 2 ^ 16
    · by_cases track : s / 64 = 0
      · have first : s / 256 = 0 := by omega
        rw [track, first]
        simp only [Nat.zero_mod, Nat.zero_mul, Nat.add_zero, Nat.mul_zero]
        omega
      · have apart := cylinder_apart heads (s / 64) (by omega) (by omega)
        rw [← shape] at apart
        omega
    · omega

theorem Addressable.nonzero {sector : Nat} (right : Addressable heads sector) : sector % 64 ≠ 0 := by
  rcases right with low | high
  · omega
  · exact high.2.1

theorem addressable_short {start count : Nat}
    (right : ∀ j ≤ count, Addressable heads ((start + j) % 2 ^ 32)) : count < 63 := by
  by_contra long
  have multiple := (right (63 - (start + 63) % 64) (by omega)).nonzero
  omega

theorem readInto_right {sector : Nat} (present : 0 < heads) (positive : 1 ≤ sector)
    (small : sector ≤ 63) (buffer : Sector) :
    readInto image heads drive (UInt32.ofNat sector) buffer = image sector := by
  have right : biosRead heads drive (UInt32.ofNat sector) = some sector := by
    have number := UInt32.toNat_ofNat_of_lt' (show sector < 2 ^ 32 by omega)
    have read := (biosRead_right_iff drive present (UInt32.ofNat sector)).mpr (.inl (by omega))
    rw [read, number]
  rw [readInto, right]

theorem searched_track (drive : UInt8) (buffer : Sector) (present : 0 < heads) {base : Nat}
    (file : ElfAt image base) (sector : Nat) (positive : 1 ≤ sector) (behind : sector ≤ base)
    (small : sector ≤ 63) :
    Searched image heads drive buffer (UInt32.ofNat sector) (image sector) := by
  induction sector, positive using Nat.le_induction with
  | base =>
      have read : Searched image heads drive buffer (UInt32.ofNat 1)
          (readInto image heads drive (UInt32.ofNat 1) buffer) := .first
      rw [readInto_right present le_rfl (by decide)] at read
      exact read
  | succ sector positive ih =>
      have before := ih (by omega) (by omega)
      have read := before.next (file.first sector positive (by omega))
      rw [show (1 : UInt32) = UInt32.ofNat 1 from rfl, ← UInt32.ofNat_add,
        readInto_right present (by omega) small] at read
      exact read

theorem Searched.track (present : 0 < heads) {base : Nat} (file : ElfAt image base)
    (near : base ≤ 63) {sector : UInt32} {found : Sector}
    (searched : Searched image heads drive buffer sector found) :
    ∃ k, 1 ≤ k ∧ k ≤ base ∧ sector = UInt32.ofNat k ∧ found = image k := by
  induction searched with
  | first => exact ⟨1, le_rfl, file.positive, rfl, readInto_right present le_rfl (by decide) buffer⟩
  | next _ other ih =>
      rcases ih with ⟨k, positive, behind, rfl, rfl⟩
      have before : k ≠ base := by
        rintro rfl
        rw [file.elf] at other
        cases other
      refine ⟨k + 1, by omega, by omega, (UInt32.ofNat_add k 1).symm, ?_⟩
      rw [show (1 : UInt32) = UInt32.ofNat 1 from rfl, ← UInt32.ofNat_add]
      exact readInto_right present (by omega) (by omega) _

theorem sectorsRight_near (present : 0 < heads) {base : Nat} (file : ElfAt image base)
    (right : SectorsRight image heads drive buffer) : base ≤ 63 := by
  by_contra far
  have last := searched_track drive buffer present file 63 (by decide) (by omega) le_rfl
  have wrong := right _ (.search (last.next (file.first 63 (by decide) (by omega))))
  rw [biosRead_right_iff drive present] at wrong
  exact wrong.nonzero rfl

theorem requested_segment (drive : UInt8) (buffer : Sector) (present : 0 < heads) {base : Nat}
    (file : ElfAt image base) (near : base ≤ 63) (j : Nat) (small : j * 512 < 2 ^ 32)
    (inside : j ≤ (image base).progHeader.pFilesz.toNat / 512) :
    ∃ sector, Requested image heads drive buffer sector ∧
      sector.toNat = (base + (image base).progHeader.pOffset.toNat / 512 + j) % 2 ^ 32 := by
  have found := searched_track drive buffer present file base file.positive le_rfl near
  have position : (UInt32.ofNat (j * 512)).toUInt64 ≤ (image base).progHeader.pFilesz := by
    rw [UInt64.le_iff_toNat_le, sector_position j small]
    omega
  refine ⟨_, .load found file.elf (loadPos_sector _ j small (by omega)) position, ?_⟩
  rw [sector_index j small, segment_sector,
    UInt32.toNat_ofNat_of_lt' (by simp only [UInt32.size]; omega)]

/-- Every read obtains its sector exactly when the file's header and segment lie where a
sector number is the same as its place in the registers. -/
theorem reads_right_iff (present : 0 < heads) (base : Nat) (file : ElfAt image base) :
    SectorsRight image heads drive buffer ↔ ReadsFit image heads base := by
  constructor
  · intro right
    have near := sectorsRight_near present file right
    have segment (j : Nat) (small : j * 512 < 2 ^ 32)
        (inside : j ≤ (image base).progHeader.pFilesz.toNat / 512) :
        Addressable heads
          ((base + (image base).progHeader.pOffset.toNat / 512 + j) % 2 ^ 32) := by
      rcases requested_segment drive buffer present file near j small inside with
        ⟨sector, requested, number⟩
      rw [← number, ← biosRead_right_iff drive present]
      exact right sector requested
    have short : (image base).progHeader.pFilesz.toNat / 512 < 63 := by
      by_contra long
      have track : 63 < 63 := addressable_short fun j inside => segment j (by omega) (by omega)
      omega
    exact ⟨near, fun j inside => segment j (by omega) inside⟩
  · rintro ⟨near, segment⟩ sector requested
    rw [biosRead_right_iff drive present]
    have short := addressable_short segment
    cases requested with
    | search searched =>
        rcases searched.track present file near with ⟨k, positive, behind, rfl, _⟩
        rw [UInt32.toNat_ofNat_of_lt' (by simp only [UInt32.size]; omega)]
        exact .inl ⟨positive, by omega⟩
    | load searched elf visited inside =>
        rcases searched.track present file near with ⟨k, positive, behind, rfl, rfl⟩
        have here : k = base := by
          by_contra other
          rw [file.first k positive (by omega)] at elf
          cases elf
        subst here
        rcases visited.sector (by omega) with ⟨j, _, rfl⟩
        rw [UInt64.le_iff_toNat_le, sector_position j (by omega)] at inside
        rw [sector_index j (by omega), segment_sector,
          UInt32.toNat_ofNat_of_lt' (by simp only [UInt32.size]; omega)]
        exact segment j (by omega)

def sampleImage (base : Nat) : Nat → Sector := fun number =>
  if number = base then sampleHeader else ⟨fun _ => 0⟩

theorem sampleImage_elf (base : Nat) (positive : 1 ≤ base) : ElfAt (sampleImage base) base := by
  refine ⟨positive, ?_, ?_⟩
  · rw [sampleImage, if_pos rfl]
    rfl
  · intro sector _ before
    rw [sampleImage, if_neg (Nat.ne_of_lt before)]
    rfl

theorem sampleImage_right :
    ElfAt (sampleImage 1) 1 ∧ SectorsRight (sampleImage 1) 16 0x80 sampleHeader := by
  have file := sampleImage_elf 1 le_rfl
  have header : (sampleImage 1 1).progHeader = samplePhdr := sampleHeader_eq.2
  refine ⟨file, (reads_right_iff (by decide) 1 file).mpr ⟨by decide, ?_⟩⟩
  rw [header]
  intro j inside
  have only : j = 0 := Nat.le_zero.mp inside
  rw [only]
  exact .inl (by decide)

theorem second_track_wrong :
    ¬∀ (image : Nat → Sector) (heads : Nat) (drive : UInt8) (buffer : Sector) (base : Nat),
      0 < heads → ElfAt image base → SectorsRight image heads drive buffer := by
  intro claim
  have file := sampleImage_elf 64 (by decide)
  have near := sectorsRight_near (by decide) file (claim _ 16 0x80 sampleHeader 64 (by decide) file)
  exact absurd near (by decide)

end Read

end TitorOS.Stage2
