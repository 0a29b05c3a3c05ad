import TitorOS.Lib.Fill
import TitorOS.Stage2.Memtable
import Mathlib.Tactic.IntervalCases

/-! `stage2()`: the kernel's ELF image is found on the disk, put into the first large
enough region of the memory map and mapped at the top of the address space.
`none` stands for a loop that never ends. The memory the kernel is loaded into is apart from the
loader's own; a load that runs into that is in `Image`. -/

namespace TitorOS.Stage2

open TitorOS.Lib

abbrev Memory := UInt32 → UInt8

structure Sector where
  bytes : Fin 512 → UInt8

/-- What the reads of `bios_read` deliver. -/
abbrev Disk := UInt32 → Sector

/-- Behind the sector the source reads its own stack; `ElfKernel` rules that out. -/
def Sector.byte (s : Sector) (i : Nat) : UInt8 :=
  if inside : i < 512 then s.bytes ⟨i, inside⟩ else 0

def Sector.word64 (s : Sector) (i : Nat) : UInt64 :=
  (List.range 8).foldr (fun j word => word * 256 + (s.byte (i + j)).toUInt64) 0

def Sector.isElf (s : Sector) : Bool :=
  s.byte 0 = 0x7f ∧ s.byte 1 = 0x45 ∧ s.byte 2 = 0x4c ∧ s.byte 3 = 0x46

/-- The member of `Elf64_Ehdr` that is used. -/
def Sector.ePhoff (s : Sector) : UInt64 := s.word64 32

/-- The members of `Elf64_Phdr` that are used. -/
structure Phdr where
  pOffset : UInt64
  pFilesz : UInt64
  pMemsz : UInt64
  deriving DecidableEq

def Sector.progHeader (s : Sector) : Phdr :=
  let base := s.ePhoff.toNat
  ⟨s.word64 (base + 8), s.word64 (base + 32), s.word64 (base + 40)⟩

/-- The search for the first sector of the ELF file. -/
def findElf (disk : Disk) : Nat → UInt32 → Option UInt32
  | 0, _ => none
  | rounds + 1, base => if (disk base).isElf then some base else findElf disk rounds (base + 1)

/-- After `2^32` rounds every sector has been seen. -/
def diskSectorBase (disk : Disk) : Option UInt32 := findElf disk (2 ^ 32) 1

def kernelSize (memsz : UInt64) : UInt32 :=
  let ksize := memsz.toUInt32
  if ksize % 0x1000 ≠ 0 then ksize + (0x1000 - ksize % 0x1000) else ksize

def memCpy (src : Nat → UInt8) (dst count : UInt32) (mem : Memory) : Memory :=
  fill (fun i => dst + UInt32.ofNat i) src count.toNat mem

def memSet (dst : UInt32) (value : UInt8) (count : UInt32) (mem : Memory) : Memory :=
  fill (fun i => dst + UInt32.ofNat i) (fun _ => value) count.toNat mem

/-- The loop over the sectors of the segment. -/
def loadSectors (disk : Disk) (sector kaddr : UInt32) (filesz : UInt64) :
    Nat → UInt32 → Memory → Option (UInt32 × Memory)
  | 0, _, _ => none
  | rounds + 1, pos, mem =>
      if pos.toUInt64 ≤ filesz then
        loadSectors disk sector kaddr filesz rounds (pos + 512)
          (memCpy (disk (sector + pos / 512)).byte (kaddr + pos) 512 mem)
      else some (pos, mem)

/-- The loop and the zero fill. `pos` is back at 0 after `2^23` rounds. -/
def loadKernel (disk : Disk) (sector kaddr : UInt32) (header : Phdr) (mem : Memory) :
    Option Memory :=
  (loadSectors disk sector kaddr header.pFilesz (2 ^ 23 + 1) 0 mem).map fun (pos, mem) =>
    if pos.toUInt64 < header.pMemsz then
      memSet (kaddr + pos) 0 (header.pMemsz - pos.toUInt64).toUInt32 mem
    else mem

def FLAGS : UInt32 := 3
def PAGE_TABLES : UInt32 := 0x10000

/-- The seven pages from `PAGE_TABLES` on, by page and entry. -/
abbrev PageTables := Nat × Nat → UInt64

def tableEntry (page : Nat) : UInt64 := (PAGE_TABLES + UInt32.ofNat page * 0x1000 + FLAGS).toUInt64

def orEntry (tables : PageTables) (page entry : Nat) (value : UInt64) : PageTables :=
  Function.update tables (page, entry) (tables (page, entry) ||| value)

def mapPages (tables : PageTables) (page : Nat) (start : UInt32) : PageTables :=
  fill (fun i => (page, i)) (fun i => (start + UInt32.ofNat i * 0x1000 + FLAGS).toUInt64) 512 tables

def pageTables (kaddr : UInt32) : PageTables :=
  let tables : PageTables := fun _ => 0
  let tables := orEntry tables 0 0 (tableEntry 1)
  let tables := orEntry tables 1 0 (tableEntry 2)
  let tables := orEntry tables 2 0 (tableEntry 3)
  let tables := mapPages tables 3 0
  let tables := orEntry tables 0 511 (tableEntry 4)
  let tables := orEntry tables 4 510 (tableEntry 5)
  let tables := orEntry tables 5 0 (tableEntry 6)
  mapPages tables 6 kaddr

structure Handover where
  kaddr : UInt32
  ksize : UInt32
  memory : Memory
  tables : PageTables

def stage2 (disk : Disk) (e820 : List Memtable) (memory : Memory) : Option Handover := do
  let base ← diskSectorBase disk
  let header := (disk base).progHeader
  let ksize := kernelSize header.pMemsz
  let kaddr ← (mmap ksize e820).kaddr
  let diskSector := (base.toUInt64 + header.pOffset / 512).toUInt32
  let memory ← loadKernel disk diskSector kaddr header memory
  return ⟨kaddr, ksize, memory, pageTables kaddr⟩

def fileByte (disk : Disk) (base : UInt32) (n : Nat) : UInt8 :=
  (disk (UInt32.ofNat (base.toNat + n / 512))).byte (n % 512)

/-- An ELF file from sector `base` on: the program header lies in the first sector, the
segment starts at a sector boundary and ends on the disk. -/
structure ElfKernel (disk : Disk) (base : UInt32) (header : Phdr) : Prop where
  found : diskSectorBase disk = some base
  header_eq : (disk base).progHeader = header
  header_inside : (disk base).ePhoff.toNat + 56 ≤ 512
  aligned : header.pOffset.toNat % 512 = 0
  sizes : header.pFilesz ≤ header.pMemsz
  onDisk : base.toNat * 512 + header.pOffset.toNat + header.pFilesz.toNat ≤ 2 ^ 32 * 512

/-- The image in memory: the segment's bytes of the file, then zeros. -/
def Loaded (disk : Disk) (base : UInt32) (header : Phdr) (kaddr : UInt32) (memory : Memory) :
    Prop :=
  ∀ k < header.pMemsz.toNat, ∃ a : UInt32, a.toNat = kaddr.toNat + k ∧
    memory a = if k < header.pFilesz.toNat then fileByte disk base (header.pOffset.toNat + k) else 0

/-- What the disk holds behind the segment is zero, up to the sector boundary past it and
as far as the image reaches. -/
def TailZero (disk : Disk) (base : UInt32) (header : Phdr) : Prop :=
  ∀ k, header.pFilesz.toNat ≤ k → k < header.pMemsz.toNat →
    k < (header.pFilesz.toNat / 512 + 1) * 512 →
      fileByte disk base (header.pOffset.toNat + k) = 0

theorem place_inj (dst : UInt32) (i j : Nat) (first : i < 2 ^ 32) (second : j < 2 ^ 32)
    (same : dst + UInt32.ofNat i = dst + UInt32.ofNat j) : i = j := by
  have offsets := congrArg UInt32.toNat (add_left_cancel same)
  rw [UInt32.toNat_ofNat_of_lt' first, UInt32.toNat_ofNat_of_lt' second] at offsets
  exact offsets

theorem kernelSize_mod (memsz : UInt64) :
    (kernelSize memsz).toNat = pageAbove (memsz.toNat % 2 ^ 32) % 2 ^ 32 := by
  have low : memsz.toUInt32.toNat = memsz.toNat % 2 ^ 32 := UInt64.toNat_toUInt32 memsz
  have bound := memsz.toUInt32.toNat_lt
  have page : (0x1000 : UInt32).toNat = 4096 := rfl
  rw [← low, pageAbove, kernelSize]
  generalize memsz.toUInt32 = ksize at *
  have remainder : (ksize % 0x1000).toNat = ksize.toNat % 4096 := by
    rw [UInt32.toNat_mod, page]
  by_cases whole : ksize % 0x1000 = 0
  · have zero : ksize.toNat % 4096 = 0 := by
      rw [← remainder, whole]
      rfl
    rw [if_neg (not_not.mpr whole)]
    omega
  · have part : ksize.toNat % 4096 ≠ 0 := by
      intro zero
      apply whole
      rw [← UInt32.toNat_inj, remainder, zero]
      rfl
    have gap : (0x1000 - ksize % 0x1000).toNat = 4096 - ksize.toNat % 4096 := by
      rw [UInt32.toNat_sub_of_le _ _ (UInt32.le_iff_toNat_le.mpr (by omega)), remainder, page]
    rw [if_pos whole, UInt32.toNat_add, gap]
    omega

def segmentByte (disk : Disk) (sector : UInt32) (k : Nat) : UInt8 :=
  (disk (sector + UInt32.ofNat (k / 512))).byte (k % 512)

def loaded (disk : Disk) (sector kaddr : UInt32) (count : Nat) (mem : Memory) : Memory :=
  fill (fun i => kaddr + UInt32.ofNat i) (segmentByte disk sector) count mem

theorem sector_index (j : Nat) (small : j * 512 < 2 ^ 32) :
    UInt32.ofNat (j * 512) / 512 = UInt32.ofNat j := by
  rw [← UInt32.toNat_inj, UInt32.toNat_div, UInt32.toNat_ofNat_of_lt' small,
    UInt32.toNat_ofNat_of_lt' (by simp only [UInt32.size]; omega)]
  exact Nat.mul_div_cancel j (by decide)

theorem loaded_sector (disk : Disk) (sector kaddr : UInt32) (j : Nat) (small : j * 512 < 2 ^ 32)
    (mem : Memory) :
    memCpy (disk (sector + UInt32.ofNat (j * 512) / 512)).byte (kaddr + UInt32.ofNat (j * 512)) 512
        (loaded disk sector kaddr (j * 512) mem) =
      loaded disk sector kaddr ((j + 1) * 512) mem := by
  rw [loaded, loaded, Nat.succ_mul, fill_add, memCpy, sector_index j small]
  apply fill_congr
  · intro i _
    rw [UInt32.ofNat_add, add_assoc]
  · intro i below
    have inner : i < 512 := below
    rw [segmentByte, show (j * 512 + i) / 512 = j by omega, show (j * 512 + i) % 512 = i by omega]

theorem loadSectors_eq (disk : Disk) (sector kaddr : UInt32) (filesz : UInt64)
    (small : filesz.toNat + 512 < 2 ^ 32) (rounds j : Nat) (behind : j ≤ filesz.toNat / 512 + 1)
    (enough : filesz.toNat / 512 + 1 < j + rounds) (mem : Memory) :
    loadSectors disk sector kaddr filesz rounds (UInt32.ofNat (j * 512))
        (loaded disk sector kaddr (j * 512) mem) =
      some (UInt32.ofNat ((filesz.toNat / 512 + 1) * 512),
        loaded disk sector kaddr ((filesz.toNat / 512 + 1) * 512) mem) := by
  induction rounds generalizing j with
  | zero => omega
  | succ rounds ih =>
      have position : (UInt32.ofNat (j * 512)).toUInt64.toNat = j * 512 := by
        rw [UInt32.toNat_toUInt64, UInt32.toNat_ofNat_of_lt' (by simp only [UInt32.size]; omega)]
      have within : (UInt32.ofNat (j * 512)).toUInt64 ≤ filesz ↔ j * 512 ≤ filesz.toNat := by
        rw [UInt64.le_iff_toNat_le, position]
      rw [loadSectors]
      by_cases inside : j * 512 ≤ filesz.toNat
      · rw [if_pos (within.mpr inside), loaded_sector disk sector kaddr j (by omega),
          show (512 : UInt32) = UInt32.ofNat 512 from rfl, ← UInt32.ofNat_add, ← Nat.succ_mul]
        exact ih (j + 1) (by omega) (by omega)
      · have last : j = filesz.toNat / 512 + 1 := by omega
        rw [if_neg (within.not.mpr inside), last]

theorem loadSectors_endless (disk : Disk) (sector kaddr : UInt32) (filesz : UInt64)
    (large : 2 ^ 32 ≤ filesz.toNat + 512) (rounds : Nat) (pos : UInt32)
    (aligned : pos.toNat % 512 = 0) (mem : Memory) :
    loadSectors disk sector kaddr filesz rounds pos mem = none := by
  induction rounds generalizing pos mem with
  | zero => rfl
  | succ rounds ih =>
      have bound := pos.toNat_lt
      have inside : pos.toUInt64 ≤ filesz := by
        rw [UInt64.le_iff_toNat_le, UInt32.toNat_toUInt64]
        omega
      rw [loadSectors, if_pos inside]
      apply ih
      rw [UInt32.toNat_add]
      have step : (512 : UInt32).toNat = 512 := rfl
      omega

/-- The image after the loop and the zero fill: whole sectors up to the boundary past the
end of the segment, then zeros. -/
theorem loadKernel_spec (disk : Disk) (sector kaddr : UInt32) (header : Phdr) (mem : Memory)
    (small : header.pFilesz.toNat + 512 < 2 ^ 32) (fits : header.pMemsz.toNat ≤ 2 ^ 32) :
    ∃ after, loadKernel disk sector kaddr header mem = some after ∧
      ∀ k < header.pMemsz.toNat, after (kaddr + UInt32.ofNat k) =
        if k < (header.pFilesz.toNat / 512 + 1) * 512 then segmentByte disk sector k else 0 := by
  have loop := loadSectors_eq disk sector kaddr header.pFilesz small (2 ^ 23 + 1) 0 (Nat.zero_le _)
    (by omega) mem
  set stop := (header.pFilesz.toNat / 512 + 1) * 512 with stop_eq
  have stopBound : stop < 2 ^ 32 := by omega
  have position : (UInt32.ofNat stop).toUInt64.toNat = stop := by
    rw [UInt32.toNat_toUInt64, UInt32.toNat_ofNat_of_lt' stopBound]
  have copied : ∀ k < stop, loaded disk sector kaddr stop mem (kaddr + UInt32.ofNat k) =
      segmentByte disk sector k := by
    intro k inside
    refine fill_inside _ _ stop mem ?_ k inside
    intro i first j second
    exact place_inj kaddr i j (by omega) (by omega)
  rw [loadKernel, show (0 : UInt32) = UInt32.ofNat (0 * 512) from rfl,
    show mem = loaded disk sector kaddr (0 * 512) mem from rfl, loop, Option.map_some]
  refine ⟨_, rfl, ?_⟩
  intro k inside
  dsimp only
  by_cases more : stop < header.pMemsz.toNat
  · have count : (header.pMemsz - (UInt32.ofNat stop).toUInt64).toUInt32.toNat =
        header.pMemsz.toNat - stop := by
      rw [UInt64.toNat_toUInt32, UInt64.toNat_sub_of_le _ _
        (UInt64.le_iff_toNat_le.mpr (by omega)), position, Nat.mod_eq_of_lt (by omega)]
    rw [if_pos (UInt64.lt_iff_toNat_lt.mpr (by omega)), memSet, count]
    simp only [add_assoc, ← UInt32.ofNat_add]
    have bounded : ∀ i < header.pMemsz.toNat - stop, stop + i < 2 ^ 32 := fun i below =>
      (Nat.add_lt_of_lt_sub' below).trans_le fits
    by_cases low : k < stop
    · rw [fill_outside, if_pos low, copied k low]
      intro i below same
      have := place_inj kaddr _ k (bounded i below) (low.trans stopBound) same
      omega
    · obtain ⟨i, rfl⟩ := Nat.exists_eq_add_of_le (Nat.le_of_not_lt low)
      rw [if_neg low]
      refine fill_inside (fun i => kaddr + UInt32.ofNat (stop + i)) (fun _ => (0 : UInt8)) _ _ ?_ i
        (by omega)
      intro i first j second same
      exact Nat.add_left_cancel (place_inj kaddr _ _ (bounded i first) (bounded j second) same)
  · rw [if_neg (UInt64.lt_iff_toNat_lt.not.mpr (by omega)), if_pos (by omega)]
    exact copied k (by omega)

theorem segment_sector (base : UInt32) (offset : UInt64) (j : Nat) :
    ((base.toUInt64 + offset / 512).toUInt32 + UInt32.ofNat j).toNat =
      (base.toNat + offset.toNat / 512 + j) % 2 ^ 32 := by
  have size : (512 : UInt64).toNat = 512 := rfl
  rw [UInt32.toNat_add, UInt64.toNat_toUInt32, UInt64.toNat_add, UInt64.toNat_div,
    UInt32.toNat_toUInt64, UInt32.toNat_ofNat', size]
  omega

theorem segmentByte_eq (disk : Disk) (base : UInt32) (offset : UInt64)
    (aligned : offset.toNat % 512 = 0) (k : Nat) :
    segmentByte disk (base.toUInt64 + offset / 512).toUInt32 k =
      fileByte disk base (offset.toNat + k) := by
  have whole : (offset.toNat + k) / 512 = offset.toNat / 512 + k / 512 := by omega
  have sector : (base.toUInt64 + offset / 512).toUInt32 + UInt32.ofNat (k / 512) =
      UInt32.ofNat (base.toNat + (offset.toNat + k) / 512) := by
    rw [← UInt32.toNat_inj, segment_sector, UInt32.toNat_ofNat', whole, Nat.add_assoc]
  rw [segmentByte, fileByte, sector, show (offset.toNat + k) % 512 = k % 512 by omega]

theorem stage2_eq (disk : Disk) (base : UInt32) (header : Phdr)
    (kernel : ElfKernel disk base header) (e820 : List Memtable) (kaddr : UInt32)
    (slot : (mmap (kernelSize header.pMemsz) e820).kaddr = some kaddr) (memory : Memory) :
    stage2 disk e820 memory =
      (loadKernel disk (base.toUInt64 + header.pOffset / 512).toUInt32 kaddr header memory).map
        fun after => ⟨kaddr, kernelSize header.pMemsz, after, pageTables kaddr⟩ := by
  simp only [stage2, kernel.found, kernel.header_eq, slot, Option.bind_eq_bind, Option.bind_some,
    Option.pure_def]
  cases loadKernel disk (base.toUInt64 + header.pOffset / 512).toUInt32 kaddr header memory <;> rfl

theorem place_eq (kaddr a : UInt32) (k : Nat) (address : a.toNat = kaddr.toNat + k) :
    a = kaddr + UInt32.ofNat k := by
  have bound := a.toNat_lt
  rw [← UInt32.toNat_inj, UInt32.toNat_add,
    UInt32.toNat_ofNat_of_lt' (by simp only [UInt32.size]; omega), ← address,
    Nat.mod_eq_of_lt bound]

theorem loadKernel_ends (disk : Disk) (sector kaddr : UInt32) (header : Phdr)
    (memory after : Memory) (load : loadKernel disk sector kaddr header memory = some after) :
    header.pFilesz.toNat + 512 < 2 ^ 32 := by
  by_contra large
  rw [loadKernel, loadSectors_endless disk sector kaddr header.pFilesz (by omega) _ 0 rfl] at load
  cases load

theorem loadKernel_byte (disk : Disk) (base kaddr : UInt32) (header : Phdr)
    (kernel : ElfKernel disk base header) (memory after : Memory)
    (load : loadKernel disk (base.toUInt64 + header.pOffset / 512).toUInt32 kaddr header memory =
      some after) (fits : header.pMemsz.toNat ≤ 2 ^ 32) (k : Nat)
    (inside : k < header.pMemsz.toNat) :
    after (kaddr + UInt32.ofNat k) =
      if k < (header.pFilesz.toNat / 512 + 1) * 512 then
        fileByte disk base (header.pOffset.toNat + k)
      else 0 := by
  have small := loadKernel_ends disk _ kaddr header memory after load
  rcases loadKernel_spec disk (base.toUInt64 + header.pOffset / 512).toUInt32 kaddr header memory
    small fits with ⟨_, same, bytes⟩
  cases same.symm.trans load
  rw [bytes k inside, segmentByte_eq disk base header.pOffset kernel.aligned]

theorem stage2_image_iff (disk : Disk) (base : UInt32) (header : Phdr)
    (kernel : ElfKernel disk base header) (e820 : List Memtable) (kaddr : UInt32)
    (slot : (mmap (kernelSize header.pMemsz) e820).kaddr = some kaddr) (memory : Memory) :
    (∃ h, stage2 disk e820 memory = some h ∧ Loaded disk base header h.kaddr h.memory) ↔
      header.pFilesz.toNat + 512 < 2 ^ 32 ∧ kaddr.toNat + header.pMemsz.toNat ≤ 2 ^ 32 ∧
        TailZero disk base header := by
  have run := stage2_eq disk base header kernel e820 kaddr slot memory
  set sector := (base.toUInt64 + header.pOffset / 512).toUInt32 with sector_eq
  have sizes := UInt64.le_iff_toNat_le.mp kernel.sizes
  constructor
  · intro reached
    rcases reached with ⟨h, ran, image⟩
    rw [run, Option.map_eq_some_iff] at ran
    rcases ran with ⟨after, load, rfl⟩
    replace image : Loaded disk base header kaddr after := image
    have small := loadKernel_ends disk sector kaddr header memory after load
    have below : kaddr.toNat + header.pMemsz.toNat ≤ 2 ^ 32 := by
      have bound := kaddr.toNat_lt
      by_cases empty : header.pMemsz.toNat = 0
      · omega
      · rcases image (header.pMemsz.toNat - 1) (by omega) with ⟨a, address, _⟩
        have inside := a.toNat_lt
        omega
    refine ⟨small, below, ?_⟩
    intro k behind inside near
    have bytes := loadKernel_byte disk base kaddr header kernel memory after load (by omega) k inside
    rcases image k inside with ⟨a, address, byte⟩
    rw [if_neg (by omega), place_eq kaddr a k address, bytes, if_pos near] at byte
    exact byte
  · intro condition
    rcases condition with ⟨small, below, tail⟩
    rcases loadKernel_spec disk sector kaddr header memory small (by omega) with ⟨after, load, _⟩
    refine ⟨⟨kaddr, kernelSize header.pMemsz, after, pageTables kaddr⟩, by rw [run, load]; rfl, ?_⟩
    change Loaded disk base header kaddr after
    intro k inside
    have bytes := loadKernel_byte disk base kaddr header kernel memory after load (by omega) k inside
    have address : (kaddr + UInt32.ofNat k).toNat = kaddr.toNat + k := by
      rw [UInt32.toNat_add, UInt32.toNat_ofNat_of_lt' (by simp only [UInt32.size]; omega),
        Nat.mod_eq_of_lt (by omega)]
    refine ⟨kaddr + UInt32.ofNat k, address, ?_⟩
    rw [bytes]
    by_cases data : k < header.pFilesz.toNat
    · rw [if_pos data, if_pos (by omega)]
    · rw [if_neg data]
      by_cases near : k < (header.pFilesz.toNat / 512 + 1) * 512
      · rw [if_pos near]
        exact tail k (by omega) inside near
      · rw [if_neg near]

/-- The first sector of an ELF file: four bytes of data in its second sector, an image of
eight bytes. -/
def sampleHeader : Sector :=
  ⟨fun i =>
    match i.val with
    | 0 => 0x7f | 1 => 0x45 | 2 => 0x4c | 3 => 0x46
    | 32 => 64 | 73 => 2 | 96 => 4 | 104 => 8
    | _ => 0⟩

def samplePhdr : Phdr := ⟨512, 4, 8⟩

def sampleDisk (rest : UInt8) : Disk := fun sector =>
  if sector = 1 then sampleHeader else ⟨fun i => if i.val < 4 then 1 else rest⟩

theorem sampleHeader_eq : sampleHeader.ePhoff = 64 ∧ sampleHeader.progHeader = samplePhdr := by
  decide +kernel

theorem sampleDisk_kernel (rest : UInt8) : ElfKernel (sampleDisk rest) 1 samplePhdr where
  found := by
    have first : (sampleDisk rest 1).isElf = true := rfl
    rw [diskSectorBase, show 2 ^ 32 = 4294967295 + 1 from rfl, findElf, if_pos first]
  header_eq := sampleHeader_eq.2
  header_inside := by
    change sampleHeader.ePhoff.toNat + 56 ≤ 512
    rw [sampleHeader_eq.1]
    decide
  aligned := by decide
  sizes := by decide
  onDisk := by decide

theorem sampleDisk_slot : (mmap (kernelSize samplePhdr.pMemsz) oneRegion).kaddr = some 0x100000 := by
  decide

end TitorOS.Stage2
