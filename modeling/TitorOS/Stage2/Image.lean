import TitorOS.Stage2.Slot

/-! The kernel's image and the loader's own memory. `own` marks the bytes that the loader has to
keep to the end of the load: its code, stack and buffers, and what the BIOS behind `bios_read`
works in. -/

namespace TitorOS.Stage2

open TitorOS.Lib

section Overwriting

variable {own : UInt32 → Bool} {disk : Disk} {sector kaddr : UInt32} {header : Phdr}

def Clear (own : UInt32 → Bool) (dst count : UInt32) : Prop :=
  ∀ i < count.toNat, own (dst + UInt32.ofNat i) = false

instance (own : UInt32 → Bool) (dst count : UInt32) : Decidable (Clear own dst count) := by
  unfold Clear
  infer_instance

/-- The load loop on the machine: once a byte of its own is gone, the loader does not come to
the end. -/
def loadSectorsOn (own : UInt32 → Bool) (disk : Disk) (sector kaddr : UInt32) (filesz : UInt64) :
    Nat → UInt32 → Memory → Option (UInt32 × Memory)
  | 0, _, _ => none
  | rounds + 1, pos, mem =>
      if pos.toUInt64 ≤ filesz then
        if Clear own (kaddr + pos) 512 then
          loadSectorsOn own disk sector kaddr filesz rounds (pos + 512)
            (memCpy (disk (sector + pos / 512)).byte (kaddr + pos) 512 mem)
        else none
      else some (pos, mem)

def loadKernelOn (own : UInt32 → Bool) (disk : Disk) (sector kaddr : UInt32) (header : Phdr)
    (mem : Memory) : Option Memory :=
  (loadSectorsOn own disk sector kaddr header.pFilesz (2 ^ 23 + 1) 0 mem).bind fun (pos, mem) =>
    if pos.toUInt64 < header.pMemsz then
      let count := (header.pMemsz - pos.toUInt64).toUInt32
      if Clear own (kaddr + pos) count then some (memSet (kaddr + pos) 0 count mem) else none
    else some mem

def stage2On (own : UInt32 → Bool) (disk : Disk) (e820 : List Memtable) (memory : Memory) :
    Option Handover := do
  let base ← diskSectorBase disk
  let header := (disk base).progHeader
  let ksize := kernelSize header.pMemsz
  let kaddr ← (mmap ksize e820).kaddr
  let diskSector := (base.toUInt64 + header.pOffset / 512).toUInt32
  let memory ← loadKernelOn own disk diskSector kaddr header memory
  return ⟨kaddr, ksize, memory, pageTables kaddr⟩

def Spares (own : UInt32 → Bool) (kaddr : UInt32) (header : Phdr) : Prop :=
  ∀ a, Written kaddr header a → own a = false

theorem loadSectorsOn_spared (spares : Spares own kaddr header) (rounds : Nat) (pos : UInt32)
    (mem : Memory) (visited : LoadPos header.pFilesz pos) :
    loadSectorsOn own disk sector kaddr header.pFilesz rounds pos mem =
      loadSectors disk sector kaddr header.pFilesz rounds pos mem := by
  induction rounds generalizing pos mem with
  | zero => rfl
  | succ rounds ih =>
      rw [loadSectorsOn, loadSectors]
      by_cases inside : pos.toUInt64 ≤ header.pFilesz
      · have clear : Clear own (kaddr + pos) 512 := by
          intro i below
          refine spares _ ⟨pos, visited, ?_⟩
          rw [if_pos inside]
          exact ⟨i, below, rfl⟩
        rw [if_pos inside, if_pos inside, if_pos clear]
        exact ih (pos + 512) _ (visited.next inside)
      · rw [if_neg inside, if_neg inside]

theorem loadSectorsOn_some (rounds : Nat) (pos : UInt32) (mem : Memory) (result : UInt32 × Memory)
    (filesz : UInt64)
    (ran : loadSectorsOn own disk sector kaddr filesz rounds pos mem = some result) :
    loadSectors disk sector kaddr filesz rounds pos mem = some result := by
  induction rounds generalizing pos mem with
  | zero => cases ran
  | succ rounds ih =>
      rw [loadSectorsOn] at ran
      rw [loadSectors]
      by_cases inside : pos.toUInt64 ≤ filesz
      · rw [if_pos inside] at ran ⊢
        split at ran
        · exact ih _ _ ran
        · cases ran
      · rw [if_neg inside] at ran ⊢
        exact ran

theorem loadSectorsOn_clear (filesz : UInt64) (small : filesz.toNat + 512 < 2 ^ 32)
    (rounds j : Nat) (behind : j ≤ filesz.toNat / 512 + 1) (mem after : Memory) (stop : UInt32)
    (ran : loadSectorsOn own disk sector kaddr filesz rounds (UInt32.ofNat (j * 512)) mem =
      some (stop, after)) :
    stop = UInt32.ofNat (sectorEnd filesz.toNat) ∧
      ∀ k, j * 512 ≤ k → k < sectorEnd filesz.toNat → own (kaddr + UInt32.ofNat k) = false := by
  induction rounds generalizing j mem with
  | zero => cases ran
  | succ rounds ih =>
      have within : (UInt32.ofNat (j * 512)).toUInt64 ≤ filesz ↔ j * 512 ≤ filesz.toNat := by
        rw [UInt64.le_iff_toNat_le, sector_position j (by omega)]
      rw [loadSectorsOn] at ran
      by_cases inside : j * 512 ≤ filesz.toNat
      · rw [if_pos (within.mpr inside)] at ran
        split at ran
        · rename_i clear
          rw [show (512 : UInt32) = UInt32.ofNat 512 from rfl, ← UInt32.ofNat_add,
            ← Nat.succ_mul] at ran
          rcases ih (j + 1) (by omega) _ ran with ⟨last, later⟩
          refine ⟨last, fun k above below => ?_⟩
          by_cases next : (j + 1) * 512 ≤ k
          · exact later k next below
          · have here : k - j * 512 < 512 := by omega
            have spared := clear (k - j * 512) here
            rw [add_assoc, ← UInt32.ofNat_add, Nat.add_sub_cancel' above] at spared
            exact spared
        · cases ran
      · rw [if_neg (within.not.mpr inside)] at ran
        cases ran
        have last : j = filesz.toNat / 512 + 1 := by omega
        refine ⟨by rw [last, sectorEnd], fun k above below => ?_⟩
        rw [sectorEnd] at below
        omega

/-- The load comes to its end on the machine exactly when it does so at all and no byte that it
writes is the loader's. -/
theorem loadKernelOn_some_iff (mem after : Memory) :
    loadKernelOn own disk sector kaddr header mem = some after ↔
      Spares own kaddr header ∧ loadKernel disk sector kaddr header mem = some after := by
  constructor
  · intro ran
    rcases Option.bind_eq_some_iff.mp ran with ⟨⟨stop, copied⟩, loop, filled⟩
    dsimp only at filled
    have loop' := loadSectorsOn_some _ _ _ _ _ loop
    have load : loadKernel disk sector kaddr header mem = some after := by
      rw [loadKernel, loop', Option.map_some]
      dsimp only
      by_cases more : stop.toUInt64 < header.pMemsz
      · rw [if_pos more] at filled ⊢
        split at filled
        · exact filled
        · cases filled
      · rw [if_neg more] at filled ⊢
        exact filled
    have small := loadKernel_ends disk sector kaddr header mem after load
    rcases loadSectorsOn_clear header.pFilesz small _ 0 (Nat.zero_le _) mem copied stop loop with
      ⟨rfl, clear⟩
    refine ⟨fun a written => ?_, load⟩
    rcases (written_iff kaddr header small a).mp written with ⟨k, inside, rfl⟩
    by_cases data : k < sectorEnd header.pFilesz.toNat
    · exact clear k (by omega) data
    · -- the byte is one of the zero fill
      have longer : sectorEnd header.pFilesz.toNat < header.pMemsz.toNat := by
        by_contra short
        rw [loadEnd, if_neg short] at inside
        exact data inside
      have more : (UInt32.ofNat (sectorEnd header.pFilesz.toNat)).toUInt64 < header.pMemsz := by
        rw [UInt64.lt_iff_toNat_lt, sectorEnd, sector_position _ (by omega)]
        exact longer
      rw [loadEnd, if_pos longer] at inside
      rw [if_pos more] at filled
      split at filled
      · rename_i spared
        have here := spared (k - sectorEnd header.pFilesz.toNat)
          (by rw [fill_count header small longer]; omega)
        rw [add_assoc, ← UInt32.ofNat_add, Nat.add_sub_cancel' (Nat.le_of_not_lt data)] at here
        exact here
      · cases filled
  · rintro ⟨spares, load⟩
    rw [loadKernel, Option.map_eq_some_iff] at load
    rcases load with ⟨⟨stop, copied⟩, loop, filled⟩
    rcases loadSectors_stops _ .start loop with ⟨visited, past⟩
    rw [loadKernelOn, loadSectorsOn_spared spares _ 0 mem .start, loop, Option.bind_some]
    dsimp only at filled ⊢
    split
    · rename_i more
      have clear : Clear own (kaddr + stop) (header.pMemsz - stop.toUInt64).toUInt32 := by
        intro i below
        refine spares _ ⟨stop, visited, ?_⟩
        rw [if_neg past]
        exact ⟨more, i, below, rfl⟩
      rw [if_pos more] at filled
      rw [if_pos clear, filled]
    · rename_i short
      rw [if_neg short] at filled
      rw [filled]

theorem stage2On_some_iff {base : UInt32} (kernel : ElfKernel disk base header)
    (e820 : List Memtable) (slot : (mmap (kernelSize header.pMemsz) e820).kaddr = some kaddr)
    (memory : Memory) (h : Handover) :
    stage2On own disk e820 memory = some h ↔
      Spares own kaddr header ∧ stage2 disk e820 memory = some h := by
  have run : stage2On own disk e820 memory =
      (loadKernelOn own disk (base.toUInt64 + header.pOffset / 512).toUInt32 kaddr header memory).map
        fun after => ⟨kaddr, kernelSize header.pMemsz, after, pageTables kaddr⟩ := by
    simp only [stage2On, kernel.found, kernel.header_eq, slot, Option.bind_eq_bind,
      Option.bind_some, Option.pure_def]
    cases loadKernelOn own disk (base.toUInt64 + header.pOffset / 512).toUInt32 kaddr header
      memory <;> rfl
  rw [run, stage2_eq disk base header kernel e820 kaddr slot memory, Option.map_eq_some_iff,
    Option.map_eq_some_iff]
  simp only [loadKernelOn_some_iff, and_assoc]
  constructor
  · rintro ⟨after, spares, load, same⟩
    exact ⟨spares, after, load, same⟩
  · rintro ⟨spares, after, load, same⟩
    exact ⟨after, spares, load, same⟩

/-- For every layout of the loader's memory: the image is the file's segment followed by zeros
exactly when the loop ends, the image ends below 4 GiB, nothing that is written is the loader's,
and the disk holds zeros behind the segment. -/
theorem stage2_loaded_iff (own : UInt32 → Bool) (disk : Disk) (base : UInt32) (header : Phdr)
    (kernel : ElfKernel disk base header) (e820 : List Memtable) (kaddr : UInt32)
    (slot : (mmap (kernelSize header.pMemsz) e820).kaddr = some kaddr) (memory : Memory) :
    (∃ h, stage2On own disk e820 memory = some h ∧ Loaded disk base header h.kaddr h.memory) ↔
      header.pFilesz.toNat + 512 < 2 ^ 32 ∧ kaddr.toNat + header.pMemsz.toNat ≤ 2 ^ 32 ∧
        Spares own kaddr header ∧ TailZero disk base header := by
  have image := stage2_image_iff disk base header kernel e820 kaddr slot memory
  simp only [stage2On_some_iff kernel e820 slot, and_assoc]
  constructor
  · rintro ⟨h, spares, ran, loaded⟩
    obtain ⟨small, below, tail⟩ := image.mp ⟨h, ran, loaded⟩
    exact ⟨small, below, spares, tail⟩
  · rintro ⟨small, below, spares, tail⟩
    obtain ⟨h, ran, loaded⟩ := image.mpr ⟨small, below, tail⟩
    exact ⟨h, spares, ran, loaded⟩

/-- A loader below 1 MiB, where `mmap` puts no region, is spared by a load that starts above and
does not go around the end of the address space. -/
theorem spares_above (low : ∀ a, own a = true → a.toNat < 0x100000)
    (above : 0x100000 ≤ kaddr.toNat) (small : header.pFilesz.toNat + 512 < 2 ^ 32)
    (ends : kaddr.toNat + loadEnd header.pFilesz.toNat header.pMemsz.toNat ≤ 2 ^ 32) :
    Spares own kaddr header := by
  intro a written
  rcases (written_iff kaddr header small a).mp written with ⟨k, inside, rfl⟩
  have address : (kaddr + UInt32.ofNat k).toNat = kaddr.toNat + k := by
    rw [UInt32.toNat_add, UInt32.toNat_ofNat_of_lt' (by simp only [UInt32.size]; omega),
      Nat.mod_eq_of_lt (by omega)]
  by_contra used
  have below := low _ (Bool.not_eq_false _ ▸ used)
  omega

def firstMegabyte (a : UInt32) : Bool := a < 0x100000

theorem sampleDisk_loaded :
    ElfKernel (sampleDisk 0) 1 samplePhdr ∧
      ∃ h, stage2On firstMegabyte (sampleDisk 0) oneRegion (fun _ => 0xff) = some h ∧
        Loaded (sampleDisk 0) 1 samplePhdr h.kaddr h.memory := by
  have kernel := sampleDisk_kernel 0
  have spares : Spares firstMegabyte 0x100000 samplePhdr := by
    refine spares_above ?_ (by decide) (by decide) (by decide)
    intro a used
    exact UInt32.lt_iff_toNat_lt.mp (of_decide_eq_true used)
  refine ⟨kernel, (stage2_loaded_iff _ _ 1 _ kernel oneRegion 0x100000 sampleDisk_slot _).mpr
    ⟨by decide, by decide, spares, ?_⟩⟩
  intro k behind inside _
  have low : 4 ≤ k := behind
  have high : k < 8 := inside
  interval_cases k
  all_goals rfl

theorem sampleDisk_garbage :
    ¬∀ (own : UInt32 → Bool) (disk : Disk) (base : UInt32) (header : Phdr),
      ElfKernel disk base header → ∀ (e820 : List Memtable) (kaddr : UInt32),
        (mmap (kernelSize header.pMemsz) e820).kaddr = some kaddr → Spares own kaddr header →
          ∀ memory, ∃ h, stage2On own disk e820 memory = some h ∧
            Loaded disk base header h.kaddr h.memory := by
  intro claim
  have kernel := sampleDisk_kernel 0xff
  rcases claim (fun _ => false) _ 1 _ kernel oneRegion 0x100000 sampleDisk_slot (fun _ _ => rfl)
    (fun _ => 0) with ⟨h, ran, image⟩
  rw [stage2On_some_iff kernel oneRegion sampleDisk_slot,
    stage2_eq _ 1 _ kernel oneRegion 0x100000 sampleDisk_slot, Option.map_eq_some_iff] at ran
  rcases ran with ⟨_, after, load, rfl⟩
  rcases image 4 (by decide) with ⟨a, address, byte⟩
  have bytes := loadKernel_byte _ 1 0x100000 samplePhdr kernel _ after load (by decide) 4 (by decide)
  rw [if_pos (by decide)] at bytes
  rw [place_eq 0x100000 a 4 address] at byte
  exact absurd (bytes.symm.trans byte) (by decide)

end Overwriting

end TitorOS.Stage2
