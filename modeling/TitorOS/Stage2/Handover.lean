import TitorOS.Stage2.Loader

/-! What `init_kernel` relies on: the kernel's addresses are mapped, and its stack lies
above the image in the region the image was put in. -/

namespace TitorOS.Stage2

open TitorOS.Lib

def KERNEL_BASE : UInt64 := 0xffffffff80000000

/-- `rbp` and `rsp` at `initlong`. -/
def STACK_TOP : UInt64 := 0xffffffff80080000

/-- The processor's walk from a table down the given levels: bit 0 of an entry is the present
bit, bits 12 to 51 are the address of the next table or of the page. -/
def walk (tables : PageTables) (vaddr : Nat) : List Nat → Nat → Option Nat
  | [], page => some (page + vaddr % 4096)
  | shift :: rest, table =>
      let entry := (tables ((table - PAGE_TABLES.toNat) / 4096, vaddr / 2 ^ shift % 512)).toNat
      if entry % 2 = 0 then none else walk tables vaddr rest (entry / 4096 % 2 ^ 40 * 4096)

def translate (tables : PageTables) (vaddr : UInt64) : Option Nat :=
  walk tables vaddr.toNat [39, 30, 21, 12] PAGE_TABLES.toNat

/-- The region the search stops at. -/
def firstFit (ksize : UInt32) (e820 : List Memtable) : Option Memtable :=
  (mmap ksize e820).regions.find? fun e => e.size ≥ ksize.toUInt64

/-- The image is mapped to where it was loaded; the stack starts above it, and its first word
lies in the region of the image. -/
structure HandoverSafe (header : Phdr) (region : Memtable) (h : Handover) : Prop where
  mapped : ∀ k < header.pMemsz.toNat,
    translate h.tables (KERNEL_BASE + UInt64.ofNat k) = some (h.kaddr + UInt32.ofNat k).toNat
  image : ∀ k < header.pMemsz.toNat, region.Covers (h.kaddr + UInt32.ofNat k).toNat
  above : KERNEL_BASE.toNat + h.ksize.toNat < STACK_TOP.toNat
  stack : ∀ d, 1 ≤ d → d ≤ 8 → ∃ p,
    translate h.tables (STACK_TOP - UInt64.ofNat d) = some p ∧ region.Covers p

theorem mapPages_inside (tables : PageTables) (page : Nat) (start : UInt32) (i : Nat)
    (inside : i < 512) :
    mapPages tables page start (page, i) =
      (start + UInt32.ofNat i * 0x1000 + FLAGS).toUInt64 := by
  refine fill_inside (fun i => (page, i)) _ 512 tables ?_ i inside
  intro i _ j _ same
  exact (Prod.mk.inj same).2

theorem mapPages_outside (tables : PageTables) (page : Nat) (start : UInt32) (other i : Nat)
    (apart : page ≠ other) : mapPages tables page start (other, i) = tables (other, i) := by
  refine fill_outside (fun i => (page, i)) _ 512 tables (other, i) ?_
  intro j _ same
  exact apart (Prod.mk.inj same).1

theorem orEntry_self (tables : PageTables) (page entry : Nat) (value : UInt64) :
    orEntry tables page entry value (page, entry) = tables (page, entry) ||| value :=
  Function.update_self ..

theorem orEntry_ne (tables : PageTables) (page entry other i : Nat) (value : UInt64)
    (apart : page ≠ other ∨ entry ≠ i) :
    orEntry tables page entry value (other, i) = tables (other, i) := by
  refine Function.update_of_ne ?_ _ _
  intro same
  cases same
  simp at apart

theorem pageTables_path (kaddr : UInt32) :
    pageTables kaddr (0, 511) = 0x14003 ∧ pageTables kaddr (4, 510) = 0x15003 ∧
      pageTables kaddr (5, 0) = 0x16003 ∧ pageTables kaddr (5, 1) = 0 := by
  simp (disch := decide) only [pageTables, mapPages_outside, orEntry_ne, orEntry_self]
  decide

theorem pageTables_kernel (kaddr : UInt32) (i : Nat) (inside : i < 512) :
    pageTables kaddr (6, i) = (kaddr + UInt32.ofNat i * 0x1000 + FLAGS).toUInt64 :=
  mapPages_inside _ 6 kaddr i inside

theorem kernel_vaddr (k : Nat) (small : k < 2 ^ 31) :
    (KERNEL_BASE + UInt64.ofNat k).toNat = 0xffffffff80000000 + k := by
  have base : KERNEL_BASE.toNat = 0xffffffff80000000 := rfl
  rw [UInt64.toNat_add, UInt64.toNat_ofNat', base]
  omega

/-- An entry of the kernel's page table holds the flags and the address of its page. -/
theorem kernel_entry (kaddr : UInt32) (aligned : kaddr.toNat % 4096 = 0) (i : Nat)
    (inside : i < 512) :
    (pageTables kaddr (6, i)).toNat = (kaddr.toNat + i * 4096) % 2 ^ 32 + 3 := by
  have flags : FLAGS.toNat = 3 := rfl
  have page : (0x1000 : UInt32).toNat = 4096 := rfl
  rw [pageTables_kernel kaddr i inside, UInt32.toNat_toUInt64, UInt32.toNat_add, UInt32.toNat_add,
    UInt32.toNat_mul, UInt32.toNat_ofNat_of_lt' (by simp only [UInt32.size]; omega), flags, page]
  omega

theorem walk_present (tables : PageTables) (vaddr shift page i entry : Nat) (rest : List Nat)
    (index : vaddr / 2 ^ shift % 512 = i) (holds : (tables (page, i)).toNat = entry)
    (present : entry % 2 = 1) :
    walk tables vaddr (shift :: rest) (0x10000 + page * 4096) =
      walk tables vaddr rest (entry / 4096 % 2 ^ 40 * 4096) := by
  have here : (0x10000 + page * 4096 - PAGE_TABLES.toNat) / 4096 = page := by
    have root : PAGE_TABLES.toNat = 0x10000 := rfl
    omega
  simp only [walk, here, index, holds]
  rw [if_neg (by omega)]

theorem walk_absent (tables : PageTables) (vaddr shift page i : Nat) (rest : List Nat)
    (index : vaddr / 2 ^ shift % 512 = i) (empty : tables (page, i) = 0) :
    walk tables vaddr (shift :: rest) (0x10000 + page * 4096) = none := by
  have here : (0x10000 + page * 4096 - PAGE_TABLES.toNat) / 4096 = page := by
    have root : PAGE_TABLES.toNat = 0x10000 := rfl
    omega
  simp only [walk, here, index, empty]
  rfl

/-- The walk of a kernel address down to the page directory. -/
theorem walk_directory (kaddr : UInt32) (k : Nat) (small : k < 2 ^ 30) :
    walk (pageTables kaddr) (0xffffffff80000000 + k) [39, 30, 21, 12] PAGE_TABLES.toNat =
      walk (pageTables kaddr) (0xffffffff80000000 + k) [21, 12] (0x10000 + 5 * 4096) := by
  rcases pageTables_path kaddr with ⟨top, middle, _, _⟩
  have first := walk_present (pageTables kaddr) (0xffffffff80000000 + k) 39 0 511 0x14003
    [30, 21, 12] (by omega) (by rw [top]; rfl) rfl
  have second := walk_present (pageTables kaddr) (0xffffffff80000000 + k) 30 4 510 0x15003
    [21, 12] (by omega) (by rw [middle]; rfl) rfl
  exact first.trans second

theorem translate_kernel (kaddr : UInt32) (aligned : kaddr.toNat % 4096 = 0) (k : Nat)
    (inside : k < 0x200000) :
    translate (pageTables kaddr) (KERNEL_BASE + UInt64.ofNat k) =
      some (kaddr + UInt32.ofNat k).toNat := by
  have third := walk_present (pageTables kaddr) (0xffffffff80000000 + k) 21 5 0 0x16003 [12]
    (by omega) (by rw [(pageTables_path kaddr).2.2.1]; rfl) rfl
  have entry := kernel_entry kaddr aligned (k / 4096) (by omega)
  have last := walk_present (pageTables kaddr) (0xffffffff80000000 + k) 12 6 (k / 4096) _ []
    (by omega) entry (by omega)
  have target : (kaddr + UInt32.ofNat k).toNat =
      (kaddr.toNat + k / 4096 * 4096) % 2 ^ 32 + k % 4096 := by
    rw [UInt32.toNat_add, UInt32.toNat_ofNat_of_lt' (by simp only [UInt32.size]; omega)]
    omega
  rw [translate, kernel_vaddr k (by omega), walk_directory kaddr k (by omega), third, target]
  refine last.trans ?_
  have offset : (0xffffffff80000000 + k) % 4096 = k % 4096 := by omega
  have whole : (kaddr.toNat + k / 4096 * 4096) % 2 ^ 32 % 4096 = 0 := by omega
  have frame : ((kaddr.toNat + k / 4096 * 4096) % 2 ^ 32 + 3) / 4096 % 2 ^ 40 * 4096 =
      (kaddr.toNat + k / 4096 * 4096) % 2 ^ 32 := by
    have bound : (kaddr.toNat + k / 4096 * 4096) % 2 ^ 32 < 2 ^ 32 := Nat.mod_lt _ (by decide)
    omega
  rw [walk, offset, frame]

theorem translate_past (kaddr : UInt32) :
    translate (pageTables kaddr) (KERNEL_BASE + UInt64.ofNat 0x200000) = none := by
  rw [translate, kernel_vaddr 0x200000 (by decide), walk_directory kaddr 0x200000 (by decide)]
  exact walk_absent _ _ 21 5 1 [12] (by decide) (pageTables_path kaddr).2.2.2

theorem kernelSize_toNat (memsz : UInt64) (small : memsz.toNat ≤ 0x200000) :
    (kernelSize memsz).toNat = (memsz.toNat + 4095) / 4096 * 4096 := by
  rw [kernelSize_mod, pageAbove]
  omega

theorem align_aligned (e : Memtable) : (align e).address.toNat % 4096 = 0 := by
  have page : PAGE_SIZE.toNat = 4096 := rfl
  have start : (alignStart e).address.toNat % 4096 = 0 := by
    by_cases aligned : e.address % PAGE_SIZE = 0
    · rw [alignStart]
      simp only [aligned, ne_eq, not_true_eq_false, if_false]
      exact (mod_page_eq_zero _).mp aligned
    · have gap : (PAGE_SIZE - e.address % PAGE_SIZE).toNat = 4096 - e.address.toNat % 4096 := by
        rw [UInt64.toNat_sub_of_le _ _ (by
          rw [UInt64.le_iff_toNat_le, toNat_mod_page, page]
          omega), toNat_mod_page, page]
      rw [alignStart]
      simp only [aligned, ne_eq, not_false_eq_true, if_true]
      rw [UInt64.toNat_add, gap]
      omega
  rw [align, (alignEnd_toNat (alignStart e)).1]
  exact start

theorem firstFit_aligned (ksize : UInt32) (e820 : List Memtable) (region : Memtable)
    (placed : firstFit ksize e820 = some region) : region.address.toNat % 4096 = 0 := by
  have member := List.mem_of_find?_eq_some placed
  rw [regions_eq, List.mem_filter, List.mem_map] at member
  rcases member.1 with ⟨o, _, rfl⟩
  exact align_aligned o

theorem mmap_kaddr (ksize : UInt32) (e820 : List Memtable) :
    (mmap ksize e820).kaddr = (firstFit ksize e820).map fun e => e.address.toUInt32 := rfl

theorem stage2_placed (disk : Disk) (e820 : List Memtable) (memory : Memory) (h : Handover)
    (base : UInt32) (region : Memtable) (found : diskSectorBase disk = some base)
    (placed : firstFit (kernelSize (disk base).progHeader.pMemsz) e820 = some region)
    (reached : stage2 disk e820 memory = some h) :
    h.kaddr = region.address.toUInt32 ∧ h.ksize = kernelSize (disk base).progHeader.pMemsz ∧
      h.tables = pageTables region.address.toUInt32 := by
  simp only [stage2, found, mmap_kaddr, placed, Option.map_some, Option.bind_eq_bind,
    Option.bind_some, Option.pure_def, Option.bind_eq_some_iff, Option.some.injEq] at reached
  rcases reached with ⟨after, _, rfl⟩
  exact ⟨rfl, rfl, rfl⟩

theorem translate_stack (kaddr : UInt32) (aligned : kaddr.toNat % 4096 = 0) (d : Nat)
    (positive : 1 ≤ d) (small : d ≤ 8) :
    translate (pageTables kaddr) (STACK_TOP - UInt64.ofNat d) =
      some (kaddr + UInt32.ofNat (0x80000 - d)).toNat := by
  have same : STACK_TOP - UInt64.ofNat d = KERNEL_BASE + UInt64.ofNat (0x80000 - d) := by
    interval_cases d
    all_goals rfl
  rw [same, translate_kernel kaddr aligned _ (by omega)]

/-- The kernel is entered safely exactly when its image leaves room below the stack's top and
the region found for it is at least as large as the 512 KiB up to there, all below 4 GiB. -/
theorem stage2_handover_iff (disk : Disk) (e820 : List Memtable) (memory : Memory) (h : Handover)
    (base : UInt32) (region : Memtable) (found : diskSectorBase disk = some base)
    (placed : firstFit (kernelSize (disk base).progHeader.pMemsz) e820 = some region)
    (reached : stage2 disk e820 memory = some h) :
    HandoverSafe (disk base).progHeader region h ↔
      (disk base).progHeader.pMemsz.toNat ≤ 0x7f000 ∧ 0x80000 ≤ region.size.toNat ∧
        region.address.toNat + 0x80000 ≤ 2 ^ 32 := by
  rcases stage2_placed disk e820 memory h base region found placed reached with
    ⟨kaddr, ksize, tables⟩
  have whole := firstFit_aligned _ e820 region placed
  have start : h.kaddr.toNat = region.address.toNat % 2 ^ 32 := by
    rw [kaddr, UInt64.toNat_toUInt32]
  have aligned : h.kaddr.toNat % 4096 = 0 := by omega
  rw [← kaddr] at tables
  have base_eq : KERNEL_BASE.toNat = 0xffffffff80000000 := rfl
  have top_eq : STACK_TOP.toNat = 0xffffffff80080000 := rfl
  constructor
  · intro safe
    have mapped : (disk base).progHeader.pMemsz.toNat ≤ 0x200000 := by
      by_contra large
      have past := safe.mapped 0x200000 (by omega)
      rw [tables, translate_past] at past
      cases past
    have above := safe.above
    rw [ksize, kernelSize_toNat _ mapped, base_eq, top_eq] at above
    rcases safe.stack 1 le_rfl (by decide) with ⟨p, stack, covered⟩
    rw [tables, translate_stack h.kaddr aligned 1 le_rfl (by decide), Option.some.injEq] at stack
    rw [← stack, Memtable.Covers, UInt32.toNat_add, UInt32.toNat_ofNat_of_lt' (by decide),
      start] at covered
    refine ⟨by omega, ?_⟩
    have bound := region.address.toNat_lt
    omega
  · intro condition
    rcases condition with ⟨small, large, low⟩
    have place : ∀ k < 0x80000, (h.kaddr + UInt32.ofNat k).toNat = region.address.toNat + k := by
      intro k inside
      rw [UInt32.toNat_add, UInt32.toNat_ofNat_of_lt' (by simp only [UInt32.size]; omega), start]
      omega
    have covers : ∀ k < 0x80000, region.Covers (h.kaddr + UInt32.ofNat k).toNat := by
      intro k inside
      rw [place k inside, Memtable.Covers]
      omega
    refine ⟨?_, ?_, ?_, ?_⟩
    · intro k inside
      rw [tables]
      exact translate_kernel h.kaddr aligned k (by omega)
    · intro k inside
      exact covers k (by omega)
    · rw [ksize, kernelSize_toNat _ (by omega), base_eq, top_eq]
      omega
    · intro d positive short
      refine ⟨_, ?_, covers (0x80000 - d) (by omega)⟩
      rw [tables]
      exact translate_stack h.kaddr aligned d positive short

theorem sampleDisk_reached (e820 : List Memtable) (kaddr : UInt32)
    (slot : (mmap (kernelSize samplePhdr.pMemsz) e820).kaddr = some kaddr) (memory : Memory) :
    ∃ h, stage2 (sampleDisk 0) e820 memory = some h := by
  have kernel := sampleDisk_kernel 0
  rcases loadKernel_spec (sampleDisk 0) ((1 : UInt32).toUInt64 + samplePhdr.pOffset / 512).toUInt32
    kaddr samplePhdr memory (by decide) (by decide) with ⟨after, load, _⟩
  rw [stage2_eq _ 1 _ kernel e820 kaddr slot, load]
  exact ⟨_, rfl⟩

theorem sampleDisk_handover :
    ∃ h, stage2 (sampleDisk 0) oneRegion (fun _ => 0) = some h ∧
      HandoverSafe (sampleDisk 0 1).progHeader ⟨0x100000, 0x100000, USABLE, 1⟩ h := by
  have kernel := sampleDisk_kernel 0
  rcases sampleDisk_reached oneRegion 0x100000 sampleDisk_slot (fun _ => 0) with ⟨h, reached⟩
  have placed : firstFit (kernelSize (sampleDisk 0 1).progHeader.pMemsz) oneRegion =
      some ⟨0x100000, 0x100000, USABLE, 1⟩ := by
    rw [kernel.header_eq]
    decide
  refine ⟨h, reached, (stage2_handover_iff _ _ _ h 1 _ kernel.found placed reached).mpr ?_⟩
  rw [kernel.header_eq]
  decide

/-- One usable page at 1 MiB: it holds the image, and the stack lies outside it. -/
def onePage : List Memtable := [⟨0x100000, 0x1000, USABLE, 1⟩]

theorem onePage_stack_outside :
    ¬∀ (disk : Disk) (e820 : List Memtable) (memory : Memory) (h : Handover) (base : UInt32)
      (region : Memtable), diskSectorBase disk = some base →
        firstFit (kernelSize (disk base).progHeader.pMemsz) e820 = some region →
          stage2 disk e820 memory = some h →
            HandoverSafe (disk base).progHeader region h := by
  intro claim
  have kernel := sampleDisk_kernel 0
  rcases sampleDisk_reached onePage 0x100000 (by decide) (fun _ => 0) with ⟨h, reached⟩
  have placed : firstFit (kernelSize (sampleDisk 0 1).progHeader.pMemsz) onePage =
      some ⟨0x100000, 0x1000, USABLE, 1⟩ := by
    rw [kernel.header_eq]
    decide
  have safe := claim _ _ _ h 1 _ kernel.found placed reached
  rcases stage2_placed _ _ _ h 1 _ kernel.found placed reached with ⟨_, _, tables⟩
  rcases safe.stack 1 le_rfl (by decide) with ⟨p, stack, covered⟩
  rw [tables, translate_stack _ (by decide) 1 le_rfl (by decide), Option.some.injEq] at stack
  rw [← stack, Memtable.Covers] at covered
  exact absurd covered (by decide)

end TitorOS.Stage2
