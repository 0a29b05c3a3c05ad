import TitorOS.Stage2.Loader

/-! The slot of the kernel: where `mmap` puts it, and which bytes the load loop and the zero
fill write. -/

namespace TitorOS.Stage2

open TitorOS.Lib

section Placement

/-- A final table: whole pages that end in the address space. -/
def PageRegions (regions : List Memtable) : Prop :=
  ∀ e ∈ regions, e.address.toNat % 4096 = 0 ∧ e.size.toNat % 4096 = 0 ∧
    e.address.toNat + e.size.toNat ≤ 2 ^ 64

/-- The kernel's memory starts at a page and lies in one of the regions. -/
def SlotInside (regions : List Memtable) (kaddr : UInt32) (memsz : UInt64) : Prop :=
  kaddr.toNat % 4096 = 0 ∧ ∃ e ∈ regions, ∀ k < memsz.toNat, e.Covers (kaddr.toNat + k)

/-- The first region that is not smaller than the rounded size. -/
def FirstLarge (memsz : UInt64) (regions : List Memtable) (r : Memtable) : Prop :=
  (kernelSize memsz).toNat ≤ r.size.toNat ∧ ∃ before after, regions = before ++ r :: after ∧
    ∀ e ∈ before, e.size.toNat < (kernelSize memsz).toNat

/-- The region starts below 4 GiB and has the size before the rounding, or another one lies
where the low half of its address points. -/
def SlotFits (memsz : UInt64) (regions : List Memtable) (r : Memtable) : Prop :=
  memsz.toNat = 0 ∨ (r.address.toNat < 2 ^ 32 ∧ memsz.toNat ≤ r.size.toNat) ∨
    ∃ e ∈ regions, e ≠ r ∧ e.address.toNat ≤ r.address.toNat % 2 ^ 32 ∧
      r.address.toNat % 2 ^ 32 + memsz.toNat ≤ e.address.toNat + e.size.toNat

theorem findSlot_some_iff (memsz : UInt64) (regions : List Memtable) (kaddr : UInt32) :
    findSlot (kernelSize memsz) regions = some kaddr ↔
      ∃ r, FirstLarge memsz regions r ∧ r.address.toUInt32 = kaddr := by
  have large (e : Memtable) : e.size ≥ (kernelSize memsz).toUInt64 ↔
      (kernelSize memsz).toNat ≤ e.size.toNat := by
    rw [ge_iff_le, UInt64.le_iff_toNat_le, UInt32.toNat_toUInt64]
  simp only [findSlot, Option.map_eq_some_iff, List.find?_eq_some_iff_append, FirstLarge, large,
    decide_eq_true_eq, Bool.not_eq_true', decide_eq_false_iff_not, Nat.not_le]

theorem FirstLarge.mem {memsz : UInt64} {regions : List Memtable} {r : Memtable}
    (first : FirstLarge memsz regions r) : r ∈ regions := by
  rcases first with ⟨_, before, after, rfl, _⟩
  exact List.mem_append_right before List.mem_cons_self

theorem FirstLarge.unique {memsz : UInt64} {regions : List Memtable} {r q : Memtable}
    (first : FirstLarge memsz regions r) (second : FirstLarge memsz regions q) : r = q := by
  have found (r : Memtable) (h : FirstLarge memsz regions r) :
      regions.find? (fun e => decide ((kernelSize memsz).toNat ≤ e.size.toNat)) = some r := by
    simpa [List.find?_eq_some_iff_append, FirstLarge] using h
  exact Option.some.inj ((found r first).symm.trans (found q second))

theorem covers_range (e : Memtable) (start count : Nat) (positive : count ≠ 0) :
    (∀ k < count, e.Covers (start + k)) ↔
      e.address.toNat ≤ start ∧ start + count ≤ e.address.toNat + e.size.toNat := by
  simp only [Memtable.Covers]
  constructor
  · intro covered
    have first := covered 0 (by omega)
    have last := covered (count - 1) (by omega)
    omega
  · intro ends k inside
    omega

theorem slotFits_iff {memsz : UInt64} {regions : List Memtable} {r : Memtable}
    (first : FirstLarge memsz regions r) :
    SlotFits memsz regions r ↔
      ∃ e ∈ regions, ∀ k < memsz.toNat, e.Covers (r.address.toNat % 2 ^ 32 + k) := by
  by_cases empty : memsz.toNat = 0
  · constructor
    · intro _
      exact ⟨r, first.mem, fun k inside => by omega⟩
    · intro _
      exact .inl empty
  · simp only [covers_range _ _ _ empty, SlotFits, empty, false_or]
    constructor
    · rintro (⟨low, size⟩ | ⟨e, listed, _, ends⟩)
      · refine ⟨r, first.mem, ?_⟩
        rw [Nat.mod_eq_of_lt low]
        omega
      · exact ⟨e, listed, ends⟩
    · rintro ⟨e, listed, ends⟩
      by_cases own : e = r
      · have bound : r.address.toNat % 2 ^ 32 < 2 ^ 32 := Nat.mod_lt _ (by decide)
        rw [own] at ends
        have low : r.address.toNat < 2 ^ 32 := ends.1.trans_lt bound
        rw [Nat.mod_eq_of_lt low] at ends
        exact .inl ⟨low, by omega⟩
      · exact .inr ⟨e, listed, own, ends⟩

/-- The kernel's slot lies in a region exactly when the first region that is large enough is
below 4 GiB and as large as the size in the header, or its address cut to 32 bits falls into
another region. -/
theorem slot_inside_iff (memsz : UInt64) (regions : List Memtable) (pages : PageRegions regions)
    (kaddr : UInt32) (returned : findSlot (kernelSize memsz) regions = some kaddr) :
    SlotInside regions kaddr memsz ↔
      ∃ r, FirstLarge memsz regions r ∧ SlotFits memsz regions r := by
  rcases (findSlot_some_iff memsz regions kaddr).mp returned with ⟨r, first, rfl⟩
  have whole := (pages r first.mem).1
  have start : r.address.toUInt32.toNat = r.address.toNat % 2 ^ 32 := UInt64.toNat_toUInt32 _
  rw [SlotInside, start, ← slotFits_iff first]
  constructor
  · rintro ⟨_, fits⟩
    exact ⟨r, first, fits⟩
  · rintro ⟨q, other, fits⟩
    rw [other.unique first] at fits
    exact ⟨by omega, fits⟩

def twoRegions : List Memtable := [⟨0x100000, 0x1000, USABLE, 1⟩, ⟨0x200000, 0x200000, USABLE, 1⟩]

theorem twoRegions_inside : SlotInside twoRegions 0x200000 0x2345 := by
  have pages : PageRegions twoRegions := by
    rw [PageRegions]
    decide
  rw [slot_inside_iff 0x2345 twoRegions pages 0x200000 (by decide)]
  refine ⟨⟨0x200000, 0x200000, USABLE, 1⟩, ⟨by decide, [⟨0x100000, 0x1000, USABLE, 1⟩], [], rfl, ?_⟩,
    .inr (.inl ⟨by decide, by decide⟩)⟩
  decide

theorem high_region_outside :
    ¬∀ (memsz : UInt64) (regions : List Memtable), PageRegions regions →
      ∀ kaddr, findSlot (kernelSize memsz) regions = some kaddr →
        SlotInside regions kaddr memsz := by
  intro claim
  have pages : PageRegions [⟨0x100000000, 0x100000, USABLE, 1⟩] := by
    rw [PageRegions]
    decide
  rcases (claim 0x1000 _ pages 0 (by decide)).2 with ⟨e, listed, covers⟩
  have first := covers 0 (by decide)
  rw [List.mem_singleton.mp listed, Memtable.Covers] at first
  exact absurd first (by decide)

end Placement

section Load

/-- The values `pos` takes in the load loop. -/
inductive LoadPos (filesz : UInt64) : UInt32 → Prop
  | start : LoadPos filesz 0
  | next {pos : UInt32} : LoadPos filesz pos → pos.toUInt64 ≤ filesz → LoadPos filesz (pos + 512)

/-- An address that the loop, or the zero fill after it, writes to. -/
def Written (kaddr : UInt32) (header : Phdr) (a : UInt32) : Prop :=
  ∃ pos, LoadPos header.pFilesz pos ∧
    if pos.toUInt64 ≤ header.pFilesz then ∃ i < 512, a = kaddr + pos + UInt32.ofNat i
    else pos.toUInt64 < header.pMemsz ∧
      ∃ i < (header.pMemsz - pos.toUInt64).toUInt32.toNat, a = kaddr + pos + UInt32.ofNat i

def InSlot (kaddr : UInt32) (header : Phdr) (a : UInt32) : Prop :=
  kaddr.toNat ≤ a.toNat ∧ a.toNat < kaddr.toNat + (kernelSize header.pMemsz).toNat

theorem loadSectors_stops {disk : Disk} {sector kaddr : UInt32} {filesz : UInt64} (rounds : Nat)
    {pos stop : UInt32} {mem after : Memory} (visited : LoadPos filesz pos)
    (ran : loadSectors disk sector kaddr filesz rounds pos mem = some (stop, after)) :
    LoadPos filesz stop ∧ ¬stop.toUInt64 ≤ filesz := by
  induction rounds generalizing pos mem with
  | zero => cases ran
  | succ rounds ih =>
      rw [loadSectors] at ran
      split at ran
      · rename_i inside
        exact ih (visited.next inside) ran
      · rename_i past
        cases ran
        exact ⟨visited, past⟩

theorem loadSectors_frame (disk : Disk) (sector kaddr : UInt32) (header : Phdr) (a : UInt32)
    (outside : ¬Written kaddr header a) (rounds : Nat) (pos stop : UInt32) (mem after : Memory)
    (visited : LoadPos header.pFilesz pos)
    (ran : loadSectors disk sector kaddr header.pFilesz rounds pos mem = some (stop, after)) :
    after a = mem a := by
  induction rounds generalizing pos mem with
  | zero => cases ran
  | succ rounds ih =>
      rw [loadSectors] at ran
      split at ran
      · rename_i inside
        rw [ih (pos + 512) _ (visited.next inside) ran, memCpy]
        apply fill_outside
        intro i below equal
        exact outside ⟨pos, visited, by rw [if_pos inside]; exact ⟨i, below, equal.symm⟩⟩
      · cases ran
        rfl

theorem loadKernel_frame (disk : Disk) (sector kaddr : UInt32) (header : Phdr) (mem after : Memory)
    (load : loadKernel disk sector kaddr header mem = some after) (a : UInt32)
    (outside : ¬Written kaddr header a) : after a = mem a := by
  rw [loadKernel, Option.map_eq_some_iff] at load
  rcases load with ⟨⟨stop, copied⟩, loop, rfl⟩
  have same := loadSectors_frame disk sector kaddr header a outside _ 0 stop mem copied .start loop
  rcases loadSectors_stops _ .start loop with ⟨visited, past⟩
  dsimp only
  split
  · rename_i more
    rw [memSet, fill_outside, same]
    intro i below equal
    exact outside ⟨stop, visited, by rw [if_neg past]; exact ⟨more, i, below, equal.symm⟩⟩
  · exact same

def sectorEnd (filesz : Nat) : Nat := (filesz / 512 + 1) * 512

theorem sector_position (j : Nat) (small : j * 512 < 2 ^ 32) :
    (UInt32.ofNat (j * 512)).toUInt64.toNat = j * 512 := by
  rw [UInt32.toNat_toUInt64, UInt32.toNat_ofNat_of_lt' small]

theorem loadPos_sector (filesz : UInt64) (j : Nat) (small : j * 512 < 2 ^ 32)
    (behind : j ≤ filesz.toNat / 512 + 1) : LoadPos filesz (UInt32.ofNat (j * 512)) := by
  induction j with
  | zero => exact .start
  | succ j ih =>
      have smaller : j * 512 < 2 ^ 32 := (Nat.mul_le_mul_right 512 j.le_succ).trans_lt small
      have before := ih smaller (by omega)
      have inside : (UInt32.ofNat (j * 512)).toUInt64 ≤ filesz := by
        rw [UInt64.le_iff_toNat_le, sector_position j smaller]
        omega
      have step := before.next inside
      rw [show (512 : UInt32) = UInt32.ofNat 512 from rfl, ← UInt32.ofNat_add] at step
      rw [Nat.succ_mul]
      exact step

theorem LoadPos.sector {filesz : UInt64} (small : filesz.toNat + 512 < 2 ^ 32) {pos : UInt32}
    (visited : LoadPos filesz pos) :
    ∃ j ≤ filesz.toNat / 512 + 1, pos = UInt32.ofNat (j * 512) := by
  induction visited with
  | start => exact ⟨0, Nat.zero_le _, rfl⟩
  | next _ inside ih =>
      rcases ih with ⟨j, behind, rfl⟩
      rw [UInt64.le_iff_toNat_le, sector_position j (by omega)] at inside
      refine ⟨j + 1, by omega, ?_⟩
      rw [Nat.succ_mul, UInt32.ofNat_add]
      rfl

def loadEnd (filesz memsz : Nat) : Nat :=
  if sectorEnd filesz < memsz then sectorEnd filesz + (memsz - sectorEnd filesz) % 2 ^ 32
  else sectorEnd filesz

theorem fill_count (header : Phdr) (small : header.pFilesz.toNat + 512 < 2 ^ 32)
    (more : sectorEnd header.pFilesz.toNat < header.pMemsz.toNat) :
    (header.pMemsz - (UInt32.ofNat (sectorEnd header.pFilesz.toNat)).toUInt64).toUInt32.toNat =
      (header.pMemsz.toNat - sectorEnd header.pFilesz.toNat) % 2 ^ 32 := by
  have position := sector_position (header.pFilesz.toNat / 512 + 1) (by omega)
  rw [UInt64.toNat_toUInt32, UInt64.toNat_sub_of_le _ _ ?_, sectorEnd, position]
  rw [UInt64.le_iff_toNat_le, sectorEnd, position]
  rw [sectorEnd] at more
  omega

theorem written_iff (kaddr : UInt32) (header : Phdr) (small : header.pFilesz.toNat + 512 < 2 ^ 32)
    (a : UInt32) :
    Written kaddr header a ↔
      ∃ k < loadEnd header.pFilesz.toNat header.pMemsz.toNat, a = kaddr + UInt32.ofNat k := by
  have stop := sector_position (header.pFilesz.toNat / 512 + 1) (by omega)
  have past : ¬(UInt32.ofNat (sectorEnd header.pFilesz.toNat)).toUInt64 ≤ header.pFilesz := by
    rw [UInt64.le_iff_toNat_le, sectorEnd, stop]
    omega
  have more : (UInt32.ofNat (sectorEnd header.pFilesz.toNat)).toUInt64 < header.pMemsz ↔
      sectorEnd header.pFilesz.toNat < header.pMemsz.toNat := by
    rw [UInt64.lt_iff_toNat_lt, sectorEnd, stop]
  constructor
  · rintro ⟨pos, visited, place⟩
    rcases visited.sector small with ⟨j, behind, rfl⟩
    by_cases last : j = header.pFilesz.toNat / 512 + 1
    · rw [last, ← sectorEnd, if_neg past, more] at place
      rcases place with ⟨longer, i, below, rfl⟩
      have count := fill_count header small longer
      refine ⟨sectorEnd header.pFilesz.toNat + i, ?_, ?_⟩
      · rw [loadEnd, if_pos longer, ← count]
        exact Nat.add_lt_add_left below _
      · rw [UInt32.ofNat_add, ← add_assoc]
    · have inside : (UInt32.ofNat (j * 512)).toUInt64 ≤ header.pFilesz := by
        rw [UInt64.le_iff_toNat_le, sector_position j (by omega)]
        omega
      rw [if_pos inside] at place
      rcases place with ⟨i, below, rfl⟩
      refine ⟨j * 512 + i, ?_, by rw [UInt32.ofNat_add, add_assoc]⟩
      have whole : j * 512 + i < sectorEnd header.pFilesz.toNat := by
        rw [sectorEnd]
        omega
      rw [loadEnd]
      split
      · omega
      · exact whole
  · rintro ⟨k, inside, rfl⟩
    by_cases copied : k < sectorEnd header.pFilesz.toNat
    · rw [sectorEnd] at copied
      refine ⟨UInt32.ofNat (k / 512 * 512), loadPos_sector _ _ (by omega) (by omega), ?_⟩
      rw [if_pos]
      · refine ⟨k % 512, Nat.mod_lt _ (by decide), ?_⟩
        rw [add_assoc, ← UInt32.ofNat_add, Nat.div_add_mod']
      · rw [UInt64.le_iff_toNat_le, sector_position _ (by omega)]
        omega
    · have longer : sectorEnd header.pFilesz.toNat < header.pMemsz.toNat := by
        by_contra short
        rw [loadEnd, if_neg short] at inside
        exact copied inside
      rw [loadEnd, if_pos longer] at inside
      refine ⟨UInt32.ofNat (sectorEnd header.pFilesz.toNat),
        loadPos_sector _ _ (by omega) le_rfl, ?_⟩
      rw [if_neg past, more, fill_count header small longer]
      refine ⟨longer, k - sectorEnd header.pFilesz.toNat, by omega, ?_⟩
      rw [add_assoc, ← UInt32.ofNat_add, Nat.add_sub_cancel' (Nat.le_of_not_lt copied)]

theorem written_everywhere (kaddr : UInt32) (header : Phdr)
    (large : 2 ^ 32 ≤ header.pFilesz.toNat + 512) (a : UInt32) : Written kaddr header a := by
  have bound := (a - kaddr).toNat_lt
  refine ⟨UInt32.ofNat ((a - kaddr).toNat / 512 * 512),
    loadPos_sector _ _ (by omega) (by omega), ?_⟩
  rw [if_pos]
  · refine ⟨(a - kaddr).toNat % 512, Nat.mod_lt _ (by decide), ?_⟩
    rw [add_assoc, ← UInt32.ofNat_add, Nat.div_add_mod', UInt32.ofNat_toNat, UInt32.add_comm,
      UInt32.sub_add_cancel]
  · rw [UInt64.le_iff_toNat_le, sector_position _ (by omega)]
    omega

theorem run_stays_iff (kaddr : UInt32) (count size : Nat) (positive : 0 < count)
    (small : size < 2 ^ 32) :
    (∀ k < count, kaddr.toNat ≤ (kaddr + UInt32.ofNat k).toNat ∧
        (kaddr + UInt32.ofNat k).toNat < kaddr.toNat + size) ↔
      count ≤ size ∧ kaddr.toNat + count ≤ 2 ^ 32 := by
  have bound := kaddr.toNat_lt
  have place (k : Nat) (inside : k < 2 ^ 32) :
      (kaddr + UInt32.ofNat k).toNat = (kaddr.toNat + k) % 2 ^ 32 := by
    rw [UInt32.toNat_add, UInt32.toNat_ofNat_of_lt' inside]
  constructor
  · intro stays
    -- the first byte past the slot, and the first one that wraps around
    have short : count ≤ size := by
      by_contra longer
      have past := stays size (by omega)
      rw [place size small] at past
      omega
    refine ⟨short, ?_⟩
    by_contra wraps
    have zero := stays (2 ^ 32 - kaddr.toNat) (by omega)
    rw [place _ (by omega)] at zero
    omega
  · rintro ⟨short, below⟩ k inside
    rw [place k (by omega)]
    omega

/-- The size in the header, cut to 32 bits, can be rounded up; what is loaded ends below 4 GiB;
and the last sector ends below the size in the header, or below it rounded up, which for a
size below 4 GiB is so except when the segment fills its pages. -/
def LoadFits (kaddr filesz memsz : Nat) : Prop :=
  memsz % 2 ^ 32 ≤ 2 ^ 32 - 4096 ∧ kaddr + max (sectorEnd filesz) (memsz % 2 ^ 32) ≤ 2 ^ 32 ∧
    (sectorEnd filesz ≤ memsz % 2 ^ 32 ∨
      memsz < 2 ^ 32 ∧ ¬(filesz = memsz ∧ memsz % 4096 = 0))

theorem loadEnd_fits_iff (kaddr filesz memsz : Nat) (sizes : filesz ≤ memsz)
    (small : filesz + 512 < 2 ^ 32) :
    loadEnd filesz memsz ≤ pageAbove (memsz % 2 ^ 32) % 2 ^ 32 ∧
        kaddr + loadEnd filesz memsz ≤ 2 ^ 32 ↔ LoadFits kaddr filesz memsz := by
  rw [LoadFits, pageAbove]
  by_cases more : sectorEnd filesz < memsz
  · rw [loadEnd, if_pos more]
    rw [sectorEnd] at more ⊢
    by_cases low : memsz < 2 ^ 32
    · rw [Nat.mod_eq_of_lt low, Nat.mod_eq_of_lt ((Nat.sub_le ..).trans_lt low)]
      omega
    · omega
  · rw [loadEnd, if_neg more]
    rw [sectorEnd] at more ⊢
    have low : memsz < 2 ^ 32 := by omega
    rw [Nat.mod_eq_of_lt low]
    omega

/-- The load stays in its slot exactly when it fits. -/
theorem load_stays_iff (kaddr : UInt32) (header : Phdr) (sizes : header.pFilesz ≤ header.pMemsz) :
    (∀ a, Written kaddr header a → InSlot kaddr header a) ↔
      LoadFits kaddr.toNat header.pFilesz.toNat header.pMemsz.toNat := by
  rw [UInt64.le_iff_toNat_le] at sizes
  have bound := (kernelSize header.pMemsz).toNat_lt
  by_cases ends : header.pFilesz.toNat + 512 < 2 ^ 32
  · have positive : 0 < loadEnd header.pFilesz.toNat header.pMemsz.toNat := by
      rw [loadEnd, sectorEnd]
      split
      · omega
      · omega
    rw [← loadEnd_fits_iff _ _ _ sizes ends, ← kernelSize_mod, ← run_stays_iff kaddr _ _ positive bound]
    simp only [written_iff kaddr header ends]
    constructor
    · intro stays k inside
      exact stays _ ⟨k, inside, rfl⟩
    · rintro stays a ⟨k, inside, rfl⟩
      exact stays k inside
  · constructor
    · intro stays
      have everywhere := written_everywhere kaddr header (by omega)
      have past := stays _ (everywhere (kaddr + kernelSize header.pMemsz))
      have zero := stays 0 (everywhere 0)
      have start := kaddr.toNat_lt
      rw [InSlot, UInt32.toNat_add] at past
      rw [InSlot, show (0 : UInt32).toNat = 0 from rfl] at zero
      omega
    · rintro ⟨round, below, either⟩
      rw [sectorEnd] at below either
      omega

theorem sampleDisk_stays :
    (mmap (kernelSize samplePhdr.pMemsz) oneRegion).kaddr = some 0x100000 ∧
      ∀ a, Written 0x100000 samplePhdr a → InSlot 0x100000 samplePhdr a :=
  ⟨sampleDisk_slot, (load_stays_iff 0x100000 samplePhdr (by decide)).mpr
    ⟨by decide, by decide, .inr ⟨by decide, by decide⟩⟩⟩

theorem full_page_overrun :
    ¬∀ (header : Phdr) (e820 : List Memtable) (kaddr : UInt32), header.pFilesz ≤ header.pMemsz →
      (mmap (kernelSize header.pMemsz) e820).kaddr = some kaddr →
        ∀ a, Written kaddr header a → InSlot kaddr header a := by
  intro claim
  have written : Written 0x100000 ⟨0x1000, 0x1000, 0x1000⟩ 0x101000 :=
    (written_iff _ _ (by decide) _).mpr ⟨0x1000, by decide, rfl⟩
  have inside := claim ⟨0x1000, 0x1000, 0x1000⟩ oneRegion 0x100000 (by decide) (by decide) _ written
  rw [InSlot] at inside
  exact absurd inside (by decide)

end Load

end TitorOS.Stage2
