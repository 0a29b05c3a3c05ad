import TitorOS.Lib.PageWalk
import TitorOS.Stage2.Handover

/-! The page tables that `stage2` hands to `init_kernel`, as the processor walks them. -/

namespace TitorOS.Stage2

open TitorOS.Lib

/-- Physical memory with the seven tables in it. -/
def tableMemory (kaddr : UInt32) (others : Nat → UInt64) (address : Nat) : Nat :=
  if PAGE_TABLES.toNat ≤ address ∧ address < PAGE_TABLES.toNat + 7 * 4096 then
    (pageTables kaddr ((address - PAGE_TABLES.toNat) / 4096,
      (address - PAGE_TABLES.toNat) % 4096 / 8)).toNat
  else (others address).toNat

section Entries

variable (kaddr : UInt32) (others : Nat → UInt64)

theorem tableMemory_entry (page i : Nat) (inside : page < 7) (small : i < 512) :
    tableMemory kaddr others (0x10000 + page * 4096 + i * 8) = (pageTables kaddr (page, i)).toNat := by
  have root : PAGE_TABLES.toNat = 0x10000 := rfl
  have place : (0x10000 + page * 4096 + i * 8 - PAGE_TABLES.toNat) / 4096 = page := by omega
  have entry : (0x10000 + page * 4096 + i * 8 - PAGE_TABLES.toNat) % 4096 / 8 = i := by omega
  rw [tableMemory, place, entry]
  apply if_pos
  omega

theorem pageTables_low :
    pageTables kaddr (0, 0) = 0x11003 ∧ pageTables kaddr (1, 0) = 0x12003 ∧
      pageTables kaddr (2, 0) = 0x13003 := by
  simp (disch := decide) only [pageTables, mapPages_outside, orEntry_ne, orEntry_self]
  decide

theorem pageTables_empty (page i : Nat) (identity : 3 ≠ page) (kernel : 6 ≠ page)
    (other : (page, i) ∉ [(0, 0), (1, 0), (2, 0), (0, 511), (4, 510), (5, 0)]) :
    pageTables kaddr (page, i) = 0 := by
  have apart {p e : Nat} (member : (p, e) ∈ [(0, 0), (1, 0), (2, 0), (0, 511), (4, 510), (5, 0)]) :
      p ≠ page ∨ e ≠ i := by
    by_contra same
    rw [not_or, not_not, not_not] at same
    rw [same.1, same.2] at member
    exact other member
  rw [pageTables, mapPages_outside _ _ _ _ _ kernel, orEntry_ne _ _ _ _ _ _ (apart (by decide)),
    orEntry_ne _ _ _ _ _ _ (apart (by decide)), orEntry_ne _ _ _ _ _ _ (apart (by decide)),
    mapPages_outside _ _ _ _ _ identity, orEntry_ne _ _ _ _ _ _ (apart (by decide)),
    orEntry_ne _ _ _ _ _ _ (apart (by decide)), orEntry_ne _ _ _ _ _ _ (apart (by decide))]

theorem pageTables_identity (i : Nat) (small : i < 512) :
    (pageTables kaddr (3, i)).toNat = i * 4096 + 3 := by
  have entry : pageTables kaddr (3, i) = (0 + UInt32.ofNat i * 0x1000 + FLAGS).toUInt64 := by
    rw [pageTables, mapPages_outside _ _ _ _ _ (by decide), orEntry_ne _ _ _ _ _ _ (.inl (by decide)),
      orEntry_ne _ _ _ _ _ _ (.inl (by decide)), orEntry_ne _ _ _ _ _ _ (.inl (by decide)),
      mapPages_inside _ 3 0 i small]
  have flags : FLAGS.toNat = 3 := rfl
  have page : (0x1000 : UInt32).toNat = 4096 := rfl
  rw [entry, UInt32.zero_add, UInt32.toNat_toUInt64, UInt32.toNat_add, UInt32.toNat_mul,
    UInt32.toNat_ofNat_of_lt' (by simp only [UInt32.size]; omega), flags, page]
  omega

theorem kernel_entry_fits (aligned : kaddr.toNat % 4096 = 0) (fits : kaddr.toNat + 2 ^ 21 ≤ 2 ^ 32)
    (i : Nat) (small : i < 512) : (pageTables kaddr (6, i)).toNat = kaddr.toNat + i * 4096 + 3 := by
  rw [kernel_entry kaddr aligned i small]
  omega

end Entries

section Walk

variable {kaddr : UInt32} {others : Nat → UInt64} {vaddr : Nat}

open PageWalk

theorem tables_down (next : Nat) {shift page i : Nat} {rest : List Nat} {entry : UInt64}
    (at_ : vaddr / 2 ^ shift % 512 = i) (inside : page < 7)
    (holds : pageTables kaddr (page, i) = entry)
    (leads : entry.toNat = 0x10000 + next * 4096 + 3) (tables : next < 7) :
    PageWalk.walk (tableMemory kaddr others) vaddr (shift :: rest) (0x10000 + page * 4096) =
      PageWalk.walk (tableMemory kaddr others) vaddr rest (0x10000 + next * 4096) := by
  have small : i < 512 := at_ ▸ Nat.mod_lt _ (by decide)
  have read := tableMemory_entry kaddr others page i inside small
  rw [holds, leads] at read
  have address : frame (0x10000 + next * 4096 + 3) = 0x10000 + next * 4096 := by
    rw [frame]
    omega
  rw [PageWalk.walk_present at_ read (by omega) (.inr (by omega)), address]

theorem tables_fault {shift page i : Nat} {rest : List Nat} (at_ : vaddr / 2 ^ shift % 512 = i)
    (inside : page < 7) (identity : 3 ≠ page) (kernel : 6 ≠ page)
    (other : (page, i) ∉ [(0, 0), (1, 0), (2, 0), (0, 511), (4, 510), (5, 0)]) :
    PageWalk.walk (tableMemory kaddr others) vaddr (shift :: rest) (0x10000 + page * 4096) = none := by
  have small : i < 512 := at_ ▸ Nat.mod_lt _ (by decide)
  have read := tableMemory_entry kaddr others page i inside small
  rw [pageTables_empty kaddr page i identity kernel other] at read
  exact PageWalk.walk_absent at_ read rfl

theorem tables_page {page i target : Nat} (at_ : vaddr / 2 ^ 12 % 512 = i) (inside : page < 7)
    (holds : (pageTables kaddr (page, i)).toNat = target * 4096 + 3) (bounded : target < 2 ^ 40) :
    PageWalk.walk (tableMemory kaddr others) vaddr [12] (0x10000 + page * 4096) =
      some (target * 4096 + vaddr % 4096) := by
  have small : i < 512 := at_ ▸ Nat.mod_lt _ (by decide)
  have read := tableMemory_entry kaddr others page i inside small
  rw [holds] at read
  have address : frame (target * 4096 + 3) = target * 4096 := by
    rw [frame]
    omega
  rw [PageWalk.walk_present at_ read (by omega) (.inl rfl), PageWalk.walk, address]

theorem translate_low (lower : vaddr < 2 ^ 47) :
    PageWalk.translate (tableMemory kaddr others) 0x10000 vaddr =
      if vaddr < 2 ^ 21 then some vaddr else none := by
  rcases pageTables_low kaddr with ⟨top, middle, last⟩
  have start : frame 0x10000 = 0x10000 + 0 * 4096 := rfl
  rw [PageWalk.translate, start]
  by_cases half : vaddr / 2 ^ 39 % 512 = 0
  · rw [tables_down 1 half (by decide) top rfl (by decide)]
    by_cases outer : vaddr / 2 ^ 30 % 512 = 0
    · rw [tables_down 2 outer (by decide) middle rfl (by decide)]
      by_cases inner : vaddr / 2 ^ 21 % 512 = 0
      · have page := pageTables_identity kaddr (vaddr / 2 ^ 12 % 512) (by omega)
        have whole : vaddr / 2 ^ 12 % 512 * 4096 + vaddr % 4096 = vaddr := by omega
        rw [tables_down 3 inner (by decide) last rfl (by decide),
          tables_page rfl (by decide) page (by omega), whole, if_pos (by omega)]
      · rw [tables_fault rfl (by decide) (by decide) (by decide) (by simp; omega),
          if_neg (by omega)]
    · rw [tables_fault rfl (by decide) (by decide) (by decide) (by simp; omega), if_neg (by omega)]
  · rw [tables_fault rfl (by decide) (by decide) (by decide) (by simp; omega), if_neg (by omega)]

/-- The 2 MiB from `KERNEL_BASE` on are mapped to the kernel, and the rest of the upper half to
nothing. -/
theorem translate_high (aligned : kaddr.toNat % 4096 = 0) (fits : kaddr.toNat + 2 ^ 21 ≤ 2 ^ 32)
    (upper : 2 ^ 64 - 2 ^ 47 ≤ vaddr) (bounded : vaddr < 2 ^ 64) :
    PageWalk.translate (tableMemory kaddr others) 0x10000 vaddr =
      if 0xffffffff80000000 ≤ vaddr ∧ vaddr < 0xffffffff80000000 + 2 ^ 21 then
        some (kaddr.toNat + (vaddr - 0xffffffff80000000))
      else none := by
  rcases pageTables_path kaddr with ⟨top, middle, last, _⟩
  have start : frame 0x10000 = 0x10000 + 0 * 4096 := rfl
  rw [PageWalk.translate, start]
  by_cases half : vaddr / 2 ^ 39 % 512 = 511
  · rw [tables_down 4 half (by decide) top rfl (by decide)]
    by_cases outer : vaddr / 2 ^ 30 % 512 = 510
    · rw [tables_down 5 outer (by decide) middle rfl (by decide)]
      by_cases inner : vaddr / 2 ^ 21 % 512 = 0
      · have target : (pageTables kaddr (6, vaddr / 2 ^ 12 % 512)).toNat =
            (kaddr.toNat / 4096 + vaddr / 2 ^ 12 % 512) * 4096 + 3 := by
          rw [kernel_entry_fits kaddr aligned fits _ (by omega)]
          omega
        have whole : (kaddr.toNat / 4096 + vaddr / 2 ^ 12 % 512) * 4096 + vaddr % 4096 =
            kaddr.toNat + (vaddr - 0xffffffff80000000) := by
          omega
        rw [tables_down 6 inner (by decide) last rfl (by decide),
          tables_page rfl (by decide) target (by omega), whole, if_pos (by omega)]
      · rw [tables_fault rfl (by decide) (by decide) (by decide) (by simp; omega),
          if_neg (by omega)]
    · rw [tables_fault rfl (by decide) (by decide) (by decide) (by simp; omega), if_neg (by omega)]
  · rw [tables_fault rfl (by decide) (by decide) (by decide) (by simp; omega), if_neg (by omega)]

end Walk

/-- Wherever the kernel was put, and whatever else is in memory, a walk of the tables takes the
first 2 MiB to themselves, the 2 MiB from `KERNEL_BASE` on to the kernel, and faults on every other
canonical address. -/
theorem bootTables_translate (kaddr : UInt32) (others : Nat → UInt64) (vaddr : UInt64)
    (aligned : kaddr.toNat % 4096 = 0) (fits : kaddr.toNat + 2 ^ 21 ≤ 2 ^ 32)
    (canonical : PageWalk.Canonical vaddr.toNat) :
    PageWalk.translate (tableMemory kaddr others) PAGE_TABLES.toNat vaddr.toNat =
      if vaddr.toNat < 2 ^ 21 then some vaddr.toNat
      else if KERNEL_BASE.toNat ≤ vaddr.toNat ∧ vaddr.toNat < KERNEL_BASE.toNat + 2 ^ 21 then
        some (kaddr.toNat + (vaddr.toNat - KERNEL_BASE.toNat))
      else none := by
  have root : PAGE_TABLES.toNat = 0x10000 := rfl
  have base : KERNEL_BASE.toNat = 0xffffffff80000000 := rfl
  have bounded := vaddr.toNat_lt
  rw [root, base]
  rcases canonical with lower | upper
  · have small : vaddr.toNat < 2 ^ 47 := by omega
    have below : ¬(0xffffffff80000000 ≤ vaddr.toNat ∧
        vaddr.toNat < 0xffffffff80000000 + 2 ^ 21) := by
      omega
    rw [translate_low small, if_neg below]
  · have high : 2 ^ 64 - 2 ^ 47 ≤ vaddr.toNat := by omega
    have above : ¬vaddr.toNat < 2 ^ 21 := by omega
    rw [translate_high aligned fits high bounded, if_neg above]

theorem bootTables_second_page :
    PageWalk.translate (tableMemory 0x100000 fun _ => 0) PAGE_TABLES.toNat
      (0xffffffff80001234 : UInt64).toNat = some 0x101234 :=
  bootTables_translate 0x100000 (fun _ => 0) 0xffffffff80001234 (by decide) (by decide)
    (.inr (by decide))

end TitorOS.Stage2
