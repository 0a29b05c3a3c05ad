import TitorOS.Barrel.Vmm

/-! The processor's walk over 32-bit addresses, and what it makes of the addresses that
`page_entry` computes. -/

namespace TitorOS.Barrel.Vmm

open TitorOS.Lib TitorOS.Lib.Word

/-- The word of physical memory at an address that is a multiple of four. -/
def physWord (mem : Mem) (paddr : Word) : Word := mem paddr.frame ((paddr >>> 2).setWidth 10)

def dirIndex (vaddr : BitVec 32) : BitVec 32 := vaddr >>> 22
def tableIndex (vaddr : BitVec 32) : BitVec 32 := (vaddr >>> 12) &&& 0x3FF#32
def pageOffset (vaddr : BitVec 32) : BitVec 32 := vaddr &&& 0xFFF#32

/-- Where the walk reads the directory entry of an address. -/
def pdeAddr (cr3 : Frame) (vaddr : BitVec 32) : Word := address cr3 + dirIndex vaddr * 4#32

def pteAddr (table : Frame) (vaddr : BitVec 32) : Word := address table + tableIndex vaddr * 4#32

/-- The two-level walk; CR4.PSE is clear, so every directory entry is one of a table. -/
def walk (mem : Mem) (cr3 : Frame) (vaddr : BitVec 32) : Option Word :=
  let pde := physWord mem (pdeAddr cr3 vaddr)
  if pde.present then
    let pte := physWord mem (pteAddr pde.frame vaddr)
    if pte.present then some (address pte.frame + pageOffset vaddr) else none
  else none

/-- `getpaddr` over 32-bit addresses. -/
def getpaddrWalk (mem : Mem) (cr3 : Frame) (vaddr : BitVec 32) : Option Word :=
  (walk mem cr3 (pageEntryAddr vaddr)).map fun entry => physWord mem entry &&& 0xFFFFF000#32

theorem toNat_dirIndex (vaddr : BitVec 32) : (dirIndex vaddr).toNat = vaddr.toNat / 4194304 := by
  rw [dirIndex, BitVec.toNat_ushiftRight, Nat.shiftRight_eq_div_pow]

theorem toNat_tableIndex (vaddr : BitVec 32) :
    (tableIndex vaddr).toNat = vaddr.toNat / 4096 % 1024 := by
  rw [tableIndex, BitVec.toNat_and, BitVec.toNat_ushiftRight, Nat.shiftRight_eq_div_pow,
    show (0x3FF#32).toNat = 2 ^ 10 - 1 from rfl, Nat.and_two_pow_sub_one_eq_mod]

theorem toNat_pageOffset (vaddr : BitVec 32) : (pageOffset vaddr).toNat = vaddr.toNat % 4096 := by
  rw [pageOffset, BitVec.toNat_and, show (0xFFF#32).toNat = 2 ^ 12 - 1 from rfl,
    Nat.and_two_pow_sub_one_eq_mod]

theorem toNat_address_add (f : Frame) (offset : BitVec 32) (small : offset.toNat < 4096) :
    (address f + offset).toNat = f.toNat * 4096 + offset.toNat := by
  have bound := f.isLt
  rw [BitVec.toNat_add, toNat_address]
  omega

theorem toNat_entryAddr (f : Frame) (i : BitVec 32) (small : i.toNat < 1024) :
    (address f + i * 4#32).toNat = f.toNat * 4096 + i.toNat * 4 := by
  have offset : (i * 4#32).toNat = i.toNat * 4 := by
    rw [BitVec.toNat_mul, show (4#32).toNat = 4 from rfl]
    omega
  rw [toNat_address_add f _ (by omega), offset]

theorem physWord_entry (mem : Mem) (f : Frame) (i : BitVec 32) (small : i.toNat < 1024) :
    physWord mem (address f + i * 4#32) = mem f (i.setWidth 10) := by
  have number := toNat_entryAddr f i small
  have inFrame : (address f + i * 4#32).frame = f := by
    apply BitVec.eq_of_toNat_eq
    rw [toNat_frame, number]
    omega
  have atWord : ((address f + i * 4#32) >>> 2).setWidth 10 = i.setWidth 10 := by
    apply BitVec.eq_of_toNat_eq
    rw [BitVec.toNat_setWidth, BitVec.toNat_ushiftRight, Nat.shiftRight_eq_div_pow, number,
      BitVec.toNat_setWidth]
    omega
  rw [physWord, inFrame, atWord]

theorem decode_dir (vaddr : BitVec 32) : (dirIndex vaddr).setWidth 10 = (decode vaddr).dir := rfl

theorem decode_table (vaddr : BitVec 32) : (tableIndex vaddr).setWidth 10 = (decode vaddr).table := by
  apply BitVec.eq_of_toNat_eq
  rw [BitVec.toNat_setWidth, toNat_tableIndex, decode, BitVec.toNat_setWidth,
    BitVec.toNat_ushiftRight, Nat.shiftRight_eq_div_pow]
  omega

theorem physWord_pde (mem : Mem) (cr3 : Frame) (vaddr : BitVec 32) :
    physWord mem (pdeAddr cr3 vaddr) = mem cr3 (decode vaddr).dir := by
  have bound := vaddr.isLt
  have small : (dirIndex vaddr).toNat < 1024 := by
    rw [toNat_dirIndex]
    omega
  rw [pdeAddr, physWord_entry mem cr3 _ small, decode_dir]

theorem physWord_pte (mem : Mem) (table : Frame) (vaddr : BitVec 32) :
    physWord mem (pteAddr table vaddr) = mem table (decode vaddr).table := by
  have small : (tableIndex vaddr).toNat < 1024 := by
    rw [toNat_tableIndex]
    omega
  rw [pteAddr, physWord_entry mem table _ small, decode_table]

/-- The walk over addresses is the one over pages, with the offset put back. -/
theorem walk_eq (s : State) (vaddr : BitVec 32) :
    walk s.mem s.cr3 vaddr =
      (pageFrame s (decode vaddr).toVPage).map fun f => address f + pageOffset vaddr := by
  simp only [walk, pageFrame, physWord_pde, physWord_pte]
  split
  · split
    · rfl
    · rfl
  · rfl

theorem pageEntryAddr_offset (vaddr : BitVec 32) :
    pageOffset (pageEntryAddr vaddr) = tableIndex vaddr * 4#32 := by
  apply BitVec.eq_of_toNat_eq
  rw [toNat_pageOffset, toNat_pageEntryAddr, BitVec.toNat_mul, toNat_tableIndex,
    show (4#32).toNat = 4 from rfl]
  omega

theorem toNat_roundDown (vaddr : BitVec 32) :
    (vaddr &&& 0xFFFFF000#32).toNat = vaddr.toNat / 4096 * 4096 := by
  have bound := vaddr.isLt
  have split : vaddr &&& 0xFFFFF000#32 = (vaddr >>> 12) <<< 12 := by
    ext i inside
    interval_cases i <;> simp
  rw [split, BitVec.toNat_shiftLeft, BitVec.toNat_ushiftRight, Nat.shiftRight_eq_div_pow,
    Nat.shiftLeft_eq]
  omega

theorem address_frame (w : Word) : address w.frame = w &&& 0xFFFFF000#32 := by
  apply BitVec.eq_of_toNat_eq
  rw [toNat_address, toNat_frame, toNat_roundDown]

theorem getpaddrWalk_getpaddr (s : State) (vaddr : BitVec 32) :
    getpaddrWalk s.mem s.cr3 vaddr = (getpaddr s (decode vaddr).toVPage).map address := by
  rw [getpaddrWalk, walk_eq, decode_pageEntryAddr, getpaddr, load, Option.map_map, Option.map_map,
    Option.map_map]
  congr 1
  funext f
  have entry : physWord s.mem (address f + pageOffset (pageEntryAddr vaddr)) =
      s.mem f (decode vaddr).table := by
    rw [pageEntryAddr_offset]
    exact physWord_pte s.mem f vaddr
  simp only [Function.comp_apply, entry, address_frame, pageEntry]

/-- Entry 1023 of the directory points to the directory. -/
def SelfMapped (mem : Mem) (cr3 : Frame) : Prop :=
  (mem cr3 1023#10).present = true ∧ (mem cr3 1023#10).frame = cr3

theorem decode_roundDown (vaddr : BitVec 32) :
    (decode (vaddr &&& 0xFFFFF000#32)).toVPage = (decode vaddr).toVPage := by
  simp only [decode, VPage.mk.injEq]
  constructor
  · apply BitVec.eq_of_toNat_eq
    rw [BitVec.toNat_setWidth, BitVec.toNat_setWidth, BitVec.toNat_ushiftRight,
      BitVec.toNat_ushiftRight, Nat.shiftRight_eq_div_pow, Nat.shiftRight_eq_div_pow,
      toNat_roundDown]
    omega
  · apply BitVec.eq_of_toNat_eq
    rw [BitVec.toNat_setWidth, BitVec.toNat_setWidth, BitVec.toNat_ushiftRight,
      BitVec.toNat_ushiftRight, Nat.shiftRight_eq_div_pow, Nat.shiftRight_eq_div_pow,
      toNat_roundDown]
    omega

/-- Through the last entry the walk loses a level: the directory serves as a table. -/
theorem walk_pageEntryAddr {mem : Mem} {cr3 : Frame} (self : SelfMapped mem cr3) {vaddr : BitVec 32}
    (present : (mem cr3 (decode vaddr).dir).present = true) :
    walk mem cr3 (pageEntryAddr vaddr) = some (pteAddr (mem cr3 (decode vaddr).dir).frame vaddr) := by
  have dir : (decode (pageEntryAddr vaddr)).dir = 1023#10 := by
    rw [decode_pageEntryAddr, pageEntry]
  have table : (decode (pageEntryAddr vaddr)).table = (decode vaddr).dir := by
    rw [decode_pageEntryAddr, pageEntry]
  simp only [walk, physWord_pde, physWord_pte, dir, table, self.1, self.2, present, if_true]
  rw [pageEntryAddr_offset, pteAddr]

theorem walk_directory {mem : Mem} {cr3 : Frame} (self : SelfMapped mem cr3) (vaddr : BitVec 32) :
    walk mem cr3 (pageEntryAddr (pageEntryAddr vaddr &&& 0xFFFFF000#32)) =
      some (pdeAddr cr3 vaddr) := by
  have page : (decode (pageEntryAddr vaddr &&& 0xFFFFF000#32)).toVPage =
      ⟨1023#10, (decode vaddr).dir⟩ := by
    rw [decode_roundDown, decode_pageEntryAddr, pageEntry]
  have dir := congrArg VPage.dir page
  have index : tableIndex (pageEntryAddr vaddr &&& 0xFFFFF000#32) = dirIndex vaddr := by
    have bound := vaddr.isLt
    apply BitVec.eq_of_toNat_eq
    rw [toNat_tableIndex, toNat_roundDown, toNat_pageEntryAddr, toNat_dirIndex]
    omega
  rw [walk_pageEntryAddr self (by rw [dir]; exact self.1), dir, self.2, pteAddr, index, pdeAddr]

theorem getpaddrWalk_eq {mem : Mem} {cr3 : Frame} (self : SelfMapped mem cr3) {vaddr : BitVec 32}
    (present : (mem cr3 (decode vaddr).dir).present = true) :
    getpaddrWalk mem cr3 vaddr =
      some (mem (mem cr3 (decode vaddr).dir).frame (decode vaddr).table &&& 0xFFFFF000#32) := by
  rw [getpaddrWalk, walk_pageEntryAddr self present, Option.map_some, physWord_pte]

theorem walk_add {mem : Mem} {cr3 : Frame} {v : BitVec 32} {paddr : Word}
    (walked : walk mem cr3 v = some paddr) (aligned : v.toNat % 4096 = 0) (k : Nat)
    (inside : k < 4096) :
    (walk mem cr3 (v + BitVec.ofNat 32 k)).map BitVec.toNat = some (paddr.toNat + k) := by
  have bound := v.isLt
  have sum : (v + BitVec.ofNat 32 k).toNat = v.toNat + k := by
    rw [BitVec.toNat_add, BitVec.toNat_ofNat]
    omega
  have page : (decode (v + BitVec.ofNat 32 k)).toVPage = (decode v).toVPage := by
    have same : (v + BitVec.ofNat 32 k) &&& 0xFFFFF000#32 = v := by
      apply BitVec.eq_of_toNat_eq
      rw [toNat_roundDown, sum]
      omega
    rw [← decode_roundDown, same]
  have start := toNat_pageOffset v
  have offset := toNat_pageOffset (v + BitVec.ofNat 32 k)
  simp only [walk, physWord_pde, physWord_pte, page] at walked ⊢
  split at walked
  · rename_i dirPresent
    rw [if_pos dirPresent]
    split at walked
    · rename_i present
      cases walked
      rw [if_pos present, Option.map_some, toNat_address_add _ _ (by omega),
        toNat_address_add _ _ (by omega)]
      apply congrArg some
      omega
    · cases walked
  · cases walked

theorem pageEntryAddr_inj (v w : BitVec 32) :
    pageEntryAddr v = pageEntryAddr w ↔ v.toNat / 4096 = w.toNat / 4096 := by
  have bound := v.isLt
  have bound' := w.isLt
  rw [← BitVec.toNat_inj, toNat_pageEntryAddr, toNat_pageEntryAddr]
  omega

/-- Where the walk gets through, `getpaddr` gives its result less the page offset. -/
theorem getpaddrWalk_walk {mem : Mem} {cr3 : Frame} (self : SelfMapped mem cr3) {v : BitVec 32}
    {paddr : Word} (walked : walk mem cr3 v = some paddr) :
    getpaddrWalk mem cr3 v = some (paddr &&& 0xFFFFF000#32) := by
  simp only [walk, physWord_pde, physWord_pte] at walked
  split at walked
  · rename_i present
    split at walked
    · cases walked
      rw [getpaddrWalk_eq self present]
      apply congrArg some
      apply BitVec.eq_of_toNat_eq
      have offset := toNat_pageOffset v
      rw [toNat_roundDown, toNat_roundDown, toNat_address_add _ _ (by omega), toNat_frame]
      omega
    · cases walked
  · cases walked

theorem recursive_mapping (mem : Mem) (cr3 : Frame) (self : SelfMapped mem cr3) (v : BitVec 32)
    (present : (physWord mem (pdeAddr cr3 v)).present = true) :
    walk mem cr3 (pageEntryAddr v) = some (pteAddr (physWord mem (pdeAddr cr3 v)).frame v) ∧
      walk mem cr3 (pageEntryAddr (pageEntryAddr v &&& 0xFFFFF000#32)) = some (pdeAddr cr3 v) ∧
      (∀ paddr, walk mem cr3 v = some paddr →
        getpaddrWalk mem cr3 v = some (paddr &&& 0xFFFFF000#32)) ∧
      ∀ w, pageEntryAddr v = pageEntryAddr w ↔ v.toNat / 4096 = w.toNat / 4096 := by
  rw [physWord_pde] at present ⊢
  exact ⟨walk_pageEntryAddr self present, walk_directory self v,
    fun _ walked => getpaddrWalk_walk self walked, pageEntryAddr_inj v⟩

/-- The entry of the first heap page in the boot directory: its table is at 0x302000. -/
theorem recursive_mapping_heap :
    walk (initVmm fun _ _ => 0#32).mem 0x300#20 (pageEntryAddr 0xC0400000#32) = some 0x302000#32 ∧
      walk (initVmm fun _ _ => 0#32).mem 0x300#20
        (pageEntryAddr (pageEntryAddr 0xC0400000#32 &&& 0xFFFFF000#32)) = some 0x300C04#32 := by
  rcases recursive_mapping (initVmm fun _ _ => 0#32).mem 0x300#20 ⟨by decide, by decide⟩
    0xC0400000#32 (by decide) with ⟨entry, dirEntry, _, _⟩
  exact ⟨entry.trans (by decide), dirEntry.trans (by decide)⟩

end TitorOS.Barrel.Vmm
