import TitorOS.Lib.Word
import TitorOS.Barrel.Ext2Read

/-! `ext2_mount` and `get_inode` for the geometry that a superblock declares, and the position
the ext2 layout gives an inode. A buffer that is read holds 4096 bytes; past them it is what
happens to lie behind the page. -/

namespace TitorOS.Barrel.Vfs

open TitorOS.Lib

/-- `ext2_sb_t`. -/
structure Superblock where
  noInodes : UInt32
  noBlocks : UInt32
  blockSize : UInt32
  groupBlockCount : UInt32
  groupInodeCount : UInt32
  inodeSize : UInt32
  ext2Sig : UInt32
  deriving DecidableEq

def superblockOf (sb : Buffer) : Superblock where
  ext2Sig := le32 sb 56
  inodeSize := le32 sb 88
  noInodes := le32 sb 0
  noBlocks := le32 sb 4
  blockSize := 1024 <<< le32 sb 24
  groupBlockCount := le32 sb 32
  groupInodeCount := le32 sb 40

/-- The globals that `ext2_mount` sets. -/
structure Mounted where
  superblock : Superblock
  bgdTable : Buffer

/-- `read` of some sectors of the device into a page. -/
def readPage (vol : Volume) (volume : Nat) (count : UInt32) : Op Buffer := do
  let k ← get
  match k.fds with
  | none => failure
  | some table =>
      let fd := table volume
      match readDevice (fun i => if i = 5 then vol.part else 0) fd (k.node fd.node) count with
      | some (.nvmeRead _ lba) => return vol.disk lba
      | _ => failure

/-- The number of block groups is computed and dropped, but its division faults. -/
def ext2Mount (vol : Volume) (getnode : List Char → Op NodePtr) (mountee mountpoint : List Char) :
    Op Mounted := do
  let mounteeFd ← open_ getnode mountee 1
  let _ ← kmalloc
  seek mounteeFd 2 0
  let sb ← readPage vol mounteeFd 2
  let superblock := superblockOf sb
  if superblock.ext2Sig &&& 0xFFFF ≠ 0xef53 then failure
  if superblock.groupBlockCount = 0 then failure
  let _ ← kmalloc
  seek mounteeFd (1 * BLOCK_FACTOR) 0
  let bgdTable ← readPage vol mounteeFd (1 * BLOCK_FACTOR)
  let mountpointNode ← getnode mountpoint
  modify (Kernel.setNode · mountpointNode fun n =>
    { n with inode := 2, fsInstance := 0, flags := DIRECTORY })
  close mounteeFd
  return ⟨superblock, bgdTable⟩

namespace Mounted

def blockGroup (m : Mounted) (inodeNo : UInt32) : UInt32 :=
  (inodeNo - 1) / m.superblock.groupInodeCount

def index (m : Mounted) (inodeNo : UInt32) : UInt32 := (inodeNo - 1) % m.superblock.groupInodeCount

def inodesPerBlock (m : Mounted) : UInt32 := m.superblock.blockSize / m.superblock.inodeSize

/-- The `inode_table` member of a descriptor of 32 bytes. -/
def inodeTable (m : Mounted) (blockGroup : UInt32) : UInt32 :=
  le32 m.bgdTable (32 * blockGroup.toNat + 8)

/-- The sector from which a page of the inode table is read, whatever the block size. -/
def inodeSector (m : Mounted) (inodeNo : UInt32) : UInt32 :=
  (m.inodeTable (m.blockGroup inodeNo) + m.index inodeNo / m.inodesPerBlock) * BLOCK_FACTOR

def inodeOffset (m : Mounted) (inodeNo : UInt32) : UInt32 :=
  m.index inodeNo % m.inodesPerBlock * m.superblock.inodeSize

/-- `get_inode`: the page of the inode and the bytes copied there. Three divisions may fault,
and `mem_copy` refuses more than a page. -/
def getInode (m : Mounted) (vol : Volume) (getnode : List Char → Op NodePtr) (vnode : NodePtr) :
    Op (Nat × Buffer) := do
  let k ← get
  let inodeNo := (k.node vnode).inode
  if m.superblock.groupInodeCount = 0 ∨ m.superblock.inodeSize = 0 ∨ m.inodesPerBlock = 0 then
    failure
  if 4096 < m.superblock.inodeSize.toNat % 65536 then failure
  let (inode, table) ← loadInodeBlock vol getnode (m.inodeSector inodeNo)
  return (inode, fun j => table ((m.inodeOffset inodeNo).toNat + j))

end Mounted

/-- What `ext2_mount` finds on the device. -/
def Volume.kept (vol : Volume) : Mounted :=
  ⟨superblockOf (vol.disk (2 + vol.part)), vol.disk (8 + vol.part)⟩

/-! The ext2 layout. Addresses are bytes of the partition. -/

namespace Superblock

/-- The descriptors start in the block after the superblock's. -/
def descriptor (s : Superblock) (inodeNo : Nat) : Nat :=
  (1024 / s.blockSize.toNat + 1) * s.blockSize.toNat +
    32 * ((inodeNo - 1) / s.groupInodeCount.toNat)

def tableBlock (s : Superblock) (bytes : Buffer) (inodeNo : Nat) : Nat :=
  (le32 bytes (s.descriptor inodeNo + 8)).toNat

/-- Where the inode is. -/
def inodeAddress (s : Superblock) (bytes : Buffer) (inodeNo : Nat) : Nat :=
  s.tableBlock bytes inodeNo * s.blockSize.toNat +
    (inodeNo - 1) % s.groupInodeCount.toNat * s.inodeSize.toNat

/-- The declarations of an ext2 superblock that is accepted, with room for an inode table
behind the descriptors. -/
structure Proper (s : Superblock) : Prop where
  signature : s.ext2Sig &&& 0xFFFF = 0xef53
  blocks : s.groupBlockCount ≠ 0
  block : ∃ log, s.blockSize.toNat = 1024 * 2 ^ log
  inode : 0 < s.inodeSize.toNat ∧ s.inodeSize.toNat ∣ s.blockSize.toNat
  group : 0 < s.groupInodeCount.toNat
  room : (1024 / s.blockSize.toNat + 2) * s.blockSize.toNat +
    s.groupInodeCount.toNat * s.inodeSize.toNat ≤ s.noBlocks.toNat * s.blockSize.toNat

end Superblock

/-- The volume's partition holds these bytes, with the superblock `sb`; the inode table of the
group of `inodeNo` lies behind the descriptors and in the volume. -/
structure Formatted (vol : Volume) (bytes sb : Buffer) (size : UInt32) (inodeNo : Nat) : Prop where
  part : 34 ≤ vol.part.toNat ∧ vol.part.toNat + size.toNat ≤ 2 ^ 32
  disk : ∀ sector : UInt32, sector.toNat + 8 ≤ size.toNat → ∀ j < 4096,
    vol.disk (sector + vol.part) j = bytes (512 * sector.toNat + j)
  superblock : ∀ j < 1024, bytes (1024 + j) = sb j
  table : 1024 / (superblockOf sb).blockSize.toNat + 2 ≤ (superblockOf sb).tableBlock bytes inodeNo ∧
    (superblockOf sb).tableBlock bytes inodeNo * (superblockOf sb).blockSize.toNat +
        (superblockOf sb).groupInodeCount.toNat * (superblockOf sb).inodeSize.toNat ≤
      (superblockOf sb).noBlocks.toNat * (superblockOf sb).blockSize.toNat

theorem le32_congr {b c : Buffer} {i j : Nat} (same : ∀ d < 4, b (i + d) = c (j + d)) :
    le32 b i = le32 c j := by
  have zero : b i = c j := same 0 (by decide)
  simp only [le32, zero, same 1 (by decide), same 2 (by decide), same 3 (by decide)]

theorem superblockOf_congr {b c : Buffer} (same : ∀ j < 92, b j = c j) :
    superblockOf b = superblockOf c := by
  have word (i : Nat) (inside : i + 4 ≤ 92) : le32 b i = le32 c i :=
    le32_congr fun d small => same _ (by omega)
  simp only [superblockOf, word 0 (by decide), word 4 (by decide), word 24 (by decide),
    word 32 (by decide), word 40 (by decide), word 56 (by decide), word 88 (by decide)]

section Mount

variable {vol : Volume} {k k' : Kernel} {node : NodePtr}

theorem readPage_eq {table : Nat → Fd} (fds : k.fds = some table) {volume : Nat}
    {sector count : UInt32} (entry : table volume = ⟨node, 1, sector⟩)
    (named : (k.node node).name = "nvme5".toList) {block : Buffer}
    (ran : readPage vol volume count k = some (block, k')) :
    block = vol.disk (sector + vol.part) ∧ k' = k := by
  rw [readPage, get_bind] at ran
  simp only [fds, entry] at ran
  by_cases inSize : InSize (k.node node) sector count
  · by_cases devfs : (k.node node).fs = .devfs
    · rw [readDevice_some (by exact (by decide : (1 : UInt8) &&& 1 ≠ 0)) inSize devfs named] at ran
      cases ran
      exact ⟨rfl, rfl⟩
    · have other : readDevice (fun i => if i = 5 then vol.part else 0) ⟨node, 1, sector⟩ (k.node node)
          count = none := by
        rw [readDevice, read_eq_some (by exact (by decide : (1 : UInt8) &&& 1 ≠ 0)) inSize]
        cases fs : (k.node node).fs with
        | tmpfs => rfl
        | devfs => exact absurd fs devfs
        | ext2fs => rfl
      rw [other] at ran
      cases ran
  · rw [readDevice_none inSize] at ran
    cases ran

theorem seek_readPage {table : Nat → Fd} (fds : k.fds = some table) {volume : Nat}
    {position sector count : UInt32} (entry : table volume = ⟨node, 1, position⟩)
    (named : (k.node node).name = "nvme5".toList) {block : Buffer} {k₁ : Kernel}
    (sought : seek volume sector 0 k = some ((), k₁))
    (ran : readPage vol volume count k₁ = some (block, k')) :
    block = vol.disk (sector + vol.part) ∧
      k' = { k with fds := some (Function.update table volume ⟨node, 1, sector⟩) } := by
  rcases (seek_costs fds volume sector).of_some sought with ⟨_, _, same⟩
  rw [entry] at same
  have again : (k₁.node node).name = "nvme5".toList := by
    rw [same]
    exact named
  rcases readPage_eq (by rw [same]) (Function.update_self ..) again ran with ⟨loaded, rfl⟩
  exact ⟨loaded, same⟩

theorem ext2Mount_ran {depth : Nat} {mountpoint : List Char} {m : Mounted}
    (ran : ext2Mount vol (getnode vol (depth + 1)) volumePath mountpoint k = some (m, k')) :
    m = vol.kept ∧ m.superblock.ext2Sig &&& 0xFFFF = 0xef53 ∧ m.superblock.groupBlockCount ≠ 0 := by
  rw [ext2Mount] at ran
  rcases bind_some ran with ⟨volume, k₁, first, steps⟩
  cases found : volumeNode k with
  | none =>
      rw [open_stuck 1 fun _ _ => getnode_volume_none _ _ found] at first
      cases first
  | some node =>
      rcases (open_volume_costs found depth).of_some first with ⟨_, _, opened⟩
      have named : (k₁.node node).name = "nvme5".toList :=
        (congrArg Vnode.name (Kernel.node_congr opened.root opened.pages node)).trans
          (volumeNode_name found)
      rcases bind_some steps with ⟨_, k₂, second, steps⟩
      rcases (kmalloc_costs k₁).of_some second with ⟨_, _, _, _, same₂⟩
      rcases bind_some steps with ⟨_, k₃, third, steps⟩
      rcases bind_some steps with ⟨sb, k₄, fourth, steps⟩
      rcases seek_readPage (by rw [same₂]; exact opened.fds) (Function.update_self ..)
        (by rw [same₂]; exact named) third fourth with ⟨rfl, same₄⟩
      dsimp only at steps
      split at steps
      · cases steps
      rename_i signature
      split at steps
      · cases steps
      rename_i groups
      rcases bind_some steps with ⟨_, k₅, fifth, steps⟩
      rcases (kmalloc_costs k₄).of_some fifth with ⟨_, _, _, _, same₅⟩
      rcases bind_some steps with ⟨_, k₆, sixth, steps⟩
      rcases bind_some steps with ⟨bgd, k₇, seventh, steps⟩
      rcases seek_readPage (by rw [same₅, same₄]) (Function.update_self ..)
        (by rw [same₅, same₄, same₂]; exact named) sixth seventh with ⟨rfl, _⟩
      rcases bind_some steps with ⟨_, k₈, _, steps⟩
      rcases bind_some steps with ⟨_, k₉, _, steps⟩
      rcases bind_some steps with ⟨_, k₁₀, _, steps⟩
      cases steps
      exact ⟨rfl, not_not.mp signature, groups⟩

end Mount

section Layout

variable {vol : Volume} {bytes sb : Buffer} {size inodeNo : UInt32} {k : Kernel} {node : NodePtr}

/-- The device's node is that of a partition of this size. -/
structure Attached (k : Kernel) (node : NodePtr) (size : UInt32) : Prop where
  found : volumeNode k = some node
  devfs : (k.node node).fs = .devfs
  sized : (k.node node).size = size

theorem blockAt_inside (attached : Attached k node size) {sector : UInt32}
    (inside : sector.toNat + 8 ≤ size.toNat) :
    blockAt vol k sector = some (vol.disk (sector + vol.part)) := by
  have bound := size.toNat_lt
  have inSize : InSize (k.node node) sector BLOCK_FACTOR := by
    left
    rw [attached.sized, UInt32.le_iff_toNat_le, UInt32.toNat_add]
    exact (Nat.mod_le _ _).trans inside
  rw [blockAt, attached.found, Option.bind_some, blockThrough,
    readDevice_some (by exact (by decide : (1 : UInt8) &&& 1 ≠ 0)) inSize attached.devfs
      (volumeNode_name attached.found)]
  rfl

theorem blockAt_outside (attached : Attached k node size) {sector : UInt32}
    (sized : 0 < size.toNat) (outside : size.toNat < sector.toNat + 8)
    (wraps : sector.toNat + 8 < 2 ^ 32) : blockAt vol k sector = none := by
  have notIn : ¬ InSize (k.node node) sector BLOCK_FACTOR := by
    rintro (within | unsized)
    · rw [attached.sized, UInt32.le_iff_toNat_le, UInt32.toNat_add] at within
      have eight : BLOCK_FACTOR.toNat = 8 := rfl
      omega
    · rw [attached.sized] at unsized
      rw [unsized] at sized
      exact absurd sized (by decide)
  rw [blockAt, attached.found, Option.bind_some, blockThrough, readDevice_none notIn]

theorem Mounted.getInode_eq (m : Mounted) (vol : Volume) (getnode : List Char → Op NodePtr)
    (vnode : NodePtr) (groups : m.superblock.groupInodeCount ≠ 0)
    (sized : m.superblock.inodeSize ≠ 0) (held : m.inodesPerBlock ≠ 0)
    (page : m.superblock.inodeSize.toNat ≤ 4096) :
    m.getInode vol getnode vnode k =
      (loadInodeBlock vol getnode (m.inodeSector (k.node vnode).inode) >>= fun result =>
        pure (result.1, fun j => result.2 ((m.inodeOffset (k.node vnode).inode).toNat + j))) k := by
  rw [getInode, get_bind]
  rw [if_neg (by simp [groups, sized, held]), if_neg (by omega)]

theorem Mounted.getInode_none {m : Mounted} {depth : Nat} {vnode : NodePtr}
    (unread : blockAt vol k (m.inodeSector (k.node vnode).inode) = none) :
    m.getInode vol (getnode vol depth) vnode k = none := by
  rw [getInode, get_bind]
  split
  · rfl
  split
  · rfl
  apply bind_none
  cases ran : loadInodeBlock vol (Vfs.getnode vol depth) (m.inodeSector (k.node vnode).inode) k with
  | none => rfl
  | some result =>
      rw [(loadInodeBlock_ran ran).1] at unread
      cases unread

theorem Mounted.getInode_volume (m : Mounted) (vol : Volume) (getnode : List Char → Op NodePtr)
    (vnode : NodePtr) (four : m.superblock.blockSize = 4096)
    (groups : vol.groupInodeCount = m.superblock.groupInodeCount)
    (sized : vol.inodeSize = m.superblock.inodeSize) (tables : vol.inodeTable = m.inodeTable) :
    Vfs.getInode vol getnode vnode k =
      (m.getInode vol getnode vnode k).map fun ((page, inode), k') =>
        ((page, ⟨le32 inode 4, le32 inode 40⟩), k') := by
  have small := vol.sized
  rw [sized, UInt32.le_iff_toNat_le, UInt32.le_iff_toNat_le] at small
  have low : (128 : UInt32).toNat = 128 := rfl
  have high : (4096 : UInt32).toNat = 4096 := rfl
  have held : m.inodesPerBlock ≠ 0 := by
    apply ne_zero_of_toNat_pos
    rw [inodesPerBlock, four, UInt32.toNat_div]
    exact Nat.div_pos (by omega) (by omega)
  have sector : Vfs.inodeSector vol (k.node vnode).inode = m.inodeSector (k.node vnode).inode := by
    simp only [Vfs.inodeSector, inodeSector, blockGroup, index, inodesPerBlock, groups, sized,
      tables, four]
  have inode (table : Buffer) : inodeIn vol (k.node vnode).inode table =
      ⟨le32 (fun j => table ((m.inodeOffset (k.node vnode).inode).toNat + j)) 4,
        le32 (fun j => table ((m.inodeOffset (k.node vnode).inode).toNat + j)) 40⟩ := by
    simp only [inodeIn, inodeOffset, index, inodesPerBlock, groups, sized, four]
    rfl
  rw [Vfs.getInode_eq, sector, m.getInode_eq vol getnode vnode (groups ▸ vol.groups)
    (ne_zero_of_toNat_pos (by omega)) held (by omega)]
  cases ran : loadInodeBlock vol getnode (m.inodeSector (k.node vnode).inode) k with
  | none =>
      rw [bind_none ran, bind_none ran]
      rfl
  | some result =>
      rw [bind_run ran, bind_run ran, inode]
      rfl

theorem Formatted.kept_superblock (formatted : Formatted vol bytes sb size inodeNo.toNat)
    (large : 16 ≤ size.toNat) : vol.kept.superblock = superblockOf sb := by
  apply superblockOf_congr
  intro j inside
  have two : (2 : UInt32).toNat = 2 := rfl
  rw [formatted.disk 2 (by omega) j (by omega), two]
  exact formatted.superblock j (by omega)

theorem Formatted.kept_table (formatted : Formatted vol bytes sb size inodeNo.toNat)
    (large : 16 ≤ size.toNat) {i : Nat} (inside : i + 4 ≤ 4096) :
    le32 vol.kept.bgdTable i = le32 bytes (4096 + i) := by
  apply le32_congr
  intro d small
  have eight : (8 : UInt32).toNat = 8 := rfl
  have loaded := formatted.disk 8 (by omega) (i + d) (by omega)
  rw [eight] at loaded
  rw [Nat.add_assoc]
  exact loaded

theorem toNat_pred (first : 1 ≤ inodeNo.toNat) : (inodeNo - 1).toNat = inodeNo.toNat - 1 :=
  toNat_sub_of_le inodeNo 1 first

/-- Whole inodes fill a block of 4096 bytes, so the place of an inode in its page is the one in
the table. -/
theorem inode_place {isz : Nat} (divides : isz ∣ 4096) (index : Nat) :
    index / (4096 / isz) * 4096 + index % (4096 / isz) * isz = index * isz := by
  have whole : 4096 / isz * isz = 4096 := Nat.div_mul_cancel divides
  calc
    index / (4096 / isz) * 4096 + index % (4096 / isz) * isz =
        index / (4096 / isz) * (4096 / isz * isz) + index % (4096 / isz) * isz := by rw [whole]
    _ = (4096 / isz * (index / (4096 / isz)) + index % (4096 / isz)) * isz := by ring
    _ = index * isz := by rw [Nat.div_add_mod]

theorem inode_in_page {isz : Nat} (positive : 0 < isz) (divides : isz ∣ 4096) (index : Nat) :
    index % (4096 / isz) * isz + isz ≤ 4096 := by
  have whole : 4096 / isz * isz = 4096 := Nat.div_mul_cancel divides
  have some : 0 < 4096 / isz := Nat.div_pos (Nat.le_of_dvd (by decide) divides) positive
  have less : index % (4096 / isz) + 1 ≤ 4096 / isz := Nat.mod_lt _ some
  calc
    index % (4096 / isz) * isz + isz = (index % (4096 / isz) + 1) * isz := by ring
    _ ≤ 4096 / isz * isz := Nat.mul_le_mul_right _ less
    _ = 4096 := whole

theorem Formatted.inode_read (formatted : Formatted vol bytes sb size inodeNo.toNat)
    (proper : (superblockOf sb).Proper) (large : 16 ≤ size.toNat)
    (fits : (superblockOf sb).noBlocks.toNat * (superblockOf sb).blockSize.toNat ≤ 512 * size.toNat)
    (first : 1 ≤ inodeNo.toNat) (four : (superblockOf sb).blockSize.toNat = 4096)
    (group : (inodeNo.toNat - 1) / (superblockOf sb).groupInodeCount.toNat < 128) :
    (vol.kept.inodeSector inodeNo).toNat + 8 ≤ size.toNat ∧
      512 * (vol.kept.inodeSector inodeNo).toNat + (vol.kept.inodeOffset inodeNo).toNat =
        (superblockOf sb).inodeAddress bytes inodeNo.toNat ∧
      (vol.kept.inodeOffset inodeNo).toNat + (superblockOf sb).inodeSize.toNat ≤ 4096 := by
  have declared := formatted.kept_superblock large
  have inodePos := proper.inode.1
  have divides := proper.inode.2
  have groupPos := proper.group
  have table := formatted.table.2
  have bound := size.toNat_lt
  rw [four] at divides fits table
  have pred := toNat_pred first
  have word : vol.kept.inodeTable (vol.kept.blockGroup inodeNo) =
      le32 bytes ((superblockOf sb).descriptor inodeNo.toNat + 8) := by
    have number : (vol.kept.blockGroup inodeNo).toNat =
        (inodeNo.toNat - 1) / (superblockOf sb).groupInodeCount.toNat := by
      rw [Mounted.blockGroup, declared, UInt32.toNat_div, pred]
    rw [Mounted.inodeTable, number, formatted.kept_table large (by omega), Superblock.descriptor,
      four]
    rfl
  have perBlock : vol.kept.inodesPerBlock.toNat = 4096 / (superblockOf sb).inodeSize.toNat := by
    rw [Mounted.inodesPerBlock, declared, UInt32.toNat_div, four]
  have index : (vol.kept.index inodeNo).toNat =
      (inodeNo.toNat - 1) % (superblockOf sb).groupInodeCount.toNat := by
    rw [Mounted.index, declared, UInt32.toNat_mod, pred]
  have inGroup := Nat.mod_lt (inodeNo.toNat - 1) groupPos
  simp only [Superblock.inodeAddress, four]
  rw [Superblock.tableBlock] at table ⊢
  rw [← word] at table ⊢
  generalize named : vol.kept.inodeTable (vol.kept.blockGroup inodeNo) = start at *
  generalize (inodeNo.toNat - 1) % (superblockOf sb).groupInodeCount.toNat = i at *
  have place := inode_place divides i
  have inPage := inode_in_page inodePos divides i
  have offset : (vol.kept.inodeOffset inodeNo).toNat =
      i % (4096 / (superblockOf sb).inodeSize.toNat) * (superblockOf sb).inodeSize.toNat := by
    rw [Mounted.inodeOffset, declared, UInt32.toNat_mul, UInt32.toNat_mod, index, perBlock]
    exact Nat.mod_eq_of_lt (by omega)
  -- the page lies in the table's blocks, so in the volume
  have inside : start.toNat + i / (4096 / (superblockOf sb).inodeSize.toNat) + 1 ≤
      (superblockOf sb).noBlocks.toNat := by
    have last : i * (superblockOf sb).inodeSize.toNat <
        (superblockOf sb).groupInodeCount.toNat * (superblockOf sb).inodeSize.toNat :=
      Nat.mul_lt_mul_of_pos_right inGroup inodePos
    omega
  have sector : (vol.kept.inodeSector inodeNo).toNat =
      (start.toNat + i / (4096 / (superblockOf sb).inodeSize.toNat)) * 8 := by
    rw [Mounted.inodeSector, named, UInt32.toNat_mul, UInt32.toNat_add, UInt32.toNat_div, index,
      perBlock, show BLOCK_FACTOR.toNat = 8 from rfl]
    omega
  rw [sector, offset]
  refine ⟨by omega, by omega, inPage⟩

theorem Formatted.getInode_costs {vnode : NodePtr}
    (formatted : Formatted vol bytes sb size (k.node vnode).inode.toNat)
    (proper : (superblockOf sb).Proper) (attached : Attached k node size) (large : 16 ≤ size.toNat)
    (fits : (superblockOf sb).noBlocks.toNat * (superblockOf sb).blockSize.toNat ≤ 512 * size.toNat)
    (first : 1 ≤ (k.node vnode).inode.toNat) (four : (superblockOf sb).blockSize.toNat = 4096)
    (group : ((k.node vnode).inode.toNat - 1) / (superblockOf sb).groupInodeCount.toNat < 128)
    (depth : Nat) :
    Costs room (vol.kept.getInode vol (getnode vol (depth + 1)) vnode) k (1, tablePage k + 3)
      (0, tablePage k + 1) fun result _ => ∀ j < (superblockOf sb).inodeSize.toNat, result.2 j =
        bytes ((superblockOf sb).inodeAddress bytes (k.node vnode).inode.toNat + j) := by
  obtain ⟨inside, place, inPage⟩ := formatted.inode_read proper large fits first four group
  have nonneg := tablePage_nonneg k
  have declared := formatted.kept_superblock large
  have groups : vol.kept.superblock.groupInodeCount ≠ 0 := by
    rw [declared]
    exact ne_zero_of_toNat_pos proper.group
  have sized : vol.kept.superblock.inodeSize ≠ 0 := by
    rw [declared]
    exact ne_zero_of_toNat_pos proper.inode.1
  have held : vol.kept.inodesPerBlock ≠ 0 := by
    apply ne_zero_of_toNat_pos
    rw [Mounted.inodesPerBlock, declared, UInt32.toNat_div, four]
    exact Nat.div_pos (by omega) proper.inode.1
  have onePage : vol.kept.superblock.inodeSize.toNat ≤ 4096 := by
    rw [declared]
    omega
  refine Costs.congr ?_ (Mounted.getInode_eq _ _ _ vnode groups sized held onePage)
  refine (Costs.bind (0, 0) (0, 0)
    (loadInodeBlock_costs attached.found depth (blockAt_inside attached inside)) ?_).cast
    (need_eq (by omega) (by omega)) (net_eq (by omega) (by omega))
  intro result k' ⟨loaded, _⟩ _
  refine Costs.pure (room_nonneg k') ?_
  intro j short
  simp only [loaded]
  rw [formatted.disk _ inside _ (by omega), ← place, Nat.add_assoc]

end Layout

/-! For every other geometry there is a volume on which the driver goes astray: it takes the
block of the table from where no descriptor of the group is. -/

def putWord (buffer : Buffer) (a : Nat) (w : UInt32) : Buffer := fun x =>
  if a ≤ x ∧ x < a + 4 then (w >>> UInt32.ofNat (8 * (x - a))).toUInt8 else buffer x

theorem le32_putWord (buffer : Buffer) (a : Nat) (w : UInt32) : le32 (putWord buffer a w) a = w := by
  have byte (d : Nat) (small : d < 4) :
      putWord buffer a w (a + d) = (w >>> UInt32.ofNat (8 * d)).toUInt8 := by
    rw [putWord, if_pos (by omega), Nat.add_sub_cancel_left]
  have zero := byte 0 (by decide)
  rw [Nat.add_zero] at zero
  rw [le32, zero, byte 1 (by decide), byte 2 (by decide), byte 3 (by decide)]
  apply UInt32.toBitVec_inj.mp
  simp only [UInt32.toBitVec_or, UInt32.toBitVec_shiftLeft, UInt8.toBitVec_toUInt32,
    UInt32.toBitVec_toUInt8, UInt32.toBitVec_shiftRight]
  ext i inside
  interval_cases i <;> simp

theorem putWord_other (buffer : Buffer) (a : Nat) (w : UInt32) {x : Nat}
    (other : x < a ∨ a + 4 ≤ x) : putWord buffer a w x = buffer x :=
  if_neg (by omega)

section Astray

/-- A partition with this superblock. The group's descriptor says `table`; the driver finds
`stray`, on the disk or behind the page it has loaded. -/
def strayBytes (sb : Buffer) (inodeNo : Nat) (table stray : UInt32) : Buffer :=
  let declared : Buffer := fun x => if 1024 ≤ x ∧ x < 2048 then sb (x - 1024) else 0
  let group := (inodeNo - 1) / (superblockOf sb).groupInodeCount.toNat
  putWord (putWord declared (4096 + 32 * group + 8) stray)
    ((superblockOf sb).descriptor inodeNo + 8) table

def strayVolume (sb : Buffer) (inodeNo : Nat) (table stray : UInt32) : Volume where
  groupInodeCount := 1
  inodeSize := 128
  inodeTable _ := 0
  part := 34
  disk lba j :=
    if j < 4096 then strayBytes sb inodeNo table stray (512 * (lba - 34).toNat + j)
    else putWord (fun _ => 0)
      (32 * ((inodeNo - 1) / (superblockOf sb).groupInodeCount.toNat) + 8) stray j
  groups := one_inode_groups
  sized := small_inodes

variable {sb : Buffer}

theorem descriptor_elsewhere {s : Superblock} (proper : s.Proper) (inodeNo : Nat) :
    2048 + 32 * ((inodeNo - 1) / s.groupInodeCount.toNat) ≤ s.descriptor inodeNo ∧
      (s.blockSize.toNat ≠ 4096 →
        s.descriptor inodeNo + 2048 ≤ 4096 + 32 * ((inodeNo - 1) / s.groupInodeCount.toNat) ∨
          4096 + 32 * ((inodeNo - 1) / s.groupInodeCount.toNat) + 4096 ≤ s.descriptor inodeNo) := by
  obtain ⟨log, size⟩ := proper.block
  rw [Superblock.descriptor]
  match log, size with
  | 0, size =>
      rw [size]
      omega
  | 1, size =>
      rw [size]
      omega
  | 2, size =>
      rw [size]
      omega
  | log + 3, size =>
      have large : 8192 ≤ s.blockSize.toNat := by
        have power : 0 < 2 ^ log := Nat.two_pow_pos log
        rw [size, Nat.pow_add]
        omega
      have none : 1024 / s.blockSize.toNat = 0 := Nat.div_eq_of_lt (by omega)
      rw [none]
      omega

theorem stray_formatted (proper : (superblockOf sb).Proper) (size inodeNo table stray : UInt32)
    (part : size.toNat + 34 ≤ 2 ^ 32)
    (start : table.toNat = 1024 / (superblockOf sb).blockSize.toNat + 2) :
    Formatted (strayVolume sb inodeNo.toNat table stray) (strayBytes sb inodeNo.toNat table stray)
      sb size inodeNo.toNat := by
  obtain ⟨above, _⟩ := descriptor_elsewhere proper inodeNo.toNat
  have found : (superblockOf sb).tableBlock (strayBytes sb inodeNo.toNat table stray)
      inodeNo.toNat = table.toNat := by
    rw [Superblock.tableBlock, strayBytes, le32_putWord]
  refine ⟨⟨Nat.le_refl _, ?_⟩, ?_, ?_, ?_⟩
  · have base : (34 : UInt32).toNat = 34 := rfl
    change (34 : UInt32).toNat + _ ≤ _
    omega
  · intro sector _ j inside
    have back : sector + 34 - 34 = sector := UInt32.add_sub_cancel sector 34
    change (if j < 4096 then _ else _) = _
    rw [if_pos inside]
    change strayBytes _ _ _ _ (512 * (sector + 34 - 34).toNat + j) = _
    rw [back]
  · intro j inside
    rw [strayBytes, putWord_other _ _ _ (.inl (by omega)), putWord_other _ _ _ (.inl (by omega)),
      if_pos (by omega), Nat.add_sub_cancel_left]
  · rw [found, start]
    exact ⟨Nat.le_refl _, proper.room⟩

theorem stray_taken (proper : (superblockOf sb).Proper) {inodeNo : UInt32} (table stray : UInt32)
    (other : ¬ ((superblockOf sb).blockSize.toNat = 4096 ∧
      (inodeNo.toNat - 1) / (superblockOf sb).groupInodeCount.toNat < 128)) :
    le32 (strayVolume sb inodeNo.toNat table stray).kept.bgdTable
      (32 * ((inodeNo.toNat - 1) / (superblockOf sb).groupInodeCount.toNat) + 8) = stray := by
  obtain ⟨_, elsewhere⟩ := descriptor_elsewhere proper inodeNo.toNat
  generalize at' : (inodeNo.toNat - 1) / (superblockOf sb).groupInodeCount.toNat = group at *
  by_cases loaded : group < 128
  · have apart := elsewhere (fun four => other ⟨four, loaded⟩)
    refine Eq.trans (le32_congr ?_) (le32_putWord
      (fun x => if 1024 ≤ x ∧ x < 2048 then sb (x - 1024) else 0) (4096 + 32 * group + 8) stray)
    intro d small
    have sector : 512 * ((8 : UInt32) + 34 - 34).toNat = 4096 := by decide
    change (if _ < 4096 then strayBytes _ _ _ _ (512 * ((8 : UInt32) + 34 - 34).toNat + _) else _) = _
    rw [if_pos (by omega), sector, strayBytes, at', putWord_other _ _ _ (by omega),
      ← Nat.add_assoc, ← Nat.add_assoc]
  · refine Eq.trans (le32_congr ?_) (le32_putWord (fun _ => 0) (32 * group + 8) stray)
    intro d small
    change (if _ < 4096 then _ else putWord _ (32 * (_ / _) + 8) _ _) = _
    rw [if_neg (by omega), at']

theorem firstTable_exists (sb : Buffer) :
    ∃ table : UInt32, table.toNat = 1024 / (superblockOf sb).blockSize.toNat + 2 := by
  have small := Nat.div_le_self 1024 (superblockOf sb).blockSize.toNat
  exact ⟨UInt32.ofNat (1024 / (superblockOf sb).blockSize.toNat + 2),
    UInt32.toNat_ofNat_of_lt' (by simp only [UInt32.size]; omega)⟩

theorem stray_inode_none {k : Kernel} {node : NodePtr} (vnode : NodePtr) {size : UInt32}
    (proper : (superblockOf sb).Proper) (attached : Attached k node size)
    (large : 16 ≤ size.toNat) (part : size.toNat + 34 ≤ 2 ^ 32)
    (first : 1 ≤ (k.node vnode).inode.toNat)
    (other : ¬ ((superblockOf sb).blockSize.toNat = 4096 ∧
      ((k.node vnode).inode.toNat - 1) / (superblockOf sb).groupInodeCount.toNat < 128))
    (depth : Nat) :
    ∃ vol bytes, Formatted vol bytes sb size (k.node vnode).inode.toNat ∧
      vol.kept.getInode vol (getnode vol depth) vnode k = none := by
  generalize number : (k.node vnode).inode = inodeNo at *
  obtain ⟨table, start⟩ := firstTable_exists sb
  let further := (inodeNo - 1) % (superblockOf sb).groupInodeCount /
    ((superblockOf sb).blockSize / (superblockOf sb).inodeSize)
  let stray := UInt32.ofNat (size.toNat / 8) - further
  have formatted := stray_formatted proper size inodeNo table stray part start
  refine ⟨_, _, formatted, ?_⟩
  have declared := formatted.kept_superblock large
  have sector : ((strayVolume sb inodeNo.toNat table stray).kept.inodeSector inodeNo).toNat =
      size.toNat / 8 * 8 := by
    rw [Mounted.inodeSector, Mounted.inodeTable, Mounted.blockGroup, Mounted.index,
      Mounted.inodesPerBlock, declared, UInt32.toNat_div, toNat_pred first,
      stray_taken proper table stray other]
    have sum : stray + further = UInt32.ofNat (size.toNat / 8) := UInt32.sub_add_cancel ..
    rw [sum, UInt32.toNat_mul, UInt32.toNat_ofNat_of_lt' (by simp only [UInt32.size]; omega),
      show BLOCK_FACTOR.toNat = 8 from rfl]
    omega
  apply Mounted.getInode_none
  rw [number]
  exact blockAt_outside attached (by omega) (by omega) (by omega)

end Astray

/-- A superblock of 64 inodes of 128 bytes in one group, 512 blocks of `1024 * 2 ^ log`
bytes. -/
def smallSuperblock (log : UInt8) : Buffer := fun i =>
  [(0, 64), (5, 2), (24, log), (33, 128), (40, 64), (56, 0x53), (57, 0xef), (88, 128)].lookup i
    |>.getD (0 : UInt8)

theorem smallSuperblock_proper (log : UInt8) (small : log = 0 ∨ log = 2) :
    (superblockOf (smallSuperblock log)).Proper := by
  rcases small with rfl | rfl
  · exact ⟨by decide, by decide, ⟨0, by decide⟩, by decide, by decide, by decide⟩
  · exact ⟨by decide, by decide, ⟨2, by decide⟩, by decide, by decide, by decide⟩

theorem mounted_attached : Attached mounted (.dirent 1 0) 4096 := ⟨by decide, rfl, rfl⟩

theorem mounted_enough : ((1, tablePage mounted + 3) : Int × Int) ≤ room mounted := by
  have free : freePages mounted = 1020 := freeSlots_from HEAP_PAGES 4
  have page : tablePage mounted = 1 := rfl
  have fds : freeFds mounted = 8 := rfl
  rw [le_room, free, page, fds]
  decide

end TitorOS.Barrel.Vfs
