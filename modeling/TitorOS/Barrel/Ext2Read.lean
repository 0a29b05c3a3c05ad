import TitorOS.Barrel.Volume

/-! Reads of ext2 files: `read` of `kernel/vfs.c` down to `ext2_read`, against the file that the
inode's block pointers describe. -/

namespace TitorOS.Barrel.Vfs

open TitorOS.Lib

abbrev Memory := UInt32 → UInt8

def transfer (memory : Memory) (buf : UInt32) (length : Nat) (data : Nat → UInt8) : Memory :=
  fun address =>
    if (address - buf).toNat < length then data (address - buf).toNat else memory address

/-- The bytes on the disk from a sector on. -/
def diskBytes (vol : Volume) (lba : UInt32) (i : Nat) : UInt8 :=
  vol.disk (lba + UInt32.ofNat (i / 4096) * BLOCK_FACTOR) (i % 4096)

/-- `read` on the device's descriptor, with the sectors it transfers. -/
def readSectors (vol : Volume) (volume : Nat) (buf count : UInt32) (memory : Memory) :
    Op Memory := do
  let k ← get
  match k.fds with
  | none => failure
  | some table =>
      let fd := table volume
      match readDevice (fun i => if i = 5 then vol.part else 0) fd (k.node fd.node) count with
      | some (.nvmeRead noBlocks lba) =>
          return transfer memory buf (noBlocks.toNat * 512) (diskBytes vol lba)
      | _ => failure

def blocksFor (count : UInt32) : UInt32 :=
  if count % 4096 = 0 then count / 4096 else count / 4096 + 1

def ext2Read (vol : Volume) (getnode : List Char → Op NodePtr) (buf count _position : UInt32)
    (vnode : NodePtr) (memory : Memory) : Op Memory := do
  let (inodePage, inode) ← getInode vol getnode vnode
  let volume ← open_ getnode volumePath 1
  seek volume (inode.blockPointer * BLOCK_FACTOR) 0
  let memory ← readSectors vol volume buf (blocksFor count * BLOCK_FACTOR) memory
  close volume
  kfree inodePage
  return memory

/-- `read` on a descriptor of an ext2 file or of the device; tmpfs has no part in it. -/
def readFile (vol : Volume) (getnode : List Char → Op NodePtr) (fd : Nat) (buf count : UInt32)
    (memory : Memory) : Op Memory := do
  let k ← get
  match k.fds with
  | none => failure
  | some table =>
      match TitorOS.Barrel.read (table fd) (k.node (table fd).node) count with
      | some (.ext2Read, count, position) =>
          ext2Read vol getnode buf count position (table fd).node memory
      | some (.devRead, _, _) => readSectors vol fd buf count memory
      | _ => failure

def inodeBytes (vol : Volume) (inodeNo : UInt32) (table : Buffer) : Buffer :=
  let index := (inodeNo - 1) % vol.groupInodeCount
  let base := (index % (4096 / vol.inodeSize) * vol.inodeSize).toNat
  fun i => table (base + i)

/-- An entry of a block of block numbers; a number of 0 is a hole. -/
def pointed (vol : Volume) (block : UInt32) (i : Nat) : UInt32 :=
  if block = 0 then 0 else le32 (vol.disk (block * BLOCK_FACTOR + vol.part)) (4 * i)

/-- The block that holds part `b` of a file: one of the twelve of the inode, or one found
through a single, double or triple indirect block of 1024 numbers each. -/
def fileBlock (vol : Volume) (inode : Buffer) (b : Nat) : UInt32 :=
  if b < 12 then le32 inode (40 + 4 * b)
  else if b < 12 + 1024 then pointed vol (le32 inode 88) (b - 12)
  else if b < 12 + 1024 + 1024 ^ 2 then
    let r := b - 12 - 1024
    pointed vol (pointed vol (le32 inode 92) (r / 1024)) (r % 1024)
  else
    let r := b - 12 - 1024 - 1024 ^ 2
    pointed vol (pointed vol (pointed vol (le32 inode 96) (r / 1024 ^ 2)) (r / 1024 % 1024))
      (r % 1024)

def fileByte (vol : Volume) (inode : Buffer) (position : Nat) : UInt8 :=
  let block := fileBlock vol inode (position / 4096)
  if block = 0 then 0 else vol.disk (block * BLOCK_FACTOR + vol.part) (position % 4096)

/-- The size of a regular file, with its upper half. -/
def fileSize (inode : Buffer) : Nat := (le32 inode 4).toNat + 2 ^ 32 * (le32 inode 108).toNat

section Read

variable {vol : Volume} {k : Kernel} {device vnode : NodePtr}

theorem findName_name {dirents : Nat → Vnode} {part : List Char} {tries i slot : Nat}
    (found : findName dirents part tries i = some slot) : (dirents slot).name = part := by
  induction tries generalizing i with
  | zero => cases found
  | succ tries ih =>
      rw [findName] at found
      split at found
      · rename_i here
        cases found
        exact here
      · split at found
        · cases found
        · exact ih found

theorem childNode_name {node : NodePtr} {part : List Char}
    (found : childNode k vnode part = some node) : (k.node node).name = part := by
  rw [childNode] at found
  split at found
  · cases found
  · rcases Option.map_eq_some_iff.mp found with ⟨slot, there, rfl⟩
    exact findName_name there

theorem volumeNode_name (found : volumeNode k = some device) :
    (k.node device).name = "nvme5".toList := by
  rcases Option.bind_eq_some_iff.mp found with ⟨dev, _, second⟩
  exact childNode_name second

/-- The check of `read` against the size of the node. -/
def InSize (node : Vnode) (position count : UInt32) : Prop :=
  position + count ≤ node.size ∨ node.size = 0

theorem read_eq_some {fd : Fd} {node : Vnode} {count : UInt32} (readable : fd.mode &&& 1 ≠ 0)
    (inSize : InSize node fd.position count) :
    TitorOS.Barrel.read fd node count =
      node.fs.read.map fun func => (func, count, fd.position) := by
  have opened : fd.mode ≠ 0 := by
    intro closed
    rw [closed] at readable
    exact readable rfl
  have passed : ¬ (fd.position + count > node.size ∧ node.size ≠ 0) := by
    intro ⟨exceeds, sized⟩
    rcases inSize with within | unsized
    · exact UInt32.not_lt.mpr within exceeds
    · exact sized unsized
  rw [TitorOS.Barrel.read, if_neg opened, if_neg readable, if_neg passed]

theorem read_eq_none {fd : Fd} {node : Vnode} {count : UInt32}
    (outside : ¬ InSize node fd.position count) : TitorOS.Barrel.read fd node count = none := by
  have exceeds : fd.position + count > node.size ∧ node.size ≠ 0 := by
    rw [InSize, not_or] at outside
    exact ⟨UInt32.not_le.mp outside.1, outside.2⟩
  rw [TitorOS.Barrel.read, if_pos exceeds]
  split
  · rfl
  · split
    · rfl
    · rfl

theorem readDevice_some {fd : Fd} {node : Vnode} {count : UInt32} (readable : fd.mode &&& 1 ≠ 0)
    (inSize : InSize node fd.position count) (devfs : node.fs = .devfs)
    (named : node.name = "nvme5".toList) (parts : Nat → UInt32) :
    readDevice parts fd node count = some (.nvmeRead count (fd.position + parts 5)) := by
  have other (name : List Char) (unequal : "nvme5".toList ≠ name) : node.name ≠ name :=
    fun same => unequal (named.symm.trans same)
  have func : node.fs.read = some .devRead := congrArg Fs.read devfs
  rw [readDevice, read_eq_some readable inSize, func]
  change devRead parts count fd.position node = _
  rw [devRead, if_neg (other _ (by decide)), if_neg (other _ (by decide)), if_pos named]

theorem readDevice_none {fd : Fd} {node : Vnode} {count : UInt32}
    (outside : ¬ InSize node fd.position count) (parts : Nat → UInt32) :
    readDevice parts fd node count = none := by
  rw [readDevice, read_eq_none outside]
  rfl

theorem readSectors_some {table : Nat → Fd} (fds : k.fds = some table) {volume : Nat}
    {sector buf count : UInt32} {memory : Memory} (entry : table volume = ⟨device, 1, sector⟩)
    (devfs : (k.node device).fs = .devfs) (named : (k.node device).name = "nvme5".toList)
    (inSize : InSize (k.node device) sector count) :
    readSectors vol volume buf count memory k =
      some (transfer memory buf (count.toNat * 512) (diskBytes vol (sector + vol.part)), k) := by
  rw [readSectors, get_bind]
  simp only [fds, entry]
  rw [readDevice_some (by exact (by decide : (1 : UInt8) &&& 1 ≠ 0)) inSize devfs named]
  rfl

theorem readSectors_none {table : Nat → Fd} (fds : k.fds = some table) {volume : Nat}
    {sector buf count : UInt32} {memory : Memory} (entry : table volume = ⟨device, 1, sector⟩)
    (outside : ¬ InSize (k.node device) sector count) :
    readSectors vol volume buf count memory k = none := by
  rw [readSectors, get_bind]
  simp only [fds, entry]
  rw [readDevice_none outside]
  rfl

variable {inode : Inode} {inodeBlock : Buffer} {buf count position : UInt32} {memory : Memory}

theorem ext2Read_costs (buf position : UInt32) (memory : Memory)
    (found : volumeNode k = some device) (devfs : (k.node device).fs = .devfs)
    (depth : Nat) (table : k.fds = some k.table)
    (loaded : blockAt vol k (inodeSector vol (k.node vnode).inode) = some inodeBlock)
    (same_inode : inodeIn vol (k.node vnode).inode inodeBlock = inode)
    (inSize : InSize (k.node device) (inode.blockPointer * BLOCK_FACTOR)
      (blocksFor count * BLOCK_FACTOR)) :
    Costs room (ext2Read vol (getnode vol (depth + 1)) buf count position vnode memory) k (1, 3) 0
      fun result _ => result = transfer memory buf ((blocksFor count * BLOCK_FACTOR).toNat * 512)
        (diskBytes vol (inode.blockPointer * BLOCK_FACTOR + vol.part)) := by
  have first := getInode_costs found depth loaded
  rw [tablePage_some table] at first
  refine (Costs.bind (1, 2) (0, -1) first ?_).cast rfl rfl
  intro (inodePage, result) k₁ ⟨same_result, inodeRead⟩ _
  rw [same_inode] at same_result
  simp only at same_result
  subst same_result
  have there := (volumeNode_congr inodeRead.root inodeRead.pages).trans found
  have none₁ := tablePage_some inodeRead.fds
  refine (Costs.bind 0 (-1, -1) (open_volume_costs there depth) ?_).cast (by rw [none₁]; rfl)
    (by rw [none₁]; rfl)
  intro volume k₂ opened _
  refine (Costs.bind 0 (-1, -1) (seek_costs opened.fds volume _) ?_).cast rfl rfl
  intro _ k₃ same₃ _
  rw [Function.update_self, Function.update_idem] at same₃
  have quiet₃ : Quiet k₂ k₃ := by
    rw [same₃]
    exact ⟨rfl, rfl, fun _ => id⟩
  have quiet := (inodeRead.toQuiet.trans opened.toQuiet).trans quiet₃
  have node := Kernel.node_congr quiet.root quiet.pages device
  have fds₃ : k₃.fds = some (Function.update k₁.table volume
      ⟨device, 1, result.blockPointer * BLOCK_FACTOR⟩) := by rw [same₃]
  have ran : readSectors vol volume buf (blocksFor count * BLOCK_FACTOR) memory k₃ = _ :=
    readSectors_some fds₃ (Function.update_self ..) (node ▸ devfs) (node ▸ volumeNode_name found)
      (node ▸ inSize)
  refine Costs.congr ?_ (bind_run ran)
  have used : ((Function.update k₁.table volume
      (⟨device, 1, result.blockPointer * BLOCK_FACTOR⟩ : Fd)) volume).mode ≠ 0 := by
    rw [Function.update_self]
    exact (by decide : (1 : UInt8) ≠ 0)
  refine (Costs.bind 0 (0, -1) (close_costs fds₃ opened.small used) ?_).cast rfl rfl
  intro _ k₄ same₄ _
  have taken : k₄.heap inodePage = true := by
    rw [same₄]
    exact quiet₃.heap _ (opened.heap _ inodeRead.taken)
  refine (Costs.bind 0 0 (kfree_costs inodeRead.small taken) ?_).cast rfl rfl
  intro _ k₅ _ _
  exact Costs.pure (room_nonneg k₅) rfl

theorem ext2Read_ran {depth : Nat} {result : Memory} {k' : Kernel}
    (found : volumeNode k = some device)
    (loaded : blockAt vol k (inodeSector vol (k.node vnode).inode) = some inodeBlock)
    (same_inode : inodeIn vol (k.node vnode).inode inodeBlock = inode)
    (ran : ext2Read vol (getnode vol (depth + 1)) buf count position vnode memory k =
      some (result, k')) :
    InSize (k.node device) (inode.blockPointer * BLOCK_FACTOR)
      (blocksFor count * BLOCK_FACTOR) := by
  rw [ext2Read] at ran
  rcases bind_some ran with ⟨⟨inodePage, inode'⟩, k₁, first, steps⟩
  rcases (getInode_costs found depth loaded).of_some first with ⟨_, _, same_result, inodeRead⟩
  rw [same_inode] at same_result
  simp only at same_result
  subst same_result
  have there := (volumeNode_congr inodeRead.root inodeRead.pages).trans found
  rcases bind_some steps with ⟨volume, k₂, second, steps⟩
  rcases (open_volume_costs there depth).of_some second with ⟨_, _, opened⟩
  rcases bind_some steps with ⟨_, k₃, third, steps⟩
  rcases (seek_costs opened.fds volume _).of_some third with ⟨_, _, same₃⟩
  rw [Function.update_self, Function.update_idem] at same₃
  rcases bind_some steps with ⟨_, k₄, fourth, _⟩
  have node : k₃.node device = k.node device := by
    rw [same₃]
    exact Kernel.node_congr (opened.root.trans inodeRead.root)
      (opened.pages.trans inodeRead.pages) device
  by_contra outside
  rw [readSectors_none (by rw [same₃]) (Function.update_self ..) (node ▸ outside)] at fourth
  cases fourth

theorem blocksFor_length (count : UInt32) :
    (blocksFor count * BLOCK_FACTOR).toNat * 512 = (count.toNat + 4095) / 4096 * 4096 := by
  have bound := count.toNat_lt
  have factor : BLOCK_FACTOR.toNat = 8 := rfl
  have rest : count % 4096 = 0 ↔ count.toNat % 4096 = 0 := by
    rw [← UInt32.toNat_inj, UInt32.toNat_mod]
    rfl
  rw [UInt32.toNat_mul, factor, blocksFor]
  by_cases whole : count.toNat % 4096 = 0
  · rw [if_pos (rest.mpr whole), UInt32.toNat_div, show (4096 : UInt32).toNat = 4096 from rfl]
    omega
  · rw [if_neg (whole ∘ rest.mp), UInt32.toNat_add, UInt32.toNat_div,
      show (4096 : UInt32).toNat = 4096 from rfl, show (1 : UInt32).toNat = 1 from rfl]
    omega

/-- `seek` and `read` as a program calls them. -/
def seekRead (vol : Volume) (getnode : List Char → Op NodePtr) (fd : Nat)
    (position count buf : UInt32) (memory : Memory) : Op Memory := do
  seek fd position 0
  readFile vol getnode fd buf count memory

def Delivered (buf count : UInt32) (bytes : Nat → UInt8) (memory result : Memory) : Prop :=
  ∀ address, result address =
    if (address - buf).toNat < count.toNat then bytes (address - buf).toNat else memory address

theorem offset_toNat (buf : UInt32) {i : Nat} (small : i < 2 ^ 32) :
    (buf + UInt32.ofNat i - buf).toNat = i := by
  rw [UInt32.add_comm, UInt32.add_sub_cancel, UInt32.toNat_ofNat_of_lt' small]

theorem transfer_delivered_iff (data bytes : Nat → UInt8) (buf count : UInt32) (memory : Memory)
    {length : Nat} (covers : count.toNat ≤ length) :
    Delivered buf count bytes memory (transfer memory buf length data) ↔
      (∀ i < count.toNat, data i = bytes i) ∧
        ∀ i, count.toNat ≤ i → i < length → i < 2 ^ 32 → memory (buf + UInt32.ofNat i) = data i := by
  have bound := count.toNat_lt
  constructor
  · intro delivered
    refine ⟨?_, ?_⟩
    · intro i inside
      have there := delivered (buf + UInt32.ofNat i)
      rw [transfer, offset_toNat buf (by omega), if_pos (by omega), if_pos inside] at there
      exact there
    · intro i above below small
      have there := delivered (buf + UInt32.ofNat i)
      rw [transfer, offset_toNat buf small, if_pos below, if_neg (by omega)] at there
      exact there.symm
  · intro ⟨inside, outside⟩ address
    have small := (address - buf).toNat_lt
    have back : buf + UInt32.ofNat (address - buf).toNat = address := by
      rw [UInt32.ofNat_toNat, UInt32.add_comm, UInt32.sub_add_cancel]
    rw [transfer]
    by_cases within : (address - buf).toNat < count.toNat
    · rw [if_pos within, if_pos (by omega), inside _ within]
    · rw [if_neg within]
      split
      · rename_i below
        rw [← outside _ (by omega) below small, back]
      · rfl

theorem seekRead_eq (getnode : List Char → Op NodePtr) {fd : Nat} (table : k.fds = some k.table) :
    seekRead vol getnode fd position count buf memory k =
      readFile vol getnode fd buf count memory
        { k with fds := some (Function.update k.table fd
          { k.table fd with position := position }) } := by
  have ran : seek fd position 0 k = some ((), { k with fds := some (Function.update k.table fd
      { k.table fd with position := position }) }) := by
    rw [seek, get_bind]
    simp only [table]
    rfl
  exact bind_run ran

theorem readFile_ext2 (getnode : List Char → Op NodePtr) {fd : Nat} (table : k.fds = some k.table)
    (readable : (k.table fd).mode &&& 1 ≠ 0) (ext2 : (k.node (k.table fd).node).fs = .ext2fs)
    (inSize : InSize (k.node (k.table fd).node) (k.table fd).position count) :
    readFile vol getnode fd buf count memory k =
      ext2Read vol getnode buf count (k.table fd).position (k.table fd).node memory k := by
  have func : (k.node (k.table fd).node).fs.read = some .ext2Read := congrArg Fs.read ext2
  rw [readFile, get_bind]
  simp only [table]
  rw [read_eq_some readable inSize, func]
  rfl

theorem readFile_none (getnode : List Char → Op NodePtr) {fd : Nat} (table : k.fds = some k.table)
    (outside : ¬ InSize (k.node (k.table fd).node) (k.table fd).position count) :
    readFile vol getnode fd buf count memory k = none := by
  rw [readFile, get_bind]
  simp only [table]
  rw [read_eq_none outside]
  rfl

/-- Where a program finds itself that has an ext2 file open. -/
structure FileOpen (vol : Volume) (k : Kernel) (device : NodePtr) (fd : Nat) (inodeBlock : Buffer) :
    Prop where
  table : k.fds = some k.table
  readable : (k.table fd).mode &&& 1 ≠ 0
  ext2 : (k.node (k.table fd).node).fs = .ext2fs
  found : volumeNode k = some device
  devfs : (k.node device).fs = .devfs
  loaded : blockAt vol k (inodeSector vol (k.node (k.table fd).node).inode) = some inodeBlock

theorem FileOpen.seek {fd : Nat} (opened : FileOpen vol k device fd inodeBlock)
    (position : UInt32) {k₁ : Kernel}
    (moved : { k with fds := some (Function.update k.table fd
      { k.table fd with position := position }) } = k₁) :
    FileOpen vol k₁ device fd inodeBlock ∧ room k₁ = room k ∧
      k₁.node (k₁.table fd).node = k.node (k.table fd).node ∧
        k₁.node device = k.node device ∧ (k₁.table fd).position = position := by
  have root : k₁.root = k.root := by rw [← moved]
  have pages : k₁.pages = k.pages := by rw [← moved]
  have node := Kernel.node_congr root pages
  have entry : k₁.table fd = { k.table fd with position := position } := by
    rw [← moved]
    exact Function.update_self ..
  have file : k₁.node (k₁.table fd).node = k.node (k.table fd).node := by rw [node, entry]
  refine ⟨?_, ?_, file, node device, by rw [entry]⟩
  · constructor
    case table =>
      rw [← moved]
      rfl
    case readable =>
      rw [entry]
      exact opened.readable
    case ext2 => rw [file, opened.ext2]
    case found => rw [volumeNode_congr root pages, opened.found]
    case devfs => rw [node, opened.devfs]
    case loaded => rw [blockAt_congr root pages, file, opened.loaded]
  · rcases (seek_costs opened.table fd position).enough (room_nonneg k) with
      ⟨_, k₂, _, left, same⟩
    rw [← moved, ← same, left, sub_zero]

/-- The sector that every read of a file starts at. -/
def firstSector (vol : Volume) (file : Vnode) (inodeBlock : Buffer) : UInt32 :=
  (inodeIn vol file.inode inodeBlock).blockPointer * BLOCK_FACTOR

theorem seekRead_ran {depth fd : Nat} {result : Memory} {k' : Kernel}
    (opened : FileOpen vol k device fd inodeBlock)
    (ran : seekRead vol (getnode vol (depth + 1)) fd position count buf memory k =
      some (result, k')) :
    InSize (k.node (k.table fd).node) position count ∧
      InSize (k.node device) (firstSector vol (k.node (k.table fd).node) inodeBlock)
        (blocksFor count * BLOCK_FACTOR) ∧
      (1, 3) ≤ room k ∧
      result = transfer memory buf ((count.toNat + 4095) / 4096 * 4096)
        (diskBytes vol (firstSector vol (k.node (k.table fd).node) inodeBlock + vol.part)) := by
  rw [seekRead_eq _ opened.table] at ran
  generalize moved : ({ k with fds := some (Function.update k.table fd
    { k.table fd with position := position }) } : Kernel) = k₁ at ran
  rcases opened.seek position moved with ⟨opened₁, level, file, node, place⟩
  by_cases inSize : InSize (k.node (k.table fd).node) position count
  · rw [readFile_ext2 _ opened₁.table opened₁.readable opened₁.ext2
      (by rw [file, place]; exact inSize)] at ran
    have onDevice := ext2Read_ran opened₁.found opened₁.loaded rfl ran
    rcases (ext2Read_costs buf (k₁.table fd).position memory opened₁.found opened₁.devfs depth
      opened₁.table opened₁.loaded rfl onDevice).of_some ran with ⟨enough, _, same⟩
    rw [file, node] at onDevice
    rw [file, blocksFor_length] at same
    exact ⟨inSize, onDevice, level ▸ enough, same⟩
  · rw [readFile_none _ opened₁.table (by rw [file, place]; exact inSize)] at ran
    cases ran

theorem seekRead_some {fd : Nat} (depth : Nat) (buf : UInt32) (memory : Memory)
    (opened : FileOpen vol k device fd inodeBlock)
    (inSize : InSize (k.node (k.table fd).node) position count)
    (onDevice : InSize (k.node device) (firstSector vol (k.node (k.table fd).node) inodeBlock)
      (blocksFor count * BLOCK_FACTOR)) (enough : (1, 3) ≤ room k) :
    ∃ k', seekRead vol (getnode vol (depth + 1)) fd position count buf memory k =
      some (transfer memory buf ((count.toNat + 4095) / 4096 * 4096)
        (diskBytes vol (firstSector vol (k.node (k.table fd).node) inodeBlock + vol.part)), k') := by
  rw [seekRead_eq _ opened.table]
  generalize moved : ({ k with fds := some (Function.update k.table fd
    { k.table fd with position := position }) } : Kernel) = k₁
  rcases opened.seek position moved with ⟨opened₁, level, file, node, place⟩
  rw [readFile_ext2 _ opened₁.table opened₁.readable opened₁.ext2
    (by rw [file, place]; exact inSize)]
  rcases (ext2Read_costs buf (k₁.table fd).position memory opened₁.found opened₁.devfs depth
    opened₁.table opened₁.loaded rfl (by rw [file, node]; exact onDevice)).enough
    (level ▸ enough) with ⟨result, k', ran, _, same⟩
  rw [same, file, blocksFor_length] at ran
  exact ⟨k', ran⟩

/-- When what `ext2_read` transfers, the whole blocks that follow the file's first on the
disk, is what was asked for. -/
structure ReadsRun (vol : Volume) (k : Kernel) (file device : Vnode) (inodeBlock : Buffer)
    (position count buf : UInt32) (memory : Memory) : Prop where
  inFile : InSize file position count
  onDevice : InSize device (firstSector vol file inodeBlock) (blocksFor count * BLOCK_FACTOR)
  bytes : ∀ i < count.toNat, diskBytes vol (firstSector vol file inodeBlock + vol.part) i =
    fileByte vol (inodeBytes vol file.inode inodeBlock) (position.toNat + i)
  beyond : ∀ i, count.toNat ≤ i → i < (count.toNat + 4095) / 4096 * 4096 → i < 2 ^ 32 →
    memory (buf + UInt32.ofNat i) =
      diskBytes vol (firstSector vol file inodeBlock + vol.part) i
  enough : (1, 3) ≤ room k

/-- For every descriptor of an ext2 file, every position and count: `seek` and `read` deliver
exactly the file's bytes from the position on if and only if these are the bytes of the run of
whole blocks that starts with the file's first, and the bytes of that run beyond the count are
what the memory behind the buffer held already. -/
theorem seekRead_delivers_iff (vol : Volume) (k : Kernel) (device : NodePtr) (depth fd : Nat)
    (inodeBlock : Buffer) (position count buf : UInt32) (memory : Memory)
    (opened : FileOpen vol k device fd inodeBlock) :
    (∃ result k', seekRead vol (getnode vol (depth + 1)) fd position count buf memory k =
        some (result, k') ∧
      Delivered buf count (fun i => fileByte vol
        (inodeBytes vol (k.node (k.table fd).node).inode inodeBlock) (position.toNat + i))
        memory result) ↔
      ReadsRun vol k (k.node (k.table fd).node) (k.node device) inodeBlock position count buf
        memory := by
  have covers : count.toNat ≤ (count.toNat + 4095) / 4096 * 4096 := by omega
  constructor
  · intro ⟨result, k', ran, delivered⟩
    rcases seekRead_ran opened ran with ⟨inSize, onDevice, enough, same⟩
    rw [same, transfer_delivered_iff _ _ _ _ _ covers] at delivered
    exact ⟨inSize, onDevice, delivered.1, delivered.2, enough⟩
  · intro run
    rcases seekRead_some depth buf memory opened run.inFile run.onDevice run.enough with ⟨k', ran⟩
    refine ⟨_, k', ran, ?_⟩
    rw [transfer_delivered_iff _ _ _ _ _ covers]
    exact ⟨run.bytes, run.beyond⟩

end Read

/-- Inode 12 is a file of the two blocks 20 and 21, which start with 65 and with 66. -/
def fileVolume : Volume where
  groupInodeCount := 32
  inodeSize := 128
  inodeTable _ := 4
  part := 2048
  disk lba :=
    if lba = 2080 then fun i =>
      if i = 1413 then 32 else if i = 1448 then 20 else if i = 1452 then 21 else 0
    else if lba = 2208 then fun i => if i = 0 then 65 else 0
    else if lba = 2216 then fun i => if i = 0 then 66 else 0
    else fun _ => 0
  groups := inode_groups
  sized := small_inodes

def fileMounted : Kernel :=
  { mounted with
    pages := fun page slot =>
      if page = 3 ∧ slot = 0 then ⟨"f".toList, 0, 8192, .ext2fs, 12, 0, 4⟩
      else mounted.pages page slot
    heap := .low 6
    fds := some fun i => if i = 0 then ⟨.dirent 3 0, 1, 0⟩ else ⟨.root, 0, 0⟩ }

theorem fileMounted_open :
    FileOpen fileVolume fileMounted (.dirent 1 0) 0 (fileVolume.disk 2080) where
  table := rfl
  readable := by decide
  ext2 := rfl
  found := by decide
  devfs := rfl
  loaded := rfl

theorem fileMounted_room : (1, 3) ≤ room fileMounted := by
  have free : freePages fileMounted = 1018 := freeSlots_from HEAP_PAGES 6
  rw [le_room, free]
  decide

theorem fileMounted_first_block :
    FileOpen fileVolume fileMounted (.dirent 1 0) 0 (fileVolume.disk 2080) ∧
      ∃ result k', seekRead fileVolume (getnode fileVolume 1) 0 0 4096 0x40000000 (fun _ => 0)
          fileMounted = some (result, k') ∧
        Delivered 0x40000000 4096 (fun i => fileByte fileVolume
          (inodeBytes fileVolume 12 (fileVolume.disk 2080)) ((0 : UInt32).toNat + i))
          (fun _ => 0) result := by
  refine ⟨fileMounted_open, (seekRead_delivers_iff fileVolume fileMounted (.dirent 1 0) 0 0
    (fileVolume.disk 2080) 0 4096 0x40000000 (fun _ => 0) fileMounted_open).mpr ?_⟩
  refine ⟨.inl (by decide), .inl (by decide), ?_, ?_, fileMounted_room⟩
  · intro i small
    have inBlock : i < 4096 := small
    have first : ((0 : UInt32).toNat + i) / 4096 = 0 := by
      rw [show (0 : UInt32).toNat = 0 from rfl]
      omega
    have same : ((0 : UInt32).toNat + i) % 4096 = i % 4096 := by
      rw [show (0 : UInt32).toNat = 0 from rfl, Nat.zero_add]
    rw [diskBytes, Nat.div_eq_of_lt inBlock, fileByte, first, same]
    rfl
  · intro i above below _
    have whole : ((4096 : UInt32).toNat + 4095) / 4096 * 4096 = (4096 : UInt32).toNat := by decide
    rw [whole] at below
    exact absurd below (Nat.not_lt.mpr above)

theorem second_block_misread :
    ¬ ∀ (vol : Volume) (k : Kernel) (device : NodePtr) (depth fd : Nat) (inodeBlock : Buffer)
      (position count buf : UInt32) (memory : Memory),
      FileOpen vol k device fd inodeBlock →
      (k.node (k.table fd).node).size =
        le32 (inodeBytes vol (k.node (k.table fd).node).inode inodeBlock) 4 →
      position.toNat + count.toNat ≤
        fileSize (inodeBytes vol (k.node (k.table fd).node).inode inodeBlock) →
        ∃ result k', seekRead vol (getnode vol (depth + 1)) fd position count buf memory k =
            some (result, k') ∧
          Delivered buf count (fun i => fileByte vol
            (inodeBytes vol (k.node (k.table fd).node).inode inodeBlock) (position.toNat + i))
            memory result := by
  intro claim
  rcases claim fileVolume fileMounted (.dirent 1 0) 0 0 (fileVolume.disk 2080) 4096 4096 0x40000000
    (fun _ => 0) fileMounted_open rfl (by decide) with ⟨result, k', ran, delivered⟩
  rcases seekRead_ran fileMounted_open ran with ⟨_, _, _, same⟩
  have byte := delivered 0x40000000
  rw [same] at byte
  exact absurd byte (by decide)

end TitorOS.Barrel.Vfs
