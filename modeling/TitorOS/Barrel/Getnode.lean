import TitorOS.Lib.Search
import TitorOS.Lib.Slots
import TitorOS.Barrel.Devfs
import TitorOS.Barrel.Kheap

/-! `getnode` of `kernel/vfs.c` with what it calls: `strtok`, the descriptor functions it
is entered through again, and the ext2 driver's `ext2_enum` and `get_inode`. `none` is a
panic, a hang, or an access past the end of a page. Strings and disk blocks are carried as
values; the pages they lie in are counted on the heap. -/

namespace TitorOS.Barrel.Vfs

open TitorOS.Lib

def NUL : Char := Char.ofNat 0

/-- The string that starts at a pointer. -/
def cstr (text : List Char) : List Char := text.takeWhile (· ≠ NUL)

/-- `strtok` with a string: what lies from `token` to `str_end`, the delimiters gone. -/
def strtok (str : List Char) : Option (List Char) :=
  match (str.map fun c => if c = '/' then NUL else c).dropWhile (· = NUL) with
  | [] => none
  | token => some token

/-- `strtok` with NULL. -/
def strtokNext : Option (List Char) → Option (List Char)
  | none => none
  | some token =>
      match (token.drop ((cstr token).length + 1)).dropWhile (· = NUL) with
      | [] => none
      | token => some token

/-- An ext2 file system of 4 KiB blocks on partition 5, with what `ext2_mount` keeps of it.
`disk` is the eight sectors from a sector on. -/
structure Volume where
  groupInodeCount : UInt32
  inodeSize : UInt32
  inodeTable : UInt32 → UInt32
  part : UInt32
  disk : UInt32 → Buffer
  groups : groupInodeCount ≠ 0
  sized : 128 ≤ inodeSize ∧ inodeSize ≤ 4096

theorem one_inode_groups : (1 : UInt32) ≠ 0 := by decide

theorem inode_groups : (32 : UInt32) ≠ 0 := by decide

theorem small_inodes : (128 : UInt32) ≤ 128 ∧ (128 : UInt32) ≤ 4096 := by decide

def BLOCK_FACTOR : UInt32 := 8
def FD_TABLE_SIZE : Nat := 8
def DIRENT_SLOTS : Nat := 68
def DIRECTORY : UInt32 := 0x80000000

/-- `pages` are the heap pages that hold dirents; `fds` the table of the active process;
`token` the static of `strtok`. -/
structure Kernel where
  root : Vnode
  pages : Nat → Nat → Vnode
  heap : Kheap
  fds : Option (Nat → Fd)
  token : Option (List Char)

abbrev Op := StateT Kernel Option

def Kernel.node (k : Kernel) : NodePtr → Vnode
  | .root => k.root
  | .dirent page slot => k.pages page slot

def Kernel.setNode (k : Kernel) (p : NodePtr) (f : Vnode → Vnode) : Kernel :=
  match p with
  | .root => { k with root := f k.root }
  | .dirent page slot =>
      let dirents := Function.update (k.pages page) slot (f (k.pages page slot))
      { k with pages := Function.update k.pages page dirents }

def blankNode : Vnode := ⟨[], 0, 0, .tmpfs, 0, 0, 0⟩

def kmalloc : Op Nat := fun k =>
  (TitorOS.Barrel.kmalloc k.heap).map fun (page, heap) => (page, { k with heap := heap })

def kfree (page : Nat) : Op Unit :=
  modify fun k => { k with heap := TitorOS.Barrel.kfree k.heap page }

def memCopy : Op Unit := fun k =>
  (TitorOS.Barrel.memCopy k.heap).map fun heap => ((), { k with heap := heap })

def modeUsed (table : Nat → Fd) (i : Nat) : Bool := (table i).mode ≠ 0

def open_ (getnode : List Char → Op NodePtr) (path : List Char) (mode : UInt8) : Op Nat := do
  let k ← get
  if k.fds.isNone then
    let _ ← kmalloc
    modify fun k => { k with fds := some fun _ => ⟨.root, 0, 0⟩ }
  let vnode ← getnode path
  let k ← get
  match k.fds with
  | none => failure
  | some table =>
      match firstFree FD_TABLE_SIZE (modeUsed table) with
      | none => failure
      | some i =>
          set { k with fds := some (Function.update table i ⟨vnode, mode, 0⟩) }
          return i

def seek (volume : Nat) (count : UInt32) (whence : UInt8) : Op Unit := do
  let k ← get
  match k.fds with
  | none => failure
  | some table =>
      let fd := TitorOS.Barrel.seek (table volume) (k.node (table volume).node) count whence
      set { k with fds := some (Function.update table volume fd) }

def read (vol : Volume) (volume : Nat) : Op Buffer := do
  let k ← get
  match k.fds with
  | none => failure
  | some table =>
      let fd := table volume
      match readDevice (fun i => if i = 5 then vol.part else 0) fd (k.node fd.node) BLOCK_FACTOR with
      | some (.nvmeRead _ lba) => return vol.disk lba
      | _ => failure

def close (volume : Nat) : Op Unit := do
  let k ← get
  match k.fds with
  | none => failure
  | some table =>
      if (table volume).mode = 0 then failure
      set { k with fds := some (Function.update table volume { table volume with mode := 0 }) }

/-- The members of `inode_t` that are used. -/
structure Inode where
  sizeLo : UInt32
  blockPointer : UInt32
  deriving DecidableEq

def inodeSector (vol : Volume) (inodeNo : UInt32) : UInt32 :=
  let blockGroup := (inodeNo - 1) / vol.groupInodeCount
  let index := (inodeNo - 1) % vol.groupInodeCount
  let inodesPerBlock := 4096 / vol.inodeSize
  (vol.inodeTable blockGroup + index / inodesPerBlock) * BLOCK_FACTOR

def inodeIn (vol : Volume) (inodeNo : UInt32) (table : Buffer) : Inode :=
  let index := (inodeNo - 1) % vol.groupInodeCount
  let base := (index % (4096 / vol.inodeSize) * vol.inodeSize).toNat
  ⟨le32 table (base + 4), le32 table (base + 40)⟩

def volumePath : List Char := "/dev/nvme5".toList

def getInode (vol : Volume) (getnode : List Char → Op NodePtr) (vnode : NodePtr) :
    Op (Nat × Inode) := do
  let k ← get
  let inodeNo := (k.node vnode).inode
  let inodeTable ← kmalloc
  let volume ← open_ getnode volumePath 1
  seek volume (inodeSector vol inodeNo) 0
  let table ← read vol volume
  let inode ← kmalloc
  memCopy
  kfree inodeTable
  close volume
  return (inode, inodeIn vol inodeNo table)

/-- The end of a list of dirents, if no node there has the name. -/
def findEnd (dirents : Nat → Vnode) (name : List Char) : Nat → Nat → Option Nat
  | 0, _ => none
  | room + 1, slot =>
      if (dirents slot).name = [] then some slot
      else if (dirents slot).name = name then none
      else findEnd dirents name room (slot + 1)

def newVnode (parent : NodePtr) (name : List Char) : Op NodePtr := do
  let k ← get
  let dirents := (k.node parent).dirents
  match findEnd (k.pages dirents) name DIRENT_SLOTS 0 with
  | none => failure
  | some slot =>
      if 32 ≤ name.length then failure
      modify (Kernel.setNode · (.dirent dirents slot) fun n => { n with name := name })
      modify (Kernel.setNode · (.dirent dirents (slot + 1)) fun n => { n with name := [] })
      let page ← kmalloc
      modify (Kernel.setNode · (.dirent dirents slot) fun n => { n with dirents := page })
      modify (Kernel.setNode · (.dirent page 0) fun n => { n with name := [] })
      return .dirent dirents slot

structure Dirent where
  inode : UInt32
  type : UInt8
  name : List Char
  deriving DecidableEq

def direntAt (block : Buffer) (offset : Nat) : Dirent :=
  { inode := le32 block offset
    type := block (offset + 7)
    name := (List.range (block (offset + 6)).toNat).map fun j =>
      Char.ofNat (block (offset + 8 + j)).toNat }

def nextDirent (block : Buffer) (offset : Nat) : Nat :=
  let nameLength := (block (offset + 6)).toNat
  if nameLength % 4 = 0 then offset + 8 + nameLength
  else offset + 8 + nameLength + (4 - nameLength % 4)

/-- The switch on the type byte; other types leave the flags as they are. -/
def Dirent.flags (entry : Dirent) (flags : UInt32) : UInt32 :=
  if entry.type = 1 then 0 else if entry.type = 2 then DIRECTORY else flags

def enumEntry (vol : Volume) (getnode : List Char → Op NodePtr) (vnode : NodePtr)
    (entry : Dirent) : Op Unit := do
  memCopy
  let node ← newVnode vnode (cstr entry.name)
  modify (Kernel.setNode · node fun n => { n with inode := entry.inode })
  let (_, inode) ← getInode vol getnode node
  modify (Kernel.setNode · node fun n =>
    { n with size := inode.sizeLo, fs := .ext2fs, flags := entry.flags n.flags })

/-- The loop of `ext2_enum` over the dirents of a block, which it must not leave. -/
def enumEntries (vol : Volume) (getnode : List Char → Op NodePtr) (vnode : NodePtr)
    (block : Buffer) : Nat → Nat → Op Unit
  | 0, _ => failure
  | rounds + 1, offset => do
      if 4096 < offset + 4 then failure
      let entry := direntAt block offset
      if entry.inode = 0 then return
      if 4096 < offset + 8 + entry.name.length then failure
      let k ← get
      if entry.inode ≠ (k.node vnode).inode then
        enumEntry vol getnode vnode entry
      enumEntries vol getnode vnode block rounds (nextDirent block offset)

def ext2Enum (vol : Volume) (getnode : List Char → Op NodePtr) (vnode : NodePtr) : Op Unit := do
  let (inodePage, inode) ← getInode vol getnode vnode
  let _ ← kmalloc
  let volume ← open_ getnode volumePath 1
  seek volume (inode.blockPointer * BLOCK_FACTOR) 0
  let block ← read vol volume
  let name ← kmalloc
  enumEntries vol getnode vnode block 512 0
  modify (Kernel.setNode · vnode fun n => { n with flags := n.flags ||| 0x40000000 })
  kfree name
  kfree inodePage
  close volume

/-- The driver's part of a look at a directory, where it has one. -/
def enumdir (vol : Volume) (getnode : List Char → Op NodePtr) (vnode : NodePtr) : Op Unit := do
  let k ← get
  if (k.node vnode).fs = .ext2fs then
    let dirents := (k.node vnode).dirents
    modify fun k => { k with pages := Function.update k.pages dirents fun _ => blankNode }
    ext2Enum vol getnode vnode

/-- The rounds of `navigate`; the index is a byte, so after 256 they repeat. -/
def navigate (enum : NodePtr → Op Unit) (vnode : NodePtr) (part : List Char) :
    Nat → Nat → Op NodePtr
  | 0, _ => failure
  | tries + 1, i => do
      let k ← get
      if (k.node vnode).flags &&& DIRECTORY = 0 then failure
      enum vnode
      let k ← get
      let dirents := (k.node vnode).dirents
      if (k.pages dirents i).name = part then return .dirent dirents i
      else if (k.pages dirents i).name = [] then failure
      else navigate enum vnode part tries (i + 1)

/-- The rounds of the outer loop, one for each part of the path. -/
def descend (enum : NodePtr → Op Unit) (path : List Char) :
    Nat → List Char → Option (List Char) → NodePtr → Op NodePtr
  | 0, _, _, _ => failure
  | rounds + 1, currentpath, pathpart, currentnode =>
      if currentpath = path then return currentnode
      else
        match pathpart with
        | none => failure
        | some pathpart => do
            let node ← navigate enum currentnode pathpart 256 0
            modify fun k => { k with token := strtokNext k.token }
            let k ← get
            descend enum path rounds (currentpath ++ ['/'] ++ pathpart) (k.token.map cstr) node

/-- `depth` bounds how often the function may be entered again. -/
def getnode (vol : Volume) : Nat → List Char → Op NodePtr
  | 0, _ => failure
  | depth + 1, path => do
      let currentpath ← kmalloc
      let pathpartPage ← kmalloc
      if 4096 ≤ path.length then failure
      modify fun k => { k with token := strtok path }
      let k ← get
      let node ← descend (enumdir vol (getnode vol depth)) path (path.length + 1) []
        (k.token.map cstr) .root
      kfree currentpath
      kfree pathpartPage
      return node

def contentsOf (dirents : Nat → Vnode) : Nat → Nat → Option (List Char)
  | 0, _ => none
  | room + 1, i =>
      if (dirents i).name = [] then some []
      else (contentsOf dirents room (i + 1)).map ((dirents i).name ++ ['\n'] ++ ·)

/-- The test for a directory in front of it is never false. -/
def readdir (vol : Volume) (depth : Nat) (path : List Char) : Op (List Char) := do
  let node ← getnode vol (depth + 1) path
  enumdir vol (getnode vol depth) node
  let contents ← kmalloc
  let k ← get
  match contentsOf (k.pages (k.node node).dirents) (DIRENT_SLOTS + 1) 0 with
  | none => failure
  | some text =>
      kfree contents
      return text

end TitorOS.Barrel.Vfs
