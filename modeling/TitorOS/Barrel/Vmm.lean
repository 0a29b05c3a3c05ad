import TitorOS.Lib.Run
import TitorOS.Barrel.Pmm

/-! Address spaces: `kernel/vmm.c`, with the part of `fork` that makes the directory of
the child. Memory is by frame and word; a virtual address is split as the processor
splits it. The kernel reads and writes page tables through the directory's last
entry, which maps the directory itself; CR0.WP is clear, so it may write to every
present page. `none` is a panic. -/

namespace TitorOS.Barrel.Vmm

open TitorOS.Lib TitorOS.Lib.Word TitorOS.Barrel.Pmm

abbrev Index := BitVec 10
abbrev Mem := Frame → Index → Word

structure VPage where
  dir : Index
  table : Index
  deriving DecidableEq

structure VAddr extends VPage where
  word : Index
  deriving DecidableEq

def decode (vaddr : BitVec 32) : VAddr :=
  ⟨⟨(vaddr >>> 22).setWidth 10, (vaddr >>> 12).setWidth 10⟩, (vaddr >>> 2).setWidth 10⟩

/-- `page_entry` as the source computes it. -/
def pageEntryAddr (vaddr : BitVec 32) : BitVec 32 :=
  let entry := 1023#32 * 0x400000#32
  let entry := entry + (vaddr / 0x400000#32) <<< 12
  entry + ((vaddr &&& 0x003FF000#32) / 0x1000#32) * 4#32

def pageEntry (page : VPage) : VAddr := ⟨⟨1023#10, page.dir⟩, page.table⟩

def USER_DIRS : Index := 768#10
def HEAP_DIR : Index := 769#10

def heapPage (slot : Index) : VPage := ⟨HEAP_DIR, slot⟩

/-- Where a page directory lies: at 0xc0300000, or on the heap. -/
inductive DirPtr where
  | boot
  | heap (slot : Index)
  deriving DecidableEq

def DirPtr.page : DirPtr → VPage
  | .boot => ⟨768#10, 0x300#10⟩
  | .heap slot => heapPage slot

/-- `dirs` are the directories of the processes; `live` the heap pages handed out and not
given back. -/
structure State where
  mem : Mem
  bitmap : Bitmap
  cr3 : Frame
  active : DirPtr
  dirs : List DirPtr
  live : List Index

def pageFrame (s : State) (page : VPage) : Option Frame :=
  let pde := s.mem s.cr3 page.dir
  if pde.present then
    let pte := s.mem pde.frame page.table
    if pte.present then some pte.frame else none
  else none

def State.write (s : State) (f : Frame) (i : Index) (w : Word) : State :=
  { s with mem := Function.update s.mem f (Function.update (s.mem f) i w) }

def State.writeFrame (s : State) (f : Frame) (content : Index → Word) : State :=
  { s with mem := Function.update s.mem f content }

def load (s : State) (v : VAddr) : Option Word :=
  (pageFrame s v.toVPage).map fun f => s.mem f v.word

def store (s : State) (v : VAddr) (w : Word) : Option State :=
  (pageFrame s v.toVPage).map fun f => s.write f v.word w

def getpaddr (s : State) (page : VPage) : Option Frame := (load s (pageEntry page)).map frame

def heapSlot (slot : Nat) : Index := BitVec.ofNat 10 slot

def kmalloc (s : State) : Option (Index × State) := do
  let slot ← firstFrom (fun k => (load s (pageEntry (heapPage (heapSlot k)))).any (!·.inUse)) 1024 0
  let vaddr := heapSlot slot
  let entry := pageEntry (heapPage vaddr)
  let w ← load s entry
  if w.present then
    let s ← store s entry (w ||| 0x800#32)
    return (vaddr, s)
  else
    let (f, bitmap) ← pmalloc s.bitmap
    let s ← store { s with bitmap := bitmap } entry (address f + 0b100000000011#32)
    return (vaddr, s)

def kfree (s : State) (vaddr : Index) : Option State := do
  let entry := pageEntry (heapPage vaddr)
  let w ← load s entry
  store s entry (w &&& 0xFFFFF7FF#32)

def mmiomalloc (s : State) (paddr : Word) : Option (Index × State) := do
  let (vaddr, s) ← kmalloc s
  let entry := pageEntry (heapPage vaddr)
  let w ← load s entry
  let s := { s with bitmap := pfree s.bitmap w.frame }
  let s ← store s entry (paddr + (w &&& 0x00000FFF#32))
  return (vaddr, s)

def memCopy (s : State) (source dest : VPage) : Option State := do
  let (buffer, s) ← kmalloc s
  let src ← pageFrame s source
  let via ← pageFrame s (heapPage buffer)
  let s := s.writeFrame via (s.mem src)
  let dst ← pageFrame s dest
  let s := s.writeFrame dst (s.mem via)
  kfree s buffer

/-- A kernel page filled, and its frame taken off the heap by hand. -/
def detach (s : State) (vaddr : Index) : Option (Frame × State) := do
  let f ← getpaddr s (heapPage vaddr)
  let s ← store s (pageEntry (heapPage vaddr)) 0#32
  return (f, s)

def repoint (w : Word) (f : Frame) : Word := (w &&& 0x00000FFF#32) ||| (address f ||| 0b10#32)

def dropWrite (s : State) (vaddr : Index) : Option State :=
  (pageFrame s (heapPage vaddr)).map fun f =>
    s.writeFrame f fun i => s.mem f i &&& 0xFFFFFFFD#32

/-- Copy on write, for a directory entry without its write bit. -/
def splitTable (s : State) (page : VPage) : Option State := do
  let pageTable := (pageEntry page).toVPage
  let dirEntry := pageEntry pageTable
  let (newPt, s) ← kmalloc s
  let s ← memCopy s pageTable (heapPage newPt)
  let s ← dropWrite s newPt
  let (tableFrame, s) ← detach s newPt
  let w ← load s dirEntry
  store s dirEntry (repoint w tableFrame)

def splitPage (s : State) (page : VPage) : Option State := do
  let entry := pageEntry page
  let (newpage, s) ← kmalloc s
  let s ← memCopy s page (heapPage newpage)
  let (pageFrame, s) ← detach s newpage
  let w ← load s entry
  store s entry (repoint w pageFrame)

/-- The copy-on-write branch of `page_fault`. -/
def copyOnWrite (s : State) (page : VPage) : Option State := do
  let dirEntry := pageEntry (pageEntry page).toVPage
  let w ← load s dirEntry
  let s ← if w.writable then some s else splitTable s page
  splitPage s page

/-- The branch of `page_fault` for a page that is not present, while allowed. -/
def demandPage (s : State) (page : VPage) : Option State := do
  let (f, bitmap) ← pmalloc s.bitmap
  let s ← store { s with bitmap := bitmap } (pageEntry page) (address f + 0b100000000111#32)
  let f ← pageFrame s page
  return s.writeFrame f fun _ => 0#32

/-- One round of the loop in `mmap`. The store to the entry faults if the page table is
missing, and is then done again. -/
def mapPage (s : State) (page : VPage) : Option State := do
  let (f, bitmap) ← pmalloc s.bitmap
  let s := { s with bitmap := bitmap }
  let entry := pageEntry page
  let s ← if (pageFrame s entry.toVPage).isSome then some s else demandPage s entry.toVPage
  store s entry (address f ||| 0b100000000111#32)

def mapPages (base : BitVec 32) : Nat → Nat → State → Option State
  | 0, _, s => some s
  | count + 1, i, s => do
      let s ← mapPage s (decode (base + 0x1000#32 * BitVec.ofNat 32 i)).toVPage
      mapPages base count (i + 1) s

def USER_HEAP_BASE : BitVec 32 := 0x10000000#32

def mmapBase (hint : BitVec 32) (flags : BitVec 8) : BitVec 32 :=
  if flags = 0#8 then USER_HEAP_BASE else hint

def noPages (length : BitVec 32) : Nat :=
  if length.toNat % 4096 ≠ 0 then length.toNat / 4096 + 1 else length.toNat / 4096

def mmap (s : State) (hint length : BitVec 32) (flags : BitVec 8) : Option State :=
  mapPages (mmapBase hint flags) (noPages length) 0 s

def userWrite (s : State) (page : VPage) : Option (Frame × Bool) :=
  let pde := s.mem s.cr3 page.dir
  if pde.present then
    let pte := s.mem pde.frame page.table
    if pte.present then
      some (pte.frame, pde.user && pte.user && pde.writable && pte.writable)
    else none
  else none

/-- A store in user mode; a fault on a page that is present is served and the store done
again. -/
def userStore (s : State) (v : VAddr) (w : Word) : Option State := do
  let (f, allowed) ← userWrite s v.toVPage
  if allowed then
    return s.write f v.word w
  else if v.dir < USER_DIRS then
    let s ← copyOnWrite s v.toVPage
    let (f, allowed) ← userWrite s v.toVPage
    if allowed then return s.write f v.word w else none
  else none

/-- The kernel's copy of a word into a user buffer. -/
def kernelStore (s : State) (v : VAddr) (w : Word) : Option State :=
  if v.dir < USER_DIRS then store s v w else none

/-- `fds` is the page of the parent's descriptor table. -/
def fork (s : State) (fds : VPage) : Option State := do
  let (_, s) ← kmalloc s
  let (fdTable, s) ← kmalloc s
  let s ← memCopy s fds (heapPage fdTable)
  let (newdir, s) ← kmalloc s
  let s ← memCopy s s.active.page (heapPage newdir)
  let s ← dropWrite s newdir
  let paddr ← getpaddr s (heapPage newdir)
  let s ← store s ⟨heapPage newdir, 1023#10⟩ (address paddr ||| 0b100000000011#32)
  let (_, s) ← kmalloc s
  return { s with dirs := s.dirs ++ [.heap newdir] }

/-- The switch of the page directory in `scheduler`. -/
def switch (s : State) (p : DirPtr) : Option State := do
  let directory ← getpaddr s p.page
  return { s with cr3 := directory, active := p }

/-- The tables the boot image holds, after `init_vmm`. -/
def initVmm (ram : Mem) : State where
  mem := fun f i =>
    if f = 0x300#20 then
      if i = 768#10 then address 0x301#20 + 0b100000000011#32
      else if i = 769#10 then address 0x302#20 + 0b100000000011#32
      else if i = 1023#10 then address 0x300#20 + 0b100000000011#32
      else 0#32
    else if f = 0x301#20 then address (i.setWidth 20) + 0b100000000011#32
    else if f = 0x302#20 then 0#32
    else ram f i
  bitmap := initPfBitmap
  cr3 := 0x300#20
  active := .boot
  dirs := [.boot]
  live := []

theorem toNat_tableBits (vaddr : BitVec 32) :
    ((vaddr &&& 0x003FF000#32) / 0x1000#32).toNat = vaddr.toNat / 4096 % 1024 := by
  rw [BitVec.toNat_udiv, BitVec.toNat_and, show (0x1000#32).toNat = 2 ^ 12 from rfl,
    ← Nat.shiftRight_eq_div_pow, Nat.shiftRight_and_distrib,
    show (0x003FF000#32).toNat >>> 12 = 2 ^ 10 - 1 from rfl, Nat.and_two_pow_sub_one_eq_mod,
    Nat.shiftRight_eq_div_pow]

theorem toNat_pageEntryAddr (vaddr : BitVec 32) :
    (pageEntryAddr vaddr).toNat =
      0xFFC00000 + vaddr.toNat / 4194304 * 4096 + vaddr.toNat / 4096 % 1024 * 4 := by
  have bound := vaddr.isLt
  have table := toNat_tableBits vaddr
  have dir : ((vaddr / 0x400000#32) <<< 12).toNat = vaddr.toNat / 4194304 * 4096 := by
    rw [BitVec.toNat_shiftLeft, BitVec.toNat_udiv, Nat.shiftLeft_eq,
      show (0x400000#32).toNat = 4194304 from rfl]
    exact Nat.mod_eq_of_lt (by omega)
  simp only [pageEntryAddr, BitVec.toNat_add, BitVec.toNat_mul, table, dir]
  simp only [BitVec.toNat_ofNat]
  omega

theorem decode_pageEntryAddr (vaddr : BitVec 32) :
    decode (pageEntryAddr vaddr) = pageEntry (decode vaddr).toVPage := by
  have bound := vaddr.isLt
  have number := toNat_pageEntryAddr vaddr
  have field (w : BitVec 32) (shift : Nat) :
      ((w >>> shift).setWidth 10).toNat = w.toNat / 2 ^ shift % 1024 := by
    rw [BitVec.toNat_setWidth, BitVec.toNat_ushiftRight, Nat.shiftRight_eq_div_pow]
  simp only [decode, pageEntry, VAddr.mk.injEq, VPage.mk.injEq]
  refine ⟨⟨?_, ?_⟩, ?_⟩
  · apply BitVec.eq_of_toNat_eq
    rw [field, number, show (1023#10).toNat = 1023 from rfl]
    omega
  · apply BitVec.eq_of_toNat_eq
    rw [field, field, number]
    omega
  · apply BitVec.eq_of_toNat_eq
    rw [field, field, number]
    omega

end TitorOS.Barrel.Vmm
