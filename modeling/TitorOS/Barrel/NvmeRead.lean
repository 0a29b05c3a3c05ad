import TitorOS.Barrel.Nvme
import TitorOS.Barrel.Walk

/-! The read command of `drivers/nvme.c` and what a controller that follows the NVMe
specification transfers for it: 512-byte blocks, memory pages of 4096 bytes. -/

namespace TitorOS.Barrel.Nvme

open TitorOS.Lib TitorOS.Lib.Word TitorOS.Barrel.Vmm

def readCommand (dptr1 noBlocks sourceLo : UInt32) : Command := fun i =>
  match i.val with
  | 0 => 0x2
  | 1 => 0x1
  | 6 => dptr1
  | 10 => sourceLo
  | 12 => noBlocks
  | _ => 0

/-- The command of `nvme_read`; `none` where `getpaddr` faults. -/
def nvmeRead (mem : Mem) (cr3 : Frame) (destination : BitVec 32) (noBlocks sourceLo : UInt32) :
    Option Command :=
  (getpaddrWalk mem cr3 destination).map fun paddr =>
    readCommand (UInt32.ofBitVec paddr) noBlocks sourceLo

/-! The controller's reading of a command. -/

def Command.quad (c : Command) (i : Fin 15) : Nat :=
  (c i.castSucc).toNat + 2 ^ 32 * (c i.succ).toNat

def Command.prp1 (c : Command) : Nat := c.quad 6
def Command.prp2 (c : Command) : Nat := c.quad 8
def Command.slba (c : Command) : Nat := c.quad 10

/-- Bits 15:0 of dword 12 count from zero. -/
def Command.blocks (c : Command) : Nat := (c 12).toNat % 65536 + 1

def Command.pages (c : Command) : Nat := (c.prp1 % 4096 + c.blocks * 512 + 4095) / 4096

def listQuad (mem : Mem) (a : Nat) : Nat :=
  (physWord mem (BitVec.ofNat 32 a)).toNat + 2 ^ 32 * (physWord mem (BitVec.ofNat 32 (a + 4))).toNat

/-- Entry `i` of the PRP list at `list`, of which `left` are needed. When they do not
fit into the list's page, its last entry points to where the list goes on. -/
def listEntry (mem : Mem) : Nat → Nat → Nat → Nat → Nat
  | 0, _, _, _ => 0
  | fuel + 1, list, left, i =>
      let slots := (4096 - list % 4096) / 8
      if left ≤ slots ∨ i < slots - 1 then listQuad mem (list + 8 * i)
      else
        listEntry mem fuel (listQuad mem (list + 8 * (slots - 1))) (left - (slots - 1))
          (i - (slots - 1))

def dataPage (mem : Mem) (c : Command) (i : Nat) : Nat :=
  if i = 0 then c.prp1 / 4096
  else if c.pages = 2 then c.prp2 / 4096
  else listEntry mem c.pages c.prp2 (c.pages - 1) (i - 1) / 4096

def target (mem : Mem) (c : Command) (k : Nat) : Nat :=
  dataPage mem c ((c.prp1 % 4096 + k) / 4096) * 4096 + (c.prp1 % 4096 + k) % 4096

/-- The controller reads exactly the `n` blocks from `lba` on, and every byte of them
goes where the destination's address is mapped to. -/
structure Transfers (mem : Mem) (cr3 : Frame) (c : Command) (destination : BitVec 32)
    (n lba : Nat) : Prop where
  opcode : (c 0).toNat % 256 = 2 ∧ c 1 = 1
  first : c.slba = lba
  count : c.blocks = n
  placed : ∀ k < n * 512,
    (walk mem cr3 (destination + BitVec.ofNat 32 k)).map BitVec.toNat = some (target mem c k)

theorem nvmeRead_eq {mem : Mem} {cr3 : Frame} {destination : BitVec 32} {n lba : UInt32}
    {c : Command} (sent : nvmeRead mem cr3 destination n lba = some c) :
    ∃ paddr, getpaddrWalk mem cr3 destination = some paddr ∧
      c = readCommand (UInt32.ofBitVec paddr) n lba := by
  obtain ⟨paddr, found, rfl⟩ := Option.map_eq_some_iff.mp sent
  exact ⟨paddr, found, rfl⟩

/-- The count is passed as it is, so the controller reads one block more; from 65536
on it also loses its high bits. -/
theorem nvmeRead_never_transfers (mem : Mem) (cr3 : Frame) (destination : BitVec 32)
    (n lba : UInt32) (c : Command) (sent : nvmeRead mem cr3 destination n lba = some c) :
    ¬ Transfers mem cr3 c destination n.toNat lba.toNat := by
  intro transfers
  obtain ⟨paddr, _, rfl⟩ := nvmeRead_eq sent
  have count : n.toNat % 65536 + 1 = n.toNat := transfers.count
  omega

theorem getpaddr_command (mem : Mem) (cr3 : Frame) (self : SelfMapped mem cr3)
    (destination paddr : BitVec 32) (mapped : walk mem cr3 destination = some paddr)
    (n lba : UInt32) :
    nvmeRead mem cr3 destination n lba =
        some (readCommand (UInt32.ofBitVec (paddr &&& 0xFFFFF000#32)) n lba) ∧
      (readCommand (UInt32.ofBitVec (paddr &&& 0xFFFFF000#32)) n lba).prp1 =
        paddr.toNat / 4096 * 4096 ∧ paddr.toNat % 4096 = destination.toNat % 4096 := by
  refine ⟨?_, ?_, ?_⟩
  · rw [nvmeRead, getpaddrWalk_walk self mapped]
    rfl
  · have low : (UInt32.ofBitVec (paddr &&& 0xFFFFF000#32)).toNat = paddr.toNat / 4096 * 4096 :=
      toNat_roundDown paddr
    exact (congrArg (· + 2 ^ 32 * 0) low).trans (Nat.add_zero _)
  · simp only [walk] at mapped
    split at mapped
    · split at mapped
      · cases mapped
        have offset := toNat_pageOffset destination
        rw [toNat_address_add _ _ (by omega)]
        omega
      · cases mapped
    · cases mapped

theorem nvmeRead_first_byte_iff (mem : Mem) (cr3 : Frame) (self : SelfMapped mem cr3)
    (destination paddr : BitVec 32) (mapped : walk mem cr3 destination = some paddr)
    (n lba : UInt32) :
    ∃ c, nvmeRead mem cr3 destination n lba = some c ∧
      (paddr.toNat = target mem c 0 ↔ destination.toNat % 4096 = 0) := by
  obtain ⟨sent, prp, offset⟩ := getpaddr_command mem cr3 self destination paddr mapped n lba
  refine ⟨_, sent, ?_⟩
  have zero : paddr.toNat / 4096 * 4096 % 4096 = 0 := by omega
  simp only [target, dataPage, prp, zero, if_true]
  omega

theorem readCommand_one_page (mem : Mem) (cr3 : Frame) (self : SelfMapped mem cr3)
    (destination paddr : BitVec 32) (mapped : walk mem cr3 destination = some paddr)
    (aligned : destination.toNat % 4096 = 0) (n lba : UInt32) (one : n.toNat < 8) :
    ∃ c, nvmeRead mem cr3 destination n lba = some c ∧
      Transfers mem cr3 c destination (n.toNat + 1) lba.toNat := by
  obtain ⟨sent, prp, offset⟩ := getpaddr_command mem cr3 self destination paddr mapped n lba
  refine ⟨_, sent, ⟨rfl, rfl⟩, ?_, ?_, ?_⟩
  · exact Nat.add_zero _
  · have count : n.toNat % 65536 = n.toNat := Nat.mod_eq_of_lt (by omega)
    exact congrArg (· + 1) count
  · intro k inside
    have zero : paddr.toNat / 4096 * 4096 % 4096 = 0 := by omega
    have first : k / 4096 = 0 := by omega
    simp only [target, dataPage, prp, zero, Nat.zero_add, first, if_true]
    rw [walk_add mapped aligned k (by omega)]
    apply congrArg some
    omega

theorem kernel_page_never_transfers :
    ∃ c, nvmeRead (initVmm fun _ _ => 0#32).mem 0x300#20 0xC0010000#32 8 64 = some c ∧
      ¬ Transfers (initVmm fun _ _ => 0#32).mem 0x300#20 c 0xC0010000#32 8 64 :=
  ⟨_, (Option.some_get (by decide)).symm,
    nvmeRead_never_transfers _ _ 0xC0010000#32 8 64 _ (Option.some_get (by decide)).symm⟩

theorem one_block_overrun :
    ¬ ∀ (mem : Mem) (cr3 : Frame) (destination : BitVec 32) (n lba : UInt32) (c : Command),
      SelfMapped mem cr3 → (walk mem cr3 destination).isSome = true → 1 ≤ n.toNat →
      nvmeRead mem cr3 destination n lba = some c →
        Transfers mem cr3 c destination n.toNat lba.toNat := by
  intro claim
  have transfers := claim (initVmm fun _ _ => 0#32).mem 0x300#20 0xC0010000#32 8 64 _
    ⟨by decide, by decide⟩ (by decide) (by decide) (Option.some_get (by decide)).symm
  exact absurd transfers.count (by decide)

end TitorOS.Barrel.Nvme
