import TitorOS.Barrel.Vfs
import Mathlib.Tactic.Common
import Mathlib.Algebra.GroupWithZero.Nat

/-! Partition nodes and device reads of `drivers/filesystems/devfs.c`. -/

namespace TitorOS.Barrel

abbrev Buffer := Nat → UInt8

def le16 (buffer : Buffer) (offset : Nat) : UInt16 :=
  (buffer offset).toUInt16 ||| (buffer (offset + 1)).toUInt16 <<< 8

def le32 (buffer : Buffer) (offset : Nat) : UInt32 :=
  (buffer offset).toUInt32 ||| (buffer (offset + 1)).toUInt32 <<< 8 |||
    (buffer (offset + 2)).toUInt32 <<< 16 ||| (buffer (offset + 3)).toUInt32 <<< 24

/-- `gpt_pentry_t`, less the members nothing reads. -/
structure GptPentry where
  typeGuid : List UInt8
  lbaStartLo : UInt32
  lbaStartHi : UInt32
  lbaEndLo : UInt32
  lbaEndHi : UInt32
  deriving DecidableEq, Repr

def pentry (buffer : Buffer) (i : Nat) : GptPentry :=
  let base := 1024 + 128 * i
  { typeGuid := (List.range 16).map fun j => buffer (base + j)
    lbaStartLo := le32 buffer (base + 32)
    lbaStartHi := le32 buffer (base + 36)
    lbaEndLo := le32 buffer (base + 40)
    lbaEndHi := le32 buffer (base + 44) }

/-- The 32-bit sum of the type bytes that `dev_enum` compares with zero. -/
def GptPentry.used (entry : GptPentry) : UInt32 :=
  entry.typeGuid.foldl (fun sum byte => sum + byte.toUInt32) 0

def hasMbr (buffer : Buffer) : Bool := le16 buffer 0x1fe = 0xaa55

/-- `strcmp` with "EFI PART" after the ninth byte has been cleared. -/
def hasGpt (buffer : Buffer) : Bool :=
  (List.range 8).map (fun j => buffer (512 + j)) =
    [0x45, 0x46, 0x49, 0x20, 0x50, 0x41, 0x52, 0x54]

def nvmeName (i : Nat) : List Char := "nvme".toList ++ [Char.ofNat (i + 48)]

def partNode (entry : GptPentry) (i : Nat) : Vnode :=
  { name := nvmeName i
    flags := 0
    size := entry.lbaEndLo - entry.lbaStartLo + 1
    fs := .devfs
    inode := 0
    fsInstance := i.toUInt8
    dirents := 0 }

def usedEntries (buffer : Buffer) : List Nat :=
  if hasMbr buffer && hasGpt buffer then
    (List.range 8).filter fun i => (pentry buffer i).used ≠ 0
  else []

def devEnum (buffer : Buffer) : List Vnode :=
  (usedEntries buffer).map fun i => partNode (pentry buffer i) i

def nvmeParts (buffer : Buffer) (i : Nat) : UInt32 :=
  if i ∈ usedEntries buffer then (pentry buffer i).lbaStartLo else 0

/-- The driver call behind a device read. `sendbuffer` takes its count as a byte. -/
inductive DevCall where
  | sendbuffer (count : UInt8)
  | nvmeRead (noBlocks sourceLo : UInt32)
  deriving DecidableEq, Repr

def devRead (parts : Nat → UInt32) (count position : UInt32) (vnode : Vnode) : Option DevCall :=
  if vnode.name = "tty".toList then some (.sendbuffer count.toUInt8)
  else if vnode.name = "nvme".toList then some (.nvmeRead count position)
  else if vnode.name = "nvme5".toList then some (.nvmeRead count (position + parts 5))
  else none

/-- A `read` system call on a device node, down to the driver. -/
def readDevice (parts : Nat → UInt32) (fd : Fd) (node : Vnode) (count : UInt32) :
    Option DevCall :=
  (read fd node count).bind fun call =>
    if call.1 = .devRead then devRead parts call.2.1 call.2.2 node else none

inductive FileOp where
  | seek (count : UInt32) (whence : UInt8)
  | read (count : UInt32)
  deriving DecidableEq, Repr

/-- The read calls a sequence of operations makes on one descriptor, each with the
descriptor it finds. A rejected read hangs the kernel and ends the sequence. -/
def attempts (parts : Nat → UInt32) (node : Vnode) : Fd → List FileOp → List (Fd × UInt32)
  | _, [] => []
  | fd, .seek count whence :: rest => attempts parts node (seek fd node count whence) rest
  | fd, .read count :: rest =>
      (fd, count) ::
        match readDevice parts fd node count with
        | none => []
        | some _ => attempts parts node fd rest

def driverCalls (parts : Nat → UInt32) (node : Vnode) (fd : Fd) (ops : List FileOp) :
    List DevCall :=
  (attempts parts node fd ops).filterMap fun call => readDevice parts call.1 node call.2

/-- The sectors of the call, taken as unbounded integers, lie in `size` sectors
from `start`. -/
def Confined (start size : Nat) : DevCall → Prop
  | .nvmeRead noBlocks sourceLo =>
      0 < noBlocks.toNat →
        start ≤ sourceLo.toNat ∧ sourceLo.toNat + noBlocks.toNat ≤ start + size
  | .sendbuffer _ => False

def GptPentry.lbaStart (entry : GptPentry) : Nat :=
  entry.lbaStartLo.toNat + 2 ^ 32 * entry.lbaStartHi.toNat

def GptPentry.lbaEnd (entry : GptPentry) : Nat :=
  entry.lbaEndLo.toNat + 2 ^ 32 * entry.lbaEndHi.toNat

/-- On a descriptor open for reading, no 32-bit sum of the request wraps where the
size check would miss it: neither position plus count, nor, where a sector is asked
for, partition base plus position; and that base itself fits in 32 bits. -/
def NoWrap (entry : GptPentry) (size : UInt32) (call : Fd × UInt32) : Prop :=
  let position := call.1.position.toNat
  let count := call.2.toNat
  call.1.mode &&& 0b00000001 ≠ 0 →
    ¬ (2 ^ 32 ≤ position + count ∧ position + count - 2 ^ 32 ≤ size.toNat) ∧
      (0 < count → position + count ≤ size.toNat →
        entry.lbaStartHi = 0 ∧ entry.lbaStartLo.toNat + position < 2 ^ 32)

theorem nvmeName_five (i : Nat) (bound : i < 8) (named : nvmeName i = "nvme5".toList) :
    i = 5 := by
  have checked : ∀ j < 8, nvmeName j = "nvme5".toList → j = 5 := by decide
  exact checked i bound named

theorem devEnum_nvme5 (buffer : Buffer) (node : Vnode) (created : node ∈ devEnum buffer)
    (named : node.name = "nvme5".toList) :
    node = partNode (pentry buffer 5) 5 ∧ nvmeParts buffer 5 = (pentry buffer 5).lbaStartLo := by
  obtain ⟨i, member, rfl⟩ := List.mem_map.mp created
  have bound : i < 8 := by
    unfold usedEntries at member
    split at member
    · exact List.mem_range.mp (List.mem_filter.mp member).1
    · simp at member
  have five : i = 5 := nvmeName_five i bound named
  subst i
  exact ⟨rfl, if_pos member⟩

theorem readDevice_partNode (parts : Nat → UInt32) (entry : GptPentry) (fd : Fd) (count : UInt32)
    (sized : (partNode entry 5).size ≠ 0) :
    readDevice parts fd (partNode entry 5) count =
      if fd.mode &&& 0b00000001 ≠ 0 ∧ fd.position + count ≤ (partNode entry 5).size then
        some (.nvmeRead count (fd.position + parts 5))
      else none := by
  have named : (partNode entry 5).name = "nvme5".toList :=
    show nvmeName 5 = "nvme5".toList by decide
  by_cases closed : fd.mode = 0
  · simp [readDevice, read, closed]
  by_cases readable : fd.mode &&& 0b00000001 = 0
  · simp [readDevice, read, closed, readable]
  by_cases within : fd.position + count ≤ (partNode entry 5).size
  · have passed : ¬ fd.position + count > (partNode entry 5).size := UInt32.not_lt.mpr within
    have func : (partNode entry 5).fs.read = some .devRead := rfl
    simp [readDevice, read, closed, readable, within, passed, func, devRead, named]
  · have failed : fd.position + count > (partNode entry 5).size := UInt32.not_le.mp within
    simp [readDevice, read, closed, readable, within, failed, sized]

theorem readDevice_confined_iff (parts : Nat → UInt32) (entry : GptPentry) (fd : Fd)
    (count : UInt32) (sized : (partNode entry 5).size ≠ 0) (base : parts 5 = entry.lbaStartLo) :
    (∀ call, readDevice parts fd (partNode entry 5) count = some call →
        Confined entry.lbaStart (partNode entry 5).size.toNat call) ↔
      NoWrap entry (partNode entry 5).size (fd, count) := by
  rw [readDevice_partNode parts entry fd count sized, base]
  generalize (partNode entry 5).size = size
  have positionBound := fd.position.toNat_lt
  have countBound := count.toNat_lt
  have sizeBound := size.toNat_lt
  have loBound := entry.lbaStartLo.toNat_lt
  have hiZero : entry.lbaStartHi = 0 ↔ entry.lbaStartHi.toNat = 0 := by
    rw [← UInt32.toNat_inj]; rfl
  by_cases readable : fd.mode &&& 0b00000001 = 0
  · simp [NoWrap, readable]
  by_cases within : fd.position + count ≤ size
  · have sum : (fd.position.toNat + count.toNat) % 2 ^ 32 ≤ size.toNat := by
      simpa [UInt32.le_iff_toNat_le, UInt32.toNat_add] using within
    simp only [ne_eq, readable, not_false_eq_true, within, and_self, if_true, Option.some.injEq,
      forall_eq', Confined, NoWrap, GptPentry.lbaStart, UInt32.toNat_add, hiZero, true_implies]
    omega
  · have sum : size.toNat < (fd.position.toNat + count.toNat) % 2 ^ 32 := by
      simpa [UInt32.lt_iff_toNat_lt, UInt32.toNat_add] using within
    simp only [ne_eq, readable, not_false_eq_true, within, and_false, if_false, reduceCtorEq,
      false_implies, implies_true, NoWrap, true_implies, true_iff]
    omega

/-- For every GPT and every sequence of seeks and reads on a descriptor of the node
of partition 5: each driver call stays inside the partition if and only if no
read of the sequence wraps. -/
theorem driverCalls_confined_iff (buffer : Buffer) (node : Vnode) (fd : Fd) (ops : List FileOp)
    (created : node ∈ devEnum buffer) (named : node.name = "nvme5".toList)
    (sized : node.size ≠ 0) :
    (∀ call ∈ driverCalls (nvmeParts buffer) node fd ops,
        Confined (pentry buffer 5).lbaStart node.size.toNat call) ↔
      ∀ call ∈ attempts (nvmeParts buffer) node fd ops, NoWrap (pentry buffer 5) node.size call := by
  obtain ⟨rfl, base⟩ := devEnum_nvme5 buffer node created named
  have single := readDevice_confined_iff (nvmeParts buffer) (pentry buffer 5)
  constructor
  · intro confined call member
    refine (single call.1 call.2 sized base).mp fun request issued => ?_
    exact confined request (List.mem_filterMap.mpr ⟨call, member, issued⟩)
  · intro safe request member
    obtain ⟨call, made, issued⟩ := List.mem_filterMap.mp member
    exact (single call.1 call.2 sized base).mpr (safe call made) request issued

def onePartition : Buffer := fun i =>
  [(0x1fe, 0x55), (0x1ff, 0xaa), (512, 0x45), (513, 0x46), (514, 0x49), (515, 0x20), (516, 0x50),
    (517, 0x41), (518, 0x52), (519, 0x54), (1664, 0x01), (1697, 0x08), (1704, 0xff),
    (1705, 0x0b)].lookup i |>.getD (0 : UInt8)

theorem onePartition_tail_confined :
    driverCalls (nvmeParts onePartition) (partNode (pentry onePartition 5) 5)
        ⟨.dirent 0 0, 1, 0⟩ [.seek 1022 0, .read 2] = [.nvmeRead 2 3070] ∧
    ∀ call ∈ driverCalls (nvmeParts onePartition) (partNode (pentry onePartition 5) 5)
        ⟨.dirent 0 0, 1, 0⟩ [.seek 1022 0, .read 2],
      Confined (pentry onePartition 5).lbaStart (partNode (pentry onePartition 5) 5).size.toNat
        call := by
  refine ⟨by decide, ?_⟩
  refine (driverCalls_confined_iff onePartition (partNode (pentry onePartition 5) 5)
    ⟨.dirent 0 0, 1, 0⟩ [.seek 1022 0, .read 2] (by decide) (by decide) (by decide)).mpr ?_
  have made : attempts (nvmeParts onePartition) (partNode (pentry onePartition 5) 5)
      ⟨.dirent 0 0, 1, 0⟩ [.seek 1022 0, .read 2] = [(⟨.dirent 0 0, 1, 1022⟩, 2)] := by decide
  intro call member
  rw [made, List.mem_singleton] at member
  subst call
  unfold NoWrap
  decide

theorem seek_wrap_escapes :
    ¬ ∀ (buffer : Buffer) (node : Vnode) (fd : Fd) (ops : List FileOp),
      node ∈ devEnum buffer → node.name = "nvme5".toList → node.size ≠ 0 →
        ∀ call ∈ driverCalls (nvmeParts buffer) node fd ops,
          Confined (pentry buffer 5).lbaStart node.size.toNat call := by
  intro claim
  have escaped := claim onePartition (partNode (pentry onePartition 5) 5) ⟨.dirent 0 0, 1, 0⟩
    [.seek 0xffffffff 0, .read 2] (by decide) (by decide) (by decide)
    (.nvmeRead 2 2047) (by decide)
  have start : (pentry onePartition 5).lbaStart = 2048 := by decide
  rw [start] at escaped
  exact absurd (escaped (by decide)).1 (by decide)

def GptPentry.typed (entry : GptPentry) : Bool := entry.typeGuid.any (· ≠ 0)

/-- The positions in range of a partition: the sectors from there lie within the
64-bit bounds of its entry. `read` does not bound the position on a node of size 0. -/
def GptPentry.InRange (entry : GptPentry) (size position : UInt32) : Prop :=
  size = 0 ∨ entry.lbaStart + position.toNat ≤ entry.lbaEnd

/-- `dev_enum` makes the node `nvme<i>` for each used entry and no other, and a read
at a position in range asks the driver for the sectors from there on. -/
def NodesAgree (buffer : Buffer) : Prop :=
  (devEnum buffer).map Vnode.name =
      ((List.range 8).filter fun i => (pentry buffer i).typed).map nvmeName ∧
    ∀ node ∈ devEnum buffer, ∀ i < 8, node.name = nvmeName i →
      ∀ count position : UInt32, (pentry buffer i).InRange node.size position →
        ∃ sourceLo, devRead (nvmeParts buffer) count position node =
            some (.nvmeRead count sourceLo) ∧
          sourceLo.toNat = (pentry buffer i).lbaStart + position.toNat

/-- The low words of the bounds say that the partition is empty, or all `2^32` sectors. -/
def GptPentry.Unsized (entry : GptPentry) : Prop := entry.lbaEndLo + 1 = entry.lbaStartLo

instance (entry : GptPentry) : Decidable entry.Unsized := by
  unfold GptPentry.Unsized
  infer_instance

/-- Base plus position cannot leave 32 bits: the partition starts at sector 0, or it
has a size and ends below sector `2^32`. -/
def GptPentry.Reaches (entry : GptPentry) : Prop :=
  entry.lbaStartHi = 0 ∧ (entry.lbaStartLo = 0 ∨ entry.lbaEnd < 2 ^ 32 ∧ ¬ entry.Unsized)

instance (entry : GptPentry) : Decidable entry.Reaches := by
  unfold GptPentry.Reaches
  infer_instance

/-- Every used entry with a position in range is entry 5 and within reach. -/
def OnlyFifth (buffer : Buffer) : Prop :=
  ∀ i < 8, (pentry buffer i).typed →
    (pentry buffer i).Unsized ∨ (pentry buffer i).lbaStart ≤ (pentry buffer i).lbaEnd →
      i = 5 ∧ (pentry buffer i).Reaches

theorem foldl_bytes_toNat (bytes : List UInt8) (sum : UInt32)
    (room : sum.toNat + 255 * bytes.length < 2 ^ 32) :
    (bytes.foldl (fun sum byte => sum + byte.toUInt32) sum).toNat =
      sum.toNat + (bytes.map UInt8.toNat).sum := by
  induction bytes generalizing sum with
  | nil => simp
  | cons byte rest ih =>
      have small := byte.toNat_lt
      simp only [List.length_cons] at room
      have added : (sum + byte.toUInt32).toNat = sum.toNat + byte.toNat := by
        rw [UInt32.toNat_add, UInt8.toNat_toUInt32]
        exact Nat.mod_eq_of_lt (by omega)
      rw [List.foldl_cons, ih (sum + byte.toUInt32) (by omega), added, List.map_cons, List.sum_cons]
      omega

theorem used_iff_typed (buffer : Buffer) (i : Nat) :
    (pentry buffer i).used ≠ 0 ↔ (pentry buffer i).typed = true := by
  have length : (pentry buffer i).typeGuid.length = 16 := by simp [pentry]
  have total := foldl_bytes_toNat (pentry buffer i).typeGuid 0 (by rw [length]; decide)
  have zero : (pentry buffer i).used = 0 ↔ ((pentry buffer i).typeGuid.map UInt8.toNat).sum = 0 := by
    rw [← UInt32.toNat_inj, GptPentry.used, total]
    simp
  have typed : (pentry buffer i).typed = true ↔ ∃ byte ∈ (pentry buffer i).typeGuid, byte ≠ 0 := by
    simp [GptPentry.typed]
  rw [Ne, zero, typed, List.sum_eq_zero_iff_forall_eq_nat]
  constructor
  · intro some
    by_contra none
    refine some fun value member => ?_
    obtain ⟨byte, inside, rfl⟩ := List.mem_map.mp member
    have cleared : byte = 0 := by
      by_contra set
      exact none ⟨byte, inside, set⟩
    simp [cleared]
  · rintro ⟨byte, inside, set⟩ zeros
    have value := zeros byte.toNat (List.mem_map.mpr ⟨byte, inside, rfl⟩)
    exact set (UInt8.toNat_inj.mp value)

theorem usedEntries_gpt (buffer : Buffer) (mbr : hasMbr buffer = true)
    (gpt : hasGpt buffer = true) :
    usedEntries buffer = (List.range 8).filter fun i => (pentry buffer i).typed := by
  unfold usedEntries
  rw [mbr, gpt]
  refine List.filter_congr fun i _ => ?_
  have used := used_iff_typed buffer i
  cases typed : (pentry buffer i).typed <;> simp_all

theorem nvmeName_inj {i j : Nat} (bound : i < 8) (other : j < 8)
    (same : nvmeName i = nvmeName j) : i = j := by
  have checked : ∀ i < 8, ∀ j < 8, nvmeName i = nvmeName j → i = j := by decide
  exact checked i bound j other same

theorem devRead_partNode (parts : Nat → UInt32) (entry : GptPentry) (count position : UInt32)
    {i : Nat} (bound : i < 8) :
    devRead parts count position (partNode entry i) =
      if i = 5 then some (.nvmeRead count (position + parts 5)) else none := by
  have checked : ∀ i < 8, nvmeName i ≠ "tty".toList ∧ nvmeName i ≠ "nvme".toList ∧
      (nvmeName i = "nvme5".toList ↔ i = 5) := by decide
  obtain ⟨tty, disk, fifth⟩ := checked i bound
  have named : (partNode entry i).name = nvmeName i := rfl
  rw [devRead, named, if_neg tty, if_neg disk]
  simp only [fifth]

theorem partNode_size_zero_iff (entry : GptPentry) (i : Nat) :
    (partNode entry i).size = 0 ↔ entry.Unsized := by
  have start := entry.lbaStartLo.toNat_lt
  have last := entry.lbaEndLo.toNat_lt
  have size : (partNode entry i).size = entry.lbaEndLo - entry.lbaStartLo + 1 := rfl
  rw [size, GptPentry.Unsized, ← UInt32.toNat_inj, ← UInt32.toNat_inj, UInt32.toNat_add,
    UInt32.toNat_sub, UInt32.toNat_add]
  simp only [UInt32.reduceToNat]
  omega

theorem inRange_zero_iff (entry : GptPentry) (i : Nat) :
    entry.InRange (partNode entry i).size 0 ↔ entry.Unsized ∨ entry.lbaStart ≤ entry.lbaEnd := by
  rw [GptPentry.InRange, partNode_size_zero_iff]
  simp

theorem inRange_zero {entry : GptPentry} {size position : UInt32}
    (inside : entry.InRange size position) : entry.InRange size 0 := by
  refine inside.imp_right fun within => ?_
  simp only [UInt32.toNat_zero]
  omega

theorem base_exact_iff (entry : GptPentry) (i : Nat)
    (some : entry.InRange (partNode entry i).size 0) :
    (∀ position : UInt32, entry.InRange (partNode entry i).size position →
        (position + entry.lbaStartLo).toNat = entry.lbaStart + position.toNat) ↔
      entry.Reaches := by
  have start := entry.lbaStartLo.toNat_lt
  have hiZero : entry.lbaStartHi = 0 ↔ entry.lbaStartHi.toNat = 0 := by
    rw [← UInt32.toNat_inj]; rfl
  have loZero : entry.lbaStartLo = 0 ↔ entry.lbaStartLo.toNat = 0 := by
    rw [← UInt32.toNat_inj]; rfl
  rw [inRange_zero_iff] at some
  unfold GptPentry.Reaches GptPentry.InRange
  simp only [partNode_size_zero_iff, hiZero, loZero, UInt32.toNat_add, GptPentry.lbaStart] at some ⊢
  constructor
  · intro exact
    have first : (0 + entry.lbaStartLo.toNat) % 2 ^ 32 =
        entry.lbaStartLo.toNat + 2 ^ 32 * entry.lbaStartHi.toNat + 0 :=
      exact 0 (by simpa using some)
    refine ⟨by omega, ?_⟩
    -- the last position in range that a read can name decides
    by_cases unsized : entry.Unsized
    · have final : (4294967295 + entry.lbaStartLo.toNat) % 2 ^ 32 =
          entry.lbaStartLo.toNat + 2 ^ 32 * entry.lbaStartHi.toNat + 4294967295 :=
        exact 4294967295 (.inl unsized)
      exact .inl (by omega)
    · obtain ⟨last, value⟩ : ∃ last : UInt32, last.toNat = min (2 ^ 32 - 1)
          (entry.lbaEnd - (entry.lbaStartLo.toNat + 2 ^ 32 * entry.lbaStartHi.toNat)) :=
        ⟨UInt32.ofNat _, UInt32.toNat_ofNat_of_lt' (by simp only [UInt32.size]; omega)⟩
      have final := exact last (.inr (by have := some.resolve_left unsized; omega))
      have within := some.resolve_left unsized
      by_cases zero : entry.lbaStartLo.toNat = 0
      · exact .inl zero
      · exact .inr ⟨by omega, unsized⟩
  · rintro ⟨high, reach⟩ position inside
    have bound := position.toNat_lt
    rcases reach with zero | ⟨below, sized⟩
    · omega
    · have within := inside.resolve_left sized
      omega

def firstPartition : Buffer := fun i =>
  [(0x1fe, 0x55), (0x1ff, 0xaa), (512, 0x45), (513, 0x46), (514, 0x49), (515, 0x20), (516, 0x50),
    (517, 0x41), (518, 0x52), (519, 0x54), (1024, 0x01), (1057, 0x08), (1064, 0xff),
    (1065, 0x0b)].lookup i |>.getD (0 : UInt8)

end TitorOS.Barrel
