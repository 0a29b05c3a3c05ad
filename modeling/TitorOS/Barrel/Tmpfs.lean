import TitorOS.Lib.Fill
import TitorOS.Barrel.Vfs
import Mathlib.Data.List.GetD
import Mathlib.Data.Nat.Find
import Mathlib.Tactic.Common
import Mathlib.Algebra.Group.Nat.Defs

/-! Reads and writes of `drivers/filesystems/tmpfs.c`, through `read` and `write` of
`kernel/vfs.c`. Both copy with `strcpy`; the count they are given is not looked at. -/

namespace TitorOS.Barrel

inductive WriteFn where
  | tmpwrite | devWrite
  deriving DecidableEq, Repr

def Fs.write : Fs → Option WriteFn
  | .tmpfs => some .tmpwrite
  | .devfs => some .devWrite
  | .ext2fs => none

def write (fd : Fd) (node : Vnode) (count : UInt32) : Option (WriteFn × UInt32 × UInt32) :=
  if fd.mode = 0 then none
  else if fd.mode &&& 0b00000010 = 0 then none
  else
    match node.fs.write with
    | none => none
    | some func =>
        if fd.position + count > node.size ∧ node.size ≠ 0 then none
        else some (func, count, fd.position)

namespace Tmpfs

open TitorOS.Lib

abbrev Memory := Nat → UInt8

/-- More rounds than there are addresses. -/
def ADDRESSES : Nat := 2 ^ 32

/-- `strcpy`, one byte a round. The test reads the source again, after the store. -/
def strcpy : Nat → Nat → Nat → Memory → Option Memory
  | 0, _, _, _ => none
  | rounds + 1, dest, src, mem =>
      let mem := Function.update mem dest (mem src)
      if mem src ≠ 0 then strcpy rounds (dest + 1) (src + 1) mem else some mem

def tmpread (tmpfile buffer : Nat) (_count position : UInt32) (mem : Memory) : Option Memory :=
  strcpy ADDRESSES buffer (tmpfile + position.toNat) mem

def tmpwrite (tmpfile buffer : Nat) (_count position : UInt32) (mem : Memory) : Option Memory :=
  strcpy ADDRESSES (tmpfile + position.toNat) buffer mem

def readFile (tmpfile : Nat) (fd : Fd) (node : Vnode) (buf : Nat) (count : UInt32) (mem : Memory) :
    Option Memory :=
  (read fd node count).bind fun call =>
    if call.1 = .tmpread then tmpread tmpfile buf call.2.1 call.2.2 mem else none

def writeFile (tmpfile : Nat) (fd : Fd) (node : Vnode) (buf : Nat) (count : UInt32)
    (mem : Memory) : Option Memory :=
  (write fd node count).bind fun call =>
    if call.1 = .tmpwrite then tmpwrite tmpfile buf call.2.1 call.2.2 mem else none

def file (dirents : Nat) : Vnode :=
  { name := "file".toList
    flags := 0
    size := 0
    fs := .tmpfs
    inode := 0
    fsInstance := 0
    dirents := dirents }

/-- The page of the file, and two buffers of `n` bytes outside it. -/
structure Placed (tmpfile src dst n : Nat) : Prop where
  page : tmpfile + 4096 ≤ 2 ^ 32
  source : src + n ≤ tmpfile ∨ tmpfile + 4096 ≤ src ∧ src + n ≤ 2 ^ 32
  destination : dst + n ≤ tmpfile ∨ tmpfile + 4096 ≤ dst ∧ dst + n ≤ 2 ^ 32

/-- Wherever the page and the buffers are, and whatever else is in memory: `bytes` written
through a descriptor at a position are what a read there delivers; the write changes nothing
of the page besides, the read nothing of the destination. -/
def RoundTrip (bytes : List UInt8) (position : Nat) : Prop :=
  ∀ (mem : Memory) (tmpfile src dst dirents : Nat) (node : NodePtr),
    Placed tmpfile src dst bytes.length →
    (∀ i (inside : i < bytes.length), mem (src + i) = bytes[i]) →
      ∃ written result,
        writeFile tmpfile ⟨node, 3, UInt32.ofNat position⟩ (file dirents) src
          (UInt32.ofNat bytes.length) mem = some written ∧
        readFile tmpfile ⟨node, 3, UInt32.ofNat position⟩ (file dirents) dst
          (UInt32.ofNat bytes.length) written = some result ∧
        (∀ i (inside : i < bytes.length), result (dst + i) = bytes[i]) ∧
        (∀ i < 4096, i < position ∨ position + bytes.length ≤ i →
          written (tmpfile + i) = mem (tmpfile + i)) ∧
        ∀ i ≥ bytes.length, result (dst + i) = written (dst + i)

def Terminated (bytes : List UInt8) : Prop := ∃ text, bytes = text ++ [0] ∧ (0 : UInt8) ∉ text

section Copy

variable {mem : Memory} {dest src m rounds : Nat}

theorem strcpy_fill (text : ∀ i < m, mem (src + i) ≠ 0) (ended : mem (src + m) = 0)
    (apart : dest + m < src ∨ src + m < dest) (enough : m < rounds) :
    strcpy rounds dest src mem =
      some (fill (dest + ·) (fun i => mem (src + i)) (m + 1) mem) := by
  induction m generalizing dest src rounds mem with
  | zero =>
      obtain ⟨rounds, rfl⟩ := Nat.exists_eq_succ_of_ne_zero (Nat.ne_of_gt enough)
      have kept : Function.update mem dest (mem src) src = mem src :=
        Function.update_of_ne (by omega) _ _
      have last : ¬ mem src ≠ 0 := not_not_intro ended
      rw [strcpy, kept, if_neg last]
      rfl
  | succ m ih =>
      obtain ⟨rounds, rfl⟩ := Nat.exists_eq_succ_of_ne_zero (Nat.ne_of_gt (Nat.lt_of_le_of_lt
        (Nat.zero_le _) enough))
      have kept (i : Nat) (upto : i ≤ m + 1) :
          Function.update mem dest (mem src) (src + i) = mem (src + i) :=
        Function.update_of_ne (by omega) _ _
      have shift (i : Nat) : src + 1 + i = src + (i + 1) := by omega
      have here : Function.update mem dest (mem src) src = mem src := kept 0 (Nat.zero_le _)
      have first : mem src ≠ 0 := text 0 m.succ_pos
      have rest : fill (fun i => dest + 1 + i)
          (fun i => Function.update mem dest (mem src) (src + 1 + i)) (m + 1)
          (Function.update mem dest (mem src)) =
            fill (fun i => dest + (1 + i)) (fun i => mem (src + (1 + i))) (m + 1)
              (Function.update mem dest (mem src)) := by
        refine fill_congr (m + 1) _ (fun i _ => Nat.add_assoc dest 1 i) fun i below => ?_
        rw [shift, kept (i + 1) (by omega), Nat.add_comm 1 i]
      rw [strcpy, here, if_pos first, ih]
      · have whole := fill_add (dest + ·) (fun i => mem (src + i)) 1 (m + 1) mem
        rw [rest, Nat.add_comm (m + 1) 1, whole]
        rfl
      · intro i below
        rw [shift, kept (i + 1) (by omega)]
        exact text (i + 1) (by omega)
      · rw [shift, kept (m + 1) (Nat.le_refl _)]
        exact ended
      · omega
      · omega

theorem strcpy_copied (mem : Memory) (dest src m : Nat) (text : ∀ i < m, mem (src + i) ≠ 0)
    (ended : mem (src + m) = 0) (apart : dest + m < src ∨ src + m < dest)
    (enough : m < ADDRESSES) :
    ∃ result, strcpy ADDRESSES dest src mem = some result ∧
      (∀ i ≤ m, result (dest + i) = mem (src + i)) ∧
        ∀ a, a < dest ∨ dest + m < a → result a = mem a := by
  refine ⟨_, strcpy_fill text ended apart enough, ?_, ?_⟩
  · intro i upto
    refine fill_inside (dest + ·) (fun i => mem (src + i)) (m + 1) mem ?_ i (by omega)
    intro i _ j _ same
    exact Nat.add_left_cancel same
  · intro a outside
    refine fill_outside _ _ (m + 1) mem a fun i below => ?_
    omega

end Copy

section File

variable {tmpfile dirents buf position count : Nat} {node : NodePtr} {mem : Memory}

theorem readFile_file :
    readFile tmpfile ⟨node, 3, UInt32.ofNat position⟩ (file dirents) buf (UInt32.ofNat count) mem =
      strcpy ADDRESSES buf (tmpfile + (UInt32.ofNat position).toNat) mem := by
  have mode : (3 : UInt8) &&& 0b00000001 ≠ 0 := by decide
  simp [readFile, read, file, Fs.read, mode, tmpread]

theorem writeFile_file :
    writeFile tmpfile ⟨node, 3, UInt32.ofNat position⟩ (file dirents) buf (UInt32.ofNat count) mem =
      strcpy ADDRESSES (tmpfile + (UInt32.ofNat position).toNat) buf mem := by
  have mode : (3 : UInt8) &&& 0b00000010 ≠ 0 := by decide
  simp [writeFile, write, file, Fs.write, mode, tmpwrite]

end File

theorem position_toNat {bytes : List UInt8} {position : Nat}
    (inside : position + bytes.length ≤ 4096) : (UInt32.ofNat position).toNat = position :=
  UInt32.toNat_ofNat_of_lt' (by
    have small : 4096 < UInt32.size := by decide
    omega)

theorem Terminated.roundTrip {bytes : List UInt8} {position : Nat} (terminated : Terminated bytes)
    (inside : position + bytes.length ≤ 4096) : RoundTrip bytes position := by
  obtain ⟨text, rfl, whole⟩ := terminated
  intro mem tmpfile src dst dirents node placed loaded
  obtain ⟨page, source, destination⟩ := placed
  have length : (text ++ [0]).length = text.length + 1 := List.length_append
  rw [length] at inside source destination
  have stored (i : Nat) (below : i < text.length) : mem (src + i) ≠ 0 := by
    rw [loaded i (by omega), List.getElem_append_left below]
    intro zero
    exact whole (zero ▸ List.getElem_mem below)
  have ended : mem (src + text.length) = 0 := by
    rw [loaded text.length (by omega), List.getElem_concat_length rfl]
  have rounds : text.length < ADDRESSES := by
    unfold ADDRESSES
    omega
  obtain ⟨written, wrote, copied, kept⟩ := strcpy_copied mem (tmpfile + position) src text.length
    stored ended (by omega) rounds
  have again (i : Nat) (below : i < text.length) : written (tmpfile + position + i) ≠ 0 := by
    rw [copied i (by omega)]
    exact stored i below
  have endedAgain : written (tmpfile + position + text.length) = 0 := by
    rw [copied _ (Nat.le_refl _), ended]
  obtain ⟨result, got, delivered, left⟩ := strcpy_copied written dst (tmpfile + position)
    text.length again endedAgain (by omega) rounds
  refine ⟨written, result, ?_, ?_, ?_, ?_, ?_⟩
  · rw [writeFile_file, position_toNat (length ▸ inside)]
    exact wrote
  · rw [readFile_file, position_toNat (length ▸ inside)]
    exact got
  · intro i below
    rw [delivered i (by omega), copied i (by omega)]
    exact loaded i below
  · intro i small outside
    exact kept _ (by omega)
  · intro i beyond
    exact left _ (by omega)

/-- Memory with the bytes at one buffer, a NUL behind them, and at the other nothing that
belongs there. -/
def clashing (bytes : List UInt8) : Memory := fun a =>
  if a < 0x40002000 then bytes.getD (a - 0x40000000) 0
  else bytes.getD (a - 0x40002000) 0 + 1

section Clashing

variable {bytes : List UInt8} {position : Nat}

theorem clashing_source (inside : position + bytes.length ≤ 4096) (i : Nat)
    (upto : i ≤ bytes.length) : clashing bytes (0x40000000 + i) = bytes.getD i 0 := by
  rw [clashing, if_pos (by omega), Nat.add_sub_cancel_left]

theorem clashing_destination (i : Nat) :
    clashing bytes (0x40002000 + i) = bytes.getD i 0 + 1 := by
  rw [clashing, if_neg (by omega), Nat.add_sub_cancel_left]

theorem add_one_ne (byte : UInt8) : byte + 1 ≠ byte := by
  intro same
  have value := congrArg UInt8.toNat same
  have bound := byte.toNat_lt
  rw [UInt8.toNat_add] at value
  simp only [UInt8.reduceToNat] at value
  omega

/-- Only such strings come back: with the first NUL anywhere else, too little or too much is
copied. -/
theorem RoundTrip.terminated (trip : RoundTrip bytes position) (nonempty : 1 ≤ bytes.length)
    (inside : position + bytes.length ≤ 4096) : Terminated bytes := by
  have placed : Placed 0xc0400000 0x40000000 0x40002000 bytes.length :=
    ⟨by omega, .inl (by omega), .inl (by omega)⟩
  have loaded (i : Nat) (below : i < bytes.length) :
      clashing bytes (0x40000000 + i) = bytes[i] := by
    rw [clashing_source inside i (by omega), List.getD_eq_getElem _ _ below]
  obtain ⟨written, result, wrote, got, delivered, -, left⟩ :=
    trip (clashing bytes) 0xc0400000 0x40000000 0x40002000 0 .root placed loaded
  -- the copy ends at the first NUL, at the latest behind the bytes
  have behind : clashing bytes (0x40000000 + bytes.length) = 0 := by
    rw [clashing_source inside _ (Nat.le_refl _), List.getD_eq_default _ _ (Nat.le_refl _)]
  have nul : ∃ m, clashing bytes (0x40000000 + m) = 0 := ⟨bytes.length, behind⟩
  obtain ⟨m, ended, first⟩ : ∃ m, clashing bytes (0x40000000 + m) = 0 ∧
      ∀ i < m, clashing bytes (0x40000000 + i) ≠ 0 :=
    ⟨Nat.find nul, Nat.find_spec nul, fun i below => Nat.find_min nul below⟩
  have upto : m ≤ bytes.length := by
    by_contra past
    exact first bytes.length (by omega) behind
  have rounds : m < ADDRESSES := by
    unfold ADDRESSES
    omega
  rw [writeFile_file, position_toNat inside] at wrote
  rw [readFile_file, position_toNat inside] at got
  obtain ⟨page, stores, copied, kept⟩ := strcpy_copied (clashing bytes) (0xc0400000 + position)
    0x40000000 m first ended (by omega) rounds
  obtain rfl : written = page := Option.some.inj (wrote.symm.trans stores)
  have again (i : Nat) (below : i < m) : written (0xc0400000 + position + i) ≠ 0 := by
    rw [copied i (by omega)]
    exact first i below
  have endedAgain : written (0xc0400000 + position + m) = 0 := by
    rw [copied m (Nat.le_refl m), ended]
  obtain ⟨final, loads, filled, same⟩ := strcpy_copied written 0x40002000 (0xc0400000 + position) m
    again endedAgain (by omega) rounds
  obtain rfl : result = final := Option.some.inj (got.symm.trans loads)
  have untouched (i : Nat) (beyond : m < i) (near : i ≤ 4096) :
      result (0x40002000 + i) = bytes.getD i 0 + 1 := by
    rw [same _ (by omega), kept _ (by omega), clashing_destination]
  have short : m + 1 = bytes.length := by
    by_contra other
    rcases Nat.lt_or_ge (m + 1) bytes.length with early | late
    · -- the last byte was not copied
      have last := delivered (bytes.length - 1) (by omega)
      rw [untouched _ (by omega) (by omega), List.getD_eq_getElem _ _ (by omega)] at last
      exact add_one_ne _ last
    · -- the byte behind was
      obtain rfl : m = bytes.length := by omega
      have next := left bytes.length (Nat.le_refl _)
      rw [filled _ (Nat.le_refl _), endedAgain, kept _ (by omega), clashing_destination,
        List.getD_eq_default _ _ (Nat.le_refl _)] at next
      exact absurd next (by decide)
  have notNil : bytes ≠ [] := List.ne_nil_of_length_pos (by omega)
  have final : bytes.getLast notNil = 0 := by
    rw [List.getLast_eq_getElem]
    have index : bytes.length - 1 = m := by omega
    rw [← loaded _ (by omega), index, ended]
  refine ⟨bytes.dropLast, ?_, ?_⟩
  · rw [← final, List.dropLast_concat_getLast]
  · intro member
    obtain ⟨i, below, zero⟩ := List.getElem_of_mem member
    rw [List.length_dropLast] at below
    rw [List.getElem_dropLast, ← loaded i (by omega)] at zero
    exact first i (by omega) zero

end Clashing

/-- For all bytes and positions in the page: the round trip holds exactly for a string with
its terminator. -/
theorem roundTrip_iff (bytes : List UInt8) (position : Nat) (nonempty : 1 ≤ bytes.length)
    (inside : position + bytes.length ≤ 4096) : RoundTrip bytes position ↔ Terminated bytes :=
  ⟨fun trip => trip.terminated nonempty inside, fun terminated => terminated.roundTrip inside⟩

def shellString : List UInt8 := [0x59, 0x4f, 0x20, 0x48, 0x45, 0x4c, 0x4c, 0x4f, 0]

theorem shellString_roundTrip : shellString.length = 9 ∧ RoundTrip shellString 0 :=
  ⟨rfl, (roundTrip_iff shellString 0 (by decide) (by decide)).mpr
    ⟨[0x59, 0x4f, 0x20, 0x48, 0x45, 0x4c, 0x4c, 0x4f], rfl, by decide⟩⟩

theorem unterminated_overrun :
    ¬ ∀ (bytes : List UInt8) (position : Nat), 1 ≤ bytes.length → position + bytes.length ≤ 4096 →
      RoundTrip bytes position := by
  intro claim
  obtain ⟨text, same, whole⟩ := (claim [1, 2] 0 (by decide) (by decide)).terminated (by decide)
    (by decide)
  have last := congrArg List.getLast? same
  rw [List.getLast?_concat] at last
  exact absurd last (by decide)

end Tmpfs

end TitorOS.Barrel
