import TitorOS.Barrel.Walk
import TitorOS.Stage2.Bios

/-! The boot sector: `boot/bootstrap.asm` and `boot/diskio.asm`, with the page tables of
`boot/pdt.asm` that it loads and the first stores of `init_vmm`. All of memory can be addressed
(A20 is on); the stack and what the BIOS keeps lie below 0x8000 and are left out. -/

namespace TitorOS.Barrel.Bootstrap

open TitorOS.Lib TitorOS.Lib.Word TitorOS.Barrel.Vmm
open TitorOS.Stage2 (Memory Sector int13 Chs)

/-- The boot drive: its heads, with 63 sectors on a track, and its sectors, counted from 1.
`none` is a sector that cannot be read. -/
structure Drive where
  dl : UInt8
  heads : Nat
  image : Nat → Option Sector

theorem signed_le (al : UInt8) : al.toInt8 ≤ 63 ↔ al.toNat < 64 ∨ 128 ≤ al.toNat := by
  have bound := al.toNat_lt
  rw [Int8.le_iff_toBitVec_sle, BitVec.sle_iff_toInt_le, UInt8.toBitVec_toInt8,
    BitVec.toInt_eq_toNat_cond, UInt8.toNat_toBitVec, show (63 : Int8).toBitVec.toInt = 63 from rfl]
  split
  · omega
  · omega

theorem sub_track {al : UInt8} (more : 63 ≤ al.toNat) : (al - 63).toNat = al.toNat - 63 :=
  UInt8.toNat_sub_of_le al 63 (UInt8.le_iff_toNat_le.mpr more)

/-- The loop at `sethead`: the sector and the head for a number in `al`. The comparison is signed. -/
def sethead (al dh : UInt8) : UInt8 × UInt8 :=
  if al.toInt8 ≤ 63 then (al, dh) else sethead (al - 63) (dh + 1)
termination_by al.toNat
decreasing_by
  rename_i more
  rw [signed_le] at more
  rw [sub_track (by omega)]
  omega

/-- The sector that `read` asks the BIOS for. -/
def requested (drive : Drive) (al : UInt8) : Option Nat :=
  let place := sethead al 0
  (int13 place.1.toUInt32 (place.2.toUInt32 <<< 8 ||| drive.dl.toUInt32)).number drive.heads

def sectorAt (drive : Drive) (al : UInt8) : Option Sector :=
  (requested drive al).bind drive.image

/-- `none` is the message of `disk_error`, after which the machine hangs. -/
def read (drive : Drive) (al : UInt8) (mem : Memory) : Option Memory :=
  (sectorAt drive al).map fun sector => fill (fun i => 0x8000 + UInt32.ofNat i) sector.byte 512 mem

/-- `rep movsb`. -/
def movsb (esi edi : UInt32) : Nat → Memory → Memory
  | 0, mem => mem
  | ecx + 1, mem => movsb (esi + 1) (edi + 1) ecx (Function.update mem edi (mem esi))

/-- The loop at `offset`. -/
def offset (edi : UInt32) : Nat → UInt32
  | 0 => edi
  | bl + 1 => offset (edi + 512) bl

/-- The loop of `shoot`; `bh` is back at any value after 256 rounds. -/
def readloop (drive : Drive) (ah : UInt8) (edx : UInt32) :
    Nat → UInt8 → UInt8 → Memory → Option Memory
  | 0, _, _, _ => none
  | rounds + 1, al, bh, mem =>
      (read drive al mem).bind fun mem =>
        let mem := movsb 0x8000 (offset edx bh.toNat) 512 mem
        if bh + 1 = ah then some mem else readloop drive ah edx rounds (al + 1) (bh + 1) mem

def shoot (drive : Drive) (al ah : UInt8) (edx : UInt32) (mem : Memory) : Option Memory :=
  readloop drive ah edx 256 al 0 mem

def KERNEL_OFFSET : UInt32 := 0x200000
def KERNEL_SIZE : UInt8 := 48
def PDT_OFFSET : UInt32 := 0x300000
def NO_TABLES : UInt8 := 3

/-- The kernel, then the page tables. -/
def bootstrap (drive : Drive) (mem : Memory) : Option Memory :=
  (shoot drive (2 + 8 * NO_TABLES) KERNEL_SIZE KERNEL_OFFSET mem).bind
    (shoot drive 2 (8 * NO_TABLES) PDT_OFFSET)

/-! The page tables. -/

def CODE_PT : Nat := 0x301000
def HEAP_PT : Nat := 0x302000
def FLAGS : Nat := 0b100000000011

/-- Entry `i` of the directory at `pdt`. -/
def pdtEntry (i : Nat) : Nat :=
  let address := i * 0x400000
  if address = 0 ∨ address = 0xc0000000 then CODE_PT + FLAGS
  else if address = 0xc0400000 then HEAP_PT + FLAGS
  else 0

/-- Word `w` of `pdt.bin`: the directory, `code_pt` and `heap_pt`. -/
def pdtWord (w : Nat) : Nat :=
  if w < 1024 then pdtEntry w else if w < 2048 then (w - 1024) * 0x1000 + FLAGS else 0

def pdtByte (k : Nat) : UInt8 := UInt8.ofNat (pdtWord (k / 4) / 256 ^ (k % 4))

/-- Behind the boot sector comes `pdt.bin`, as the Makefile has it. -/
def OnDisk (drive : Drive) : Prop :=
  ∀ j < 24, ∃ sector, drive.image (2 + j) = some sector ∧
    ∀ i < 512, sector.byte i = pdtByte (512 * j + i)

/-- Memory in words, as the processor reads its page tables. -/
def wordsOf (mem : Memory) : Mem := fun f i =>
  let a := UInt32.ofNat (f.toNat * 4096 + i.toNat * 4)
  BitVec.ofNat 32 ((mem a).toNat + 256 * (mem (a + 1)).toNat + 65536 * (mem (a + 2)).toNat +
    16777216 * (mem (a + 3)).toNat)

def PDT_LOCATION : BitVec 32 := 0xc0300000

def storeWord (cr3 : Frame) (vaddr : BitVec 32) (w : Word) (mem : Mem) : Option Mem :=
  (walk mem cr3 vaddr).map fun (paddr : Word) =>
    Function.update mem paddr.frame
      (Function.update (mem paddr.frame) ((paddr >>> 2).setWidth 10) w)

/-- The two stores of `init_vmm`, through the page tables that are loaded. -/
def initVmmStores (mem : Mem) : Option Mem :=
  (storeWord 0x300#20 (PDT_LOCATION + 1023 * 4) (0x0300000 + 0b100000000011) mem).bind
    (storeWord 0x300#20 PDT_LOCATION 0)

/-! Which sectors are asked for. -/

theorem sethead_small {al dh : UInt8} (small : al.toNat < 64 ∨ 128 ≤ al.toNat) :
    sethead al dh = (al, dh) := by
  rw [sethead, if_pos ((signed_le al).mpr small)]

theorem sethead_large {al dh : UInt8} (large : 64 ≤ al.toNat ∧ al.toNat < 128) :
    sethead al dh = sethead (al - 63) (dh + 1) := by
  rw [sethead, if_neg]
  rw [signed_le]
  omega

theorem toNat_edx (dh dl : UInt8) :
    (dh.toUInt32 <<< 8 ||| dl.toUInt32).toNat = dh.toNat * 256 + dl.toNat := by
  have bound := dl.toNat_lt
  have bound' := dh.toNat_lt
  have shifted : (dh.toUInt32 <<< 8).toNat = dh.toNat <<< 8 := by
    rw [UInt32.toNat_shiftLeft, UInt8.toNat_toUInt32, show (8 : UInt32).toNat % 32 = 8 from rfl,
      Nat.shiftLeft_eq, Nat.mod_eq_of_lt (by omega)]
  rw [UInt32.toNat_or, shifted, UInt8.toNat_toUInt32, ← Nat.shiftLeft_add_eq_or_of_lt bound,
    Nat.shiftLeft_eq]

theorem number_place (heads : Nat) (cl dh dl : UInt8) :
    (int13 cl.toUInt32 (dh.toUInt32 <<< 8 ||| dl.toUInt32)).number heads =
      if cl.toNat % 64 ≠ 0 ∧ dh.toNat < heads then
        some ((cl.toNat / 64 * 256 * heads + dh.toNat) * 63 + cl.toNat % 64)
      else none := by
  have bound := cl.toNat_lt
  have bound' := dh.toNat_lt
  have bound'' := dl.toNat_lt
  have cylinder : cl.toNat / 256 % 256 + cl.toNat / 64 % 4 * 256 = cl.toNat / 64 * 256 := by omega
  have head : (dh.toNat * 256 + dl.toNat) / 256 % 256 = dh.toNat := by omega
  simp only [Chs.number, int13, UInt8.toNat_toUInt32, toNat_edx, cylinder, head]

theorem requested_place (drive : Drive) {al cl dh : UInt8} (place : sethead al 0 = (cl, dh)) :
    requested drive al = if cl.toNat % 64 ≠ 0 ∧ dh.toNat < drive.heads then
      some ((cl.toNat / 64 * 256 * drive.heads + dh.toNat) * 63 + cl.toNat % 64) else none := by
  rw [requested, place]
  exact number_place drive.heads cl dh drive.dl

theorem requested_head (drive : Drive) {al cl dh : UInt8} {h : Nat}
    (place : sethead al 0 = (cl, dh)) (head : dh.toNat = h)
    (sector : cl.toNat + 63 * h = al.toNat) (inside : 1 ≤ cl.toNat ∧ cl.toNat ≤ 63) :
    requested drive al = if (al.toNat - 1) / 63 < drive.heads then some al.toNat else none := by
  have first : (al.toNat - 1) / 63 = h := by omega
  have small : cl.toNat % 64 = cl.toNat := by omega
  have none : cl.toNat / 64 = 0 := by omega
  have number : h * 63 + cl.toNat = al.toNat := by omega
  rw [requested_place drive place, first, small, none, head]
  simp only [Nat.zero_mul, Nat.zero_add, number]
  exact if_congr (and_iff_right (by omega)) rfl rfl

theorem requested_upto (drive : Drive) {al : UInt8} (some_ : 1 ≤ al.toNat) (low : al.toNat ≤ 127) :
    requested drive al = if (al.toNat - 1) / 63 < drive.heads then some al.toNat else none := by
  by_cases zeroth : al.toNat < 64
  · exact requested_head drive (sethead_small (.inl zeroth)) rfl (by simp) (by omega)
  have once : (al - 63).toNat = al.toNat - 63 := sub_track (by omega)
  have next : sethead al 0 = sethead (al - 63) (0 + 1) := sethead_large (by omega)
  by_cases first : al.toNat < 127
  · have place := next.trans (sethead_small (by omega))
    exact requested_head drive (h := 1) place rfl (by omega) (by omega)
  · have twice : (al - 63 - 63).toNat = al.toNat - 63 - 63 := by
      rw [sub_track (by omega), once]
    have place := (next.trans (sethead_large (by omega))).trans (sethead_small (by omega))
    exact requested_head drive (h := 2) place rfl (by omega) (by omega)

theorem requested_iff (drive : Drive) (al : UInt8) :
    requested drive al = some al.toNat ↔
      1 ≤ al.toNat ∧ al.toNat ≤ 127 ∧ (al.toNat - 1) / 63 < drive.heads := by
  by_cases range : 1 ≤ al.toNat ∧ al.toNat ≤ 127
  · rw [requested_upto drive range.1 range.2, Option.ite_none_right_eq_some]
    simp [range]
  · -- the number goes into `cl` as it is, where bits 6 and 7 mean a cylinder
    have low : al.toNat < 64 ∨ 128 ≤ al.toNat := by omega
    refine ⟨?_, fun right => absurd ⟨right.1, right.2.1⟩ range⟩
    rw [requested_place drive (sethead_small low), Option.ite_none_right_eq_some]
    rintro ⟨⟨sector, head⟩, number⟩
    have far : 2 ≤ al.toNat / 64 := by omega
    have heads : 1 ≤ drive.heads := by
      rw [UInt8.toNat_zero] at head
      exact head
    have product : 2 * 256 * 1 ≤ al.toNat / 64 * 256 * drive.heads :=
      Nat.mul_le_mul (Nat.mul_le_mul_right 256 far) heads
    have bound := al.toNat_lt
    have same := Option.some.inj number
    omega

/-! What `shoot` leaves in memory. -/

theorem toNat_at {base : UInt32} {k : Nat} (bound : base.toNat + k < 2 ^ 32) :
    (base + UInt32.ofNat k).toNat = base.toNat + k := by
  rw [UInt32.toNat_add, UInt32.toNat_ofNat_of_lt' (by simp only [UInt32.size]; omega),
    Nat.mod_eq_of_lt bound]

theorem add_one_add (base : UInt32) (k : Nat) :
    base + 1 + UInt32.ofNat k = base + UInt32.ofNat (1 + k) := by
  rw [UInt32.add_assoc, UInt32.ofNat_add]
  rfl

theorem offset_succ (edi : UInt32) (bl : Nat) : offset edi (bl + 1) = offset (edi + 512) bl := by
  conv => lhs; unfold offset

theorem offset_eq (edi : UInt32) (bl : Nat) : offset edi bl = edi + UInt32.ofNat (512 * bl) := by
  induction bl generalizing edi with
  | zero => exact (UInt32.add_zero edi).symm
  | succ bl ih =>
      rw [offset_succ, ih, UInt32.add_assoc, Nat.mul_succ, Nat.add_comm (512 * bl), UInt32.ofNat_add]
      rfl

theorem movsb_fill (esi edi : UInt32) (n : Nat) (mem : Memory)
    (apart : ∀ i < n, ∀ j < n, edi + UInt32.ofNat i ≠ esi + UInt32.ofNat j) :
    movsb esi edi n mem =
      fill (fun i => edi + UInt32.ofNat i) (fun i => mem (esi + UInt32.ofNat i)) n mem := by
  induction n generalizing esi edi mem with
  | zero => rfl
  | succ n ih =>
      rw [movsb, ih, Nat.add_comm n 1, fill_add]
      · have first : fill (fun i => edi + UInt32.ofNat i) (fun i => mem (esi + UInt32.ofNat i)) 1 mem =
            Function.update mem edi (mem esi) := by
          simp [fill]
        rw [first]
        refine fill_congr n _ (fun i _ => add_one_add edi i) ?_
        intro i inside
        rw [add_one_add, Function.update_of_ne]
        have zeroth := apart 0 (by omega) (1 + i) (by omega)
        simpa using zeroth.symm
      · intro i first j second
        rw [add_one_add, add_one_add]
        exact apart (1 + i) (by omega) (1 + j) (by omega)

theorem copied_sector (edi : UInt32) (mem : Memory) (value : Nat → UInt8)
    (high : 0x8200 ≤ edi.toNat) (fits : edi.toNat + 512 ≤ 2 ^ 32) :
    (∀ j < 512, movsb 0x8000 edi 512 (fill (fun i => 0x8000 + UInt32.ofNat i) value 512 mem)
      (edi + UInt32.ofNat j) = value j) ∧
    ∀ a : UInt32, 0x8200 ≤ a.toNat → (∀ j < 512, edi + UInt32.ofNat j ≠ a) →
      movsb 0x8000 edi 512 (fill (fun i => 0x8000 + UInt32.ofNat i) value 512 mem) a = mem a := by
  have source (j : Nat) (inside : j < 512) : (0x8000 + UInt32.ofNat j).toNat = 0x8000 + j :=
    toNat_at (by rw [show (0x8000 : UInt32).toNat = 0x8000 from rfl]; omega)
  have target (j : Nat) (inside : j < 512) : (edi + UInt32.ofNat j).toNat = edi.toNat + j :=
    toNat_at (by omega)
  have apart (i : Nat) (first : i < 512) (j : Nat) (second : j < 512) :
      edi + UInt32.ofNat i ≠ 0x8000 + UInt32.ofNat j := by
    intro same
    have number := congrArg UInt32.toNat same
    rw [target i first, source j second] at number
    omega
  have distinct (i : Nat) (first : i < 512) (j : Nat) (second : j < 512)
      (same : edi + UInt32.ofNat i = edi + UInt32.ofNat j) : i = j := by
    have number := congrArg UInt32.toNat same
    rw [target i first, target j second] at number
    omega
  have distinct' (i : Nat) (first : i < 512) (j : Nat) (second : j < 512)
      (same : 0x8000 + UInt32.ofNat i = 0x8000 + UInt32.ofNat j) : i = j := by
    have number := congrArg UInt32.toNat same
    rw [source i first, source j second] at number
    omega
  rw [movsb_fill _ _ _ _ apart]
  constructor
  · intro j inside
    rw [fill_inside _ _ 512 _ distinct j inside, fill_inside _ value 512 _ distinct' j inside]
  · intro a above outside
    rw [fill_outside _ _ 512 _ a outside, fill_outside]
    intro i inside same
    have number := congrArg UInt32.toNat same
    rw [source i inside] at number
    omega

section Shoot

variable {drive : Drive} {al ah bh : UInt8} {edx : UInt32} {mem m : Memory}

/-- `left` sectors from number `al` on, at `edx` behind the `done` ones before. -/
structure Shot (drive : Drive) (al : UInt8) (edx : UInt32) (done left : Nat) (mem m : Memory) :
    Prop where
  content : ∀ i < left, ∃ sector, sectorAt drive (al + UInt8.ofNat i) = some sector ∧
    ∀ j < 512, m (edx + UInt32.ofNat (512 * (done + i) + j)) = sector.byte j
  frame : ∀ a : UInt32, 0x8200 ≤ a.toNat →
    (∀ k, 512 * done ≤ k → k < 512 * (done + left) → edx + UInt32.ofNat k ≠ a) → m a = mem a

/-- One round: the sector in `al` to the place for number `bh`. -/
def shootSector (edx : UInt32) (bh : UInt8) (sector : Sector) (mem : Memory) : Memory :=
  movsb 0x8000 (edx + UInt32.ofNat (512 * bh.toNat)) 512
    (fill (fun i => 0x8000 + UInt32.ofNat i) sector.byte 512 mem)

theorem readloop_succ (rounds : Nat) :
    readloop drive ah edx (rounds + 1) al bh mem =
      (sectorAt drive al).bind fun sector =>
        if bh + 1 = ah then some (shootSector edx bh sector mem)
        else readloop drive ah edx rounds (al + 1) (bh + 1) (shootSector edx bh sector mem) := by
  conv => lhs; unfold readloop
  rw [read, Option.bind_map]
  refine congrArg (Option.bind _) (funext fun sector => ?_)
  simp only [Function.comp_apply, shootSector, offset_eq]

theorem next_bh {left : Nat} (count : bh.toNat + (left + 1) = ah.toNat) :
    (bh + 1).toNat = bh.toNat + 1 := by
  have bound := ah.toNat_lt
  rw [UInt8.toNat_add, UInt8.toNat_one]
  omega

theorem last_bh {left : Nat} (count : bh.toNat + (left + 1) = ah.toNat) :
    bh + 1 = ah ↔ left = 0 := by
  rw [← UInt8.toNat_inj, next_bh count]
  omega

theorem next_al (al : UInt8) (i : Nat) : al + 1 + UInt8.ofNat i = al + UInt8.ofNat (i + 1) := by
  rw [UInt8.add_assoc, Nat.add_comm i 1, UInt8.ofNat_add]
  rfl

theorem readloop_isSome (left rounds : Nat) (al bh : UInt8) (mem : Memory)
    (count : bh.toNat + (left + 1) = ah.toNat) (enough : left < rounds) :
    (readloop drive ah edx rounds al bh mem).isSome = true ↔
      ∀ i < left + 1, (sectorAt drive (al + UInt8.ofNat i)).isSome = true := by
  induction left generalizing rounds al bh mem with
  | zero =>
      obtain ⟨rounds, rfl⟩ := Nat.exists_eq_add_of_le' enough
      have only : (∀ i < 0 + 1, (sectorAt drive (al + UInt8.ofNat i)).isSome = true) ↔
          (sectorAt drive al).isSome = true := by
        refine ⟨fun all => by simpa using all 0 (by decide), fun here i first => ?_⟩
        obtain rfl : i = 0 := by omega
        simpa using here
      rw [only, readloop_succ]
      cases found : sectorAt drive al with
      | none => rfl
      | some sector => simp [(last_bh count).mpr rfl]
  | succ left ih =>
      obtain ⟨rounds, rfl⟩ := Nat.exists_eq_add_of_le' (Nat.zero_lt_of_lt enough)
      have onward : ¬ bh + 1 = ah := by
        rw [last_bh count]
        omega
      rw [readloop_succ]
      cases found : sectorAt drive al with
      | none =>
          refine ⟨fun never => (Bool.false_ne_true never).elim, fun all => ?_⟩
          have here := all 0 (by omega)
          simp [found] at here
      | some sector =>
          rw [Option.bind_some, if_neg onward, ih rounds _ _ _ (by rw [next_bh count]; omega) (by omega)]
          constructor
          · intro later i inside
            cases i with
            | zero => simp [found]
            | succ i =>
                rw [← next_al]
                exact later i (by omega)
          · intro all i inside
            rw [next_al]
            exact all (i + 1) (by omega)

theorem shootSector_spec (mem : Memory) (sector : Sector) {left : Nat} (count : bh.toNat + (left + 1) = ah.toNat)
    (high : 0x8200 ≤ edx.toNat) (fits : edx.toNat + 512 * ah.toNat ≤ 2 ^ 32) :
    (∀ j < 512, shootSector edx bh sector mem (edx + UInt32.ofNat (512 * bh.toNat + j)) =
      sector.byte j) ∧
    ∀ a : UInt32, 0x8200 ≤ a.toNat → (∀ j < 512, edx + UInt32.ofNat (512 * bh.toNat + j) ≠ a) →
      shootSector edx bh sector mem a = mem a := by
  have start : (edx + UInt32.ofNat (512 * bh.toNat)).toNat = edx.toNat + 512 * bh.toNat :=
    toNat_at (by omega)
  have place (j : Nat) : edx + UInt32.ofNat (512 * bh.toNat) + UInt32.ofNat j =
      edx + UInt32.ofNat (512 * bh.toNat + j) := by
    rw [UInt32.add_assoc, UInt32.ofNat_add]
  have copied := copied_sector (edx + UInt32.ofNat (512 * bh.toNat)) mem sector.byte
    (by omega) (by omega)
  simp only [place] at copied
  exact copied

theorem readloop_shot (left rounds : Nat) (al bh : UInt8) (mem : Memory)
    (count : bh.toNat + (left + 1) = ah.toNat) (enough : left < rounds)
    (high : 0x8200 ≤ edx.toNat) (fits : edx.toNat + 512 * ah.toNat ≤ 2 ^ 32)
    (result : readloop drive ah edx rounds al bh mem = some m) :
    Shot drive al edx bh.toNat (left + 1) mem m := by
  induction left generalizing rounds al bh mem with
  | zero =>
      obtain ⟨rounds, rfl⟩ := Nat.exists_eq_add_of_le' enough
      rw [readloop_succ] at result
      rcases Option.bind_eq_some_iff.mp result with ⟨sector, found, stored⟩
      rw [if_pos ((last_bh count).mpr rfl)] at stored
      rcases Option.some.inj stored with rfl
      obtain ⟨content, frame⟩ := shootSector_spec mem sector count high fits
      constructor
      · intro i first
        obtain rfl : i = 0 := by omega
        exact ⟨sector, by simpa using found, content⟩
      · intro a above outside
        exact frame a above fun j inside => outside _ (by omega) (by omega)
  | succ left ih =>
      obtain ⟨rounds, rfl⟩ := Nat.exists_eq_add_of_le' (Nat.zero_lt_of_lt enough)
      have onward : ¬ bh + 1 = ah := by
        rw [last_bh count]
        omega
      rw [readloop_succ] at result
      rcases Option.bind_eq_some_iff.mp result with ⟨sector, found, later⟩
      rw [if_neg onward] at later
      have next := next_bh count
      have rest := ih rounds _ _ _ (by omega) (by omega) later
      rw [next] at rest
      obtain ⟨content, frame⟩ := shootSector_spec mem sector count high fits
      constructor
      · intro i first
        cases i with
        | zero =>
            refine ⟨sector, by simpa using found, fun j inside => ?_⟩
            have number : (edx + UInt32.ofNat (512 * bh.toNat + j)).toNat =
                edx.toNat + (512 * bh.toNat + j) := toNat_at (by omega)
            rw [Nat.add_zero]
            refine (rest.frame _ (by omega) fun k from_ upto same => ?_).trans (content j inside)
            have other := congrArg UInt32.toNat same
            rw [number, toNat_at (by omega)] at other
            omega
        | succ i =>
            obtain ⟨there, found', content'⟩ := rest.content i (by omega)
            refine ⟨there, by rwa [next_al] at found', fun j inside => ?_⟩
            have place : 512 * (bh.toNat + (i + 1)) + j = 512 * (bh.toNat + 1 + i) + j := by omega
            rw [place]
            exact content' j inside
      · intro a above outside
        refine (rest.frame a above fun k from_ upto => ?_).trans
          (frame a above fun j inside => ?_)
        · exact outside k (by omega) (by omega)
        · exact outside _ (by omega) (by omega)

theorem shoot_spec (drive : Drive) (al ah : UInt8) (edx : UInt32) (mem : Memory) (some_ : ah ≠ 0)
    (high : 0x8200 ≤ edx.toNat) (fits : edx.toNat + 512 * ah.toNat ≤ 2 ^ 32) :
    ((shoot drive al ah edx mem).isSome = true ↔
      ∀ i < ah.toNat, (sectorAt drive (al + UInt8.ofNat i)).isSome = true) ∧
    ∀ m, shoot drive al ah edx mem = some m → Shot drive al edx 0 ah.toNat mem m := by
  have positive : ah.toNat ≠ 0 := fun zero => some_ (UInt8.toNat_inj.mp zero)
  obtain ⟨left, count⟩ := Nat.exists_eq_succ_of_ne_zero positive
  have bound := ah.toNat_lt
  have start : (0 : UInt8).toNat + (left + 1) = ah.toNat := by
    rw [UInt8.toNat_zero, count, Nat.zero_add]
  rw [count]
  refine ⟨readloop_isSome left 256 al 0 mem start (by omega), fun m result => ?_⟩
  exact readloop_shot left 256 al 0 mem start (by omega) high fits result

end Shoot

/-! The boot. -/

/-- Sector `n` of the drive can be read. -/
def Drive.Reads (drive : Drive) (n : Nat) : Prop := (drive.image n).isSome = true

theorem sectorAt_upto (drive : Drive) {al : UInt8} (some_ : 1 ≤ al.toNat) (low : al.toNat ≤ 127)
    (head : (al.toNat - 1) / 63 < drive.heads) : sectorAt drive al = drive.image al.toNat := by
  rw [sectorAt, requested_upto drive some_ low, if_pos head, Option.bind_some]

theorem bootstrap_spec (drive : Drive) (mem : Memory) (heads : 2 ≤ drive.heads) :
    ((bootstrap drive mem).isSome = true ↔ ∀ n, 2 ≤ n → n < 74 → drive.Reads n) ∧
    ∀ m, bootstrap drive mem = some m →
      (∀ i < 48, ∃ sector, drive.image (26 + i) = some sector ∧
        ∀ j < 512, m (KERNEL_OFFSET + UInt32.ofNat (512 * i + j)) = sector.byte j) ∧
      ∀ i < 24, ∃ sector, drive.image (2 + i) = some sector ∧
        ∀ j < 512, m (PDT_OFFSET + UInt32.ofNat (512 * i + j)) = sector.byte j := by
  have kernel (i : Nat) (inside : i < 48) :
      sectorAt drive (2 + 8 * NO_TABLES + UInt8.ofNat i) = drive.image (26 + i) := by
    have number : (2 + 8 * NO_TABLES + UInt8.ofNat i).toNat = 26 + i := by
      rw [UInt8.toNat_add, UInt8.toNat_ofNat_of_lt' (by simp only [UInt8.size]; omega),
        show (2 + 8 * NO_TABLES).toNat = 26 from rfl]
      omega
    rw [sectorAt_upto drive (by omega) (by omega) (by omega), number]
  have tables (i : Nat) (inside : i < 24) :
      sectorAt drive (2 + UInt8.ofNat i) = drive.image (2 + i) := by
    have number : (2 + UInt8.ofNat i).toNat = 2 + i := by
      rw [UInt8.toNat_add, UInt8.toNat_ofNat_of_lt' (by simp only [UInt8.size]; omega),
        show (2 : UInt8).toNat = 2 from rfl]
      omega
    rw [sectorAt_upto drive (by omega) (by omega) (by omega), number]
  have first := shoot_spec drive (2 + 8 * NO_TABLES) KERNEL_SIZE KERNEL_OFFSET mem (by decide)
    (by decide) (by decide)
  have second (mem : Memory) := shoot_spec drive 2 (8 * NO_TABLES) PDT_OFFSET mem (by decide)
    (by decide) (by decide)
  have size : KERNEL_SIZE.toNat = 48 := rfl
  have count : (8 * NO_TABLES).toNat = 24 := rfl
  have kernelAt : KERNEL_OFFSET.toNat = 0x200000 := rfl
  have tablesAt : PDT_OFFSET.toNat = 0x300000 := rfl
  rw [size] at first
  simp only [count] at second
  constructor
  · constructor
    · intro returns n low high
      rcases Option.isSome_iff_exists.mp returns with ⟨m, result⟩
      rcases Option.bind_eq_some_iff.mp result with ⟨m₁, loaded, stored⟩
      by_cases table : n < 26
      · have read := (second m₁).1.mp (by rw [stored]; rfl) (n - 2) (by omega)
        rwa [tables _ (by omega), show 2 + (n - 2) = n by omega] at read
      · have read := first.1.mp (by rw [loaded]; rfl) (n - 26) (by omega)
        rwa [kernel _ (by omega), show 26 + (n - 26) = n by omega] at read
    · intro all
      have loads := first.1.mpr fun i inside => by
        rw [kernel i inside]
        exact all _ (by omega) (by omega)
      rcases Option.isSome_iff_exists.mp loads with ⟨m₁, loaded⟩
      rw [bootstrap, loaded, Option.bind_some, (second m₁).1]
      intro i inside
      rw [tables i inside]
      exact all _ (by omega) (by omega)
  · intro m result
    rcases Option.bind_eq_some_iff.mp result with ⟨m₁, loaded, stored⟩
    have shot := first.2 m₁ loaded
    have shot' := (second m₁).2 m stored
    constructor
    · intro i inside
      obtain ⟨sector, found, content⟩ := shot.content i inside
      refine ⟨sector, (kernel i inside).symm.trans found, fun j within => ?_⟩
      have place : (KERNEL_OFFSET + UInt32.ofNat (512 * i + j)).toNat =
          KERNEL_OFFSET.toNat + (512 * i + j) := toNat_at (by omega)
      have kept := shot'.frame (KERNEL_OFFSET + UInt32.ofNat (512 * i + j)) (by omega)
        fun k _ upto same => by
          have number := congrArg UInt32.toNat same
          rw [place, toNat_at (by omega)] at number
          omega
      rw [kept]
      simpa using content j within
    · intro i inside
      obtain ⟨sector, found, content⟩ := shot'.content i inside
      refine ⟨sector, (tables i inside).symm.trans found, fun j within => ?_⟩
      simpa using content j within

/-- The tables of `pdt.bin` in the frames from 0x300 on. -/
structure TablesAt (mem : Mem) : Prop where
  directory : ∀ i, mem 0x300#20 i = BitVec.ofNat 32 (pdtEntry i.toNat)
  code : ∀ i, mem 0x301#20 i = BitVec.ofNat 32 (i.toNat * 0x1000 + FLAGS)
  heap : ∀ i, mem 0x302#20 i = 0#32

theorem pdtEntry_eq (i : Nat) : pdtEntry i =
    if i = 0 ∨ i = 768 then 0x301803 else if i = 769 then 0x302803 else 0 := by
  have first : i * 0x400000 = 0 ↔ i = 0 := by omega
  have kernel : i * 0x400000 = 0xc0000000 ↔ i = 768 := by omega
  have heap : i * 0x400000 = 0xc0400000 ↔ i = 769 := by omega
  simp only [pdtEntry, first, kernel, heap, CODE_PT, HEAP_PT, FLAGS]

theorem pdtWord_lt {w : Nat} (inside : w < 3072) : pdtWord w < 2 ^ 32 := by
  rw [pdtWord, pdtEntry_eq, FLAGS]
  split
  · split
    · decide
    · split <;> decide
  · split <;> omega

theorem pdtByte_toNat (w : Nat) {j : Nat} (small : j < 4) :
    (pdtByte (4 * w + j)).toNat = pdtWord w / 256 ^ j % 256 := by
  have word : (4 * w + j) / 4 = w := by omega
  have byte : (4 * w + j) % 4 = j := by omega
  rw [pdtByte, word, byte, UInt8.toNat_ofNat']

theorem wordsOf_pdt {mem : Memory}
    (loaded : ∀ k < 12288, mem (PDT_OFFSET + UInt32.ofNat k) = pdtByte k) (t : Nat) (few : t < 3)
    (i : Index) :
    wordsOf mem (0x300#20 + BitVec.ofNat 20 t) i = BitVec.ofNat 32 (pdtWord (1024 * t + i.toNat)) := by
  have inside := i.isLt
  have frame : (0x300#20 + BitVec.ofNat 20 t).toNat = 0x300 + t := by
    rw [BitVec.toNat_add, BitVec.toNat_ofNat, BitVec.toNat_ofNat]
    omega
  have start : UInt32.ofNat ((0x300#20 + BitVec.ofNat 20 t).toNat * 4096 + i.toNat * 4) =
      PDT_OFFSET + UInt32.ofNat (4 * (1024 * t + i.toNat)) := by
    rw [frame, show (0x300 + t) * 4096 + i.toNat * 4 = 0x300000 + 4 * (1024 * t + i.toNat) by omega,
      UInt32.ofNat_add]
    rfl
  have byte (j : Nat) (small : j < 4) :
      (mem (PDT_OFFSET + UInt32.ofNat (4 * (1024 * t + i.toNat)) + UInt32.ofNat j)).toNat =
        pdtWord (1024 * t + i.toNat) / 256 ^ j % 256 := by
    rw [UInt32.add_assoc, ← UInt32.ofNat_add, loaded _ (by omega), pdtByte_toNat _ small]
  have zeroth := byte 0 (by decide)
  have first := byte 1 (by decide)
  have second := byte 2 (by decide)
  have third := byte 3 (by decide)
  have bound := pdtWord_lt (w := 1024 * t + i.toNat) (by omega)
  have here : (UInt32.ofNat 0 : UInt32) = 0 := rfl
  rw [here, UInt32.add_zero] at zeroth
  unfold wordsOf
  rw [start]
  refine congrArg (BitVec.ofNat 32) ?_
  change _ + 256 * (mem (_ + UInt32.ofNat 1)).toNat + 65536 * (mem (_ + UInt32.ofNat 2)).toNat +
    16777216 * (mem (_ + UInt32.ofNat 3)).toNat = _
  rw [zeroth, first, second, third]
  omega

theorem tablesAt_wordsOf {mem : Memory}
    (loaded : ∀ k < 12288, mem (PDT_OFFSET + UInt32.ofNat k) = pdtByte k) :
    TablesAt (wordsOf mem) where
  directory i := by
    have inside := i.isLt
    refine (wordsOf_pdt loaded 0 (by decide) i).trans (congrArg _ ?_)
    rw [Nat.mul_zero, Nat.zero_add, pdtWord, if_pos (by omega)]
  code i := by
    have inside := i.isLt
    refine (wordsOf_pdt loaded 1 (by decide) i).trans (congrArg _ ?_)
    rw [pdtWord, if_neg (by omega), if_pos (by omega)]
    omega
  heap i := by
    refine (wordsOf_pdt loaded 2 (by decide) i).trans ?_
    rw [pdtWord, if_neg (by omega), if_neg (by omega)]

/-! Translation by these tables. -/

theorem code_entry (i : Index) : BitVec.ofNat 32 (i.toNat * 0x1000 + FLAGS) =
    address (i.setWidth 20) + 0b100000000011#32 := by
  have inside := i.isLt
  have width : (i.setWidth 20).toNat = i.toNat := by
    rw [BitVec.toNat_setWidth]
    omega
  apply BitVec.eq_of_toNat_eq
  rw [toNat_address_add _ _ (by decide), width, BitVec.toNat_ofNat, BitVec.toNat_ofNat, FLAGS]
  omega

/-- Where a directory entry is the one for `code_pt`, the offset into its 4 MiB is the physical
address. -/
theorem walk_code {mem : Mem} {cr3 : Frame} {v : BitVec 32}
    (entry : mem cr3 (decode v).dir = 0x301803#32)
    (code : ∀ i, mem 0x301#20 i = BitVec.ofNat 32 (i.toNat * 0x1000 + FLAGS)) :
    walk mem cr3 v = some (BitVec.ofNat 32 (v.toNat % 0x400000)) := by
  have table : Word.frame 0x301803#32 = 0x301#20 := rfl
  have there : Word.present 0x301803#32 = true := rfl
  have page : mem 0x301#20 (decode v).table =
      address ((decode v).table.setWidth 20) ||| 0b100000000011#32 := by
    rw [code, code_entry, address_add _ _ (by decide)]
  have present : Word.present (mem 0x301#20 (decode v).table) = true := by
    rw [page]
    exact (address_or_getLsbD _ _ 0 (by decide)).trans rfl
  have frame : Word.frame (mem 0x301#20 (decode v).table) = (decode v).table.setWidth 20 := by
    rw [page, frame_address_or _ _ (by decide)]
  simp only [walk, physWord_pde, physWord_pte, entry, table, there, present, frame, if_true]
  apply congrArg some
  apply BitVec.eq_of_toNat_eq
  have offset := toNat_pageOffset v
  have index : ((decode v).table.setWidth 20).toNat = v.toNat / 4096 % 1024 := by
    rw [BitVec.toNat_setWidth, ← decode_table, BitVec.toNat_setWidth, toNat_tableIndex]
    omega
  rw [toNat_address_add _ _ (by omega), index, offset, BitVec.toNat_ofNat]
  omega

theorem decode_dir_toNat (v : BitVec 32) : (decode v).dir.toNat = v.toNat / 0x400000 := by
  have bound := v.isLt
  rw [← decode_dir, BitVec.toNat_setWidth, toNat_dirIndex]
  omega

theorem walk_tables {mem : Mem} (tables : TablesAt mem) (v : BitVec 32) :
    walk mem 0x300#20 v =
      if v.toNat / 0x400000 = 0 ∨ v.toNat / 0x400000 = 768 then
        some (BitVec.ofNat 32 (v.toNat % 0x400000))
      else none := by
  have entry := tables.directory (decode v).dir
  rw [decode_dir_toNat, pdtEntry_eq] at entry
  by_cases low : v.toNat / 0x400000 = 0 ∨ v.toNat / 0x400000 = 768
  · rw [if_pos low] at entry ⊢
    exact walk_code entry tables.code
  rw [if_neg low] at entry ⊢
  by_cases heap : v.toNat / 0x400000 = 769
  · rw [if_pos heap] at entry
    have table : Word.frame 0x302803#32 = 0x302#20 := rfl
    simp only [walk, physWord_pde, physWord_pte, entry, table, tables.heap]
    rfl
  · rw [if_neg heap] at entry
    simp only [walk, physWord_pde, entry]
    rfl

theorem storeWord_eq {mem : Mem} {cr3 : Frame} {vaddr : BitVec 32} {paddr : Word}
    (walked : walk mem cr3 vaddr = some paddr) (w : Word) :
    storeWord cr3 vaddr w mem = some (Function.update mem paddr.frame
      (Function.update (mem paddr.frame) ((paddr >>> 2).setWidth 10) w)) := by
  rw [storeWord, walked]
  rfl

/-- The tables that are loaded and the two stores make the memory that `init_vmm` is modelled to
leave. -/
theorem initVmmStores_eq {mem : Mem} (tables : TablesAt mem) :
    initVmmStores mem = some (initVmm mem).mem := by
  have place : PDT_LOCATION + 1023 * 4 = 0xC0300FFC#32 := by decide
  have last : walk mem 0x300#20 (PDT_LOCATION + 1023 * 4) = some 0x300FFC#32 := by
    rw [place, walk_tables tables, if_pos (by decide)]
    exact congrArg some (by decide)
  have flags : (0x0300000 + 0b100000000011 : Word) = 0x300803#32 := by decide
  have first := storeWord_eq last 0x300803#32
  have number (i : Index) : mem 0x300#20 i = BitVec.ofNat 32
      (if i.toNat = 0 ∨ i.toNat = 768 then 0x301803 else if i.toNat = 769 then 0x302803 else 0) := by
    rw [tables.directory, pdtEntry_eq]
  have other : (768#10 : Index) ≠ 1023#10 := by decide
  have frame : (0x301#20 : Frame) ≠ 0x300#20 := by decide
  have dir : (decode PDT_LOCATION).dir = 768#10 := by decide
  have zeroth : walk (Function.update mem (Word.frame 0x300FFC#32)
      (Function.update (mem (Word.frame 0x300FFC#32)) ((0x300FFC#32 >>> 2).setWidth 10) 0x300803#32))
      0x300#20 PDT_LOCATION = some 0x300000#32 := by
    have at_ : Word.frame 0x300FFC#32 = 0x300#20 := by decide
    have index : (0x300FFC#32 >>> 2).setWidth 10 = 1023#10 := by decide
    have low : BitVec.ofNat 32 (PDT_LOCATION.toNat % 0x400000) = 0x300000#32 := by decide
    rw [at_, index, walk_code, low]
    · rw [Function.update_self, dir, Function.update_of_ne other, number, if_pos (by decide)]
    · rw [Function.update_of_ne frame]
      exact tables.code
  rw [initVmmStores, flags, first, Option.bind_some]
  refine (storeWord_eq zeroth 0).trans (congrArg some ?_)
  have at_ : Word.frame 0x300FFC#32 = 0x300#20 := by decide
  have index : (0x300FFC#32 >>> 2).setWidth 10 = 1023#10 := by decide
  have at' : Word.frame 0x300000#32 = 0x300#20 := by decide
  have index' : (0x300000#32 >>> 2).setWidth 10 = 0#10 := by decide
  rw [at_, index, at', index']
  funext f i
  simp only [initVmm]
  by_cases directory : f = 0x300#20
  · rw [directory, Function.update_self, if_pos rfl, Function.update_self]
    by_cases zero : i = 0#10
    · rw [zero, Function.update_self]
      rfl
    rw [Function.update_of_ne zero]
    by_cases self : i = 1023#10
    · rw [self, Function.update_self]
      rfl
    rw [Function.update_of_ne self, if_neg self, number]
    have small : i.toNat ≠ 0 := fun same => zero (BitVec.eq_of_toNat_eq same)
    have kernel : i.toNat = 768 ↔ i = 768#10 :=
      ⟨fun same => BitVec.eq_of_toNat_eq same, fun same => by rw [same]; rfl⟩
    have heap : i.toNat = 769 ↔ i = 769#10 :=
      ⟨fun same => BitVec.eq_of_toNat_eq same, fun same => by rw [same]; rfl⟩
    simp only [small, kernel, heap, false_or]
    split
    · rfl
    · split <;> rfl
  · rw [Function.update_of_ne directory, Function.update_of_ne directory, if_neg directory]
    by_cases code : f = 0x301#20
    · rw [if_pos code, code, tables.code, code_entry]
    · rw [if_neg code]
      by_cases heap : f = 0x302#20
      · rw [if_pos heap, heap, tables.heap]
      · rw [if_neg heap]

/-- What the machine has when it jumps to the kernel: the image at its place, translated from
0xC0200000 on, the first 4 MiB at both ends and nothing else mapped, and tables out of which
`init_vmm` makes the address space that the kernel starts with. -/
structure Booted (drive : Drive) (m : Memory) : Prop where
  image : ∀ i < 48, ∃ sector, drive.image (26 + i) = some sector ∧
    ∀ j < 512, m (KERNEL_OFFSET + UInt32.ofNat (512 * i + j)) = sector.byte j
  entered : ∀ k < 24576, walk (wordsOf m) 0x300#20 (0xC0200000#32 + BitVec.ofNat 32 k) =
    some (0x200000#32 + BitVec.ofNat 32 k)
  mapped : ∀ v, walk (wordsOf m) 0x300#20 v =
    if v.toNat / 0x400000 = 0 ∨ v.toNat / 0x400000 = 768 then
      some (BitVec.ofNat 32 (v.toNat % 0x400000))
    else none
  vmm : ∀ mem : Mem, (∀ f, 0x300 ≤ f.toNat → f.toNat < 0x303 → mem f = wordsOf m f) →
    initVmmStores mem = some (initVmm mem).mem

theorem booted_of_loaded {drive : Drive} {m : Memory} (onDisk : OnDisk drive)
    (image : ∀ i < 48, ∃ sector, drive.image (26 + i) = some sector ∧
      ∀ j < 512, m (KERNEL_OFFSET + UInt32.ofNat (512 * i + j)) = sector.byte j)
    (tables : ∀ i < 24, ∃ sector, drive.image (2 + i) = some sector ∧
      ∀ j < 512, m (PDT_OFFSET + UInt32.ofNat (512 * i + j)) = sector.byte j) :
    Booted drive m := by
  have loaded (k : Nat) (inside : k < 12288) : m (PDT_OFFSET + UInt32.ofNat k) = pdtByte k := by
    obtain ⟨sector, there, content⟩ := tables (k / 512) (by omega)
    obtain ⟨sector', there', bytes⟩ := onDisk (k / 512) (by omega)
    rw [there] at there'
    cases there'
    have split : 512 * (k / 512) + k % 512 = k := Nat.div_add_mod k 512
    have byte := (content (k % 512) (Nat.mod_lt k (by decide))).trans
      (bytes (k % 512) (Nat.mod_lt k (by decide)))
    rwa [split] at byte
  have tablesAt := tablesAt_wordsOf loaded
  exact {
    image := image
    entered := by
      intro k inside
      have number : (0xC0200000#32 + BitVec.ofNat 32 k).toNat = 0xC0200000 + k := by
        rw [BitVec.toNat_add, BitVec.toNat_ofNat, BitVec.toNat_ofNat]
        omega
      rw [walk_tables tablesAt, number, if_pos (by omega)]
      apply congrArg some
      apply BitVec.eq_of_toNat_eq
      rw [BitVec.toNat_ofNat, BitVec.toNat_add, BitVec.toNat_ofNat, BitVec.toNat_ofNat]
      omega
    mapped := walk_tables tablesAt
    vmm := by
      intro mem same
      refine initVmmStores_eq ⟨fun i => ?_, fun i => ?_, fun i => ?_⟩
      · rw [same 0x300#20 (by decide) (by decide)]
        exact tablesAt.directory i
      · rw [same 0x301#20 (by decide) (by decide)]
        exact tablesAt.code i
      · rw [same 0x302#20 (by decide) (by decide)]
        exact tablesAt.heap i }

/-- The boot sector hands over to the kernel exactly when all sectors up to the end of the kernel's
48 can be read; it then has loaded them, and the machine is as the kernel takes it to be. -/
theorem bootstrap_boots_iff (drive : Drive) (mem : Memory) (heads : 2 ≤ drive.heads)
    (onDisk : OnDisk drive) :
    ((∃ m, bootstrap drive mem = some m) ↔ ∀ n, 26 ≤ n → n < 74 → drive.Reads n) ∧
      ∀ m, bootstrap drive mem = some m → Booted drive m := by
  obtain ⟨returns, loads⟩ := bootstrap_spec drive mem heads
  constructor
  · rw [← Option.isSome_iff_exists, returns]
    refine ⟨fun all n low high => all n (by omega) high, fun kernel n low high => ?_⟩
    by_cases table : n < 26
    · obtain ⟨sector, there, _⟩ := onDisk (n - 2) (by omega)
      rw [show 2 + (n - 2) = n by omega] at there
      rw [Drive.Reads, there]
      rfl
    · exact kernel n (by omega) high
  · intro m result
    obtain ⟨image, tables⟩ := loads m result
    exact booted_of_loaded onDisk image tables

/-- The page tables on a drive that is empty otherwise. -/
def sampleDrive : Drive where
  dl := 0x80
  heads := 16
  image n := some ⟨fun i => if n < 26 then pdtByte (512 * (n - 2) + i) else 0⟩

theorem sampleDrive_onDisk : OnDisk sampleDrive := by
  intro j few
  refine ⟨_, rfl, fun i inside => ?_⟩
  have table : 2 + j < 26 := by omega
  have back : 2 + j - 2 = j := by omega
  simp only [Sector.byte, dif_pos inside, if_pos table, back]

theorem sampleDrive_boots :
    ∃ m, bootstrap sampleDrive (fun _ => 0) = some m ∧ Booted sampleDrive m := by
  obtain ⟨returns, boots⟩ := bootstrap_boots_iff sampleDrive (fun _ => 0) (by decide)
    sampleDrive_onDisk
  obtain ⟨m, result⟩ := returns.mpr fun _ _ _ => rfl
  exact ⟨m, result, boots m result⟩

end TitorOS.Barrel.Bootstrap
