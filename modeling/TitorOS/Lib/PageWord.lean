import Mathlib.Data.BitVec
import Mathlib.Tactic.IntervalCases

/-! Words of a page table: a frame number in the upper 20 bits and flags in the lower
12, and what the usual masks do to the two parts. -/

namespace TitorOS.Lib

abbrev Frame := BitVec 20
abbrev Word := BitVec 32

namespace Word

def frame (w : Word) : Frame := (w >>> 12).setWidth 20

def present (w : Word) : Bool := w.getLsbD 0
def writable (w : Word) : Bool := w.getLsbD 1
def user (w : Word) : Bool := w.getLsbD 2
def inUse (w : Word) : Bool := w.getLsbD 11

/-- The physical address of a frame. -/
def address (f : Frame) : Word := f.setWidth 32 <<< 12

theorem frame_or (v w : Word) : frame (v ||| w) = frame v ||| frame w := by
  rw [frame, BitVec.ushiftRight_or_distrib, BitVec.setWidth_or]
  rfl

theorem frame_and (v w : Word) : frame (v &&& w) = frame v &&& frame w := by
  rw [frame, BitVec.ushiftRight_and_distrib, BitVec.setWidth_and]
  rfl

theorem toNat_address (f : Frame) : (address f).toNat = f.toNat * 4096 := by
  have bound := f.isLt
  rw [address, BitVec.toNat_shiftLeft, BitVec.toNat_setWidth, Nat.mod_eq_of_lt (by omega),
    Nat.shiftLeft_eq, Nat.mod_eq_of_lt (by omega)]

theorem toNat_frame (w : Word) : (frame w).toNat = w.toNat / 4096 := by
  have bound := w.isLt
  rw [frame, BitVec.toNat_setWidth, BitVec.toNat_ushiftRight, Nat.shiftRight_eq_div_pow,
    Nat.mod_eq_of_lt (by omega)]

theorem frame_address (f : Frame) : frame (address f) = f := by
  apply BitVec.eq_of_toNat_eq
  rw [toNat_frame, toNat_address]
  omega

theorem frame_small (flags : Word) (small : flags.toNat < 4096) : frame flags = 0#20 := by
  apply BitVec.eq_of_toNat_eq
  rw [toNat_frame, Nat.div_eq_of_lt small]
  rfl

theorem address_getLsbD (f : Frame) (i : Nat) (low : i < 12) : (address f).getLsbD i = false := by
  simp [address, low]

/-- An address and flags have no bit in common. -/
theorem address_add (f : Frame) (flags : Word) (small : flags.toNat < 4096) :
    address f + flags = address f ||| flags := by
  have disjoint : address f &&& flags = 0#32 := by
    ext i bound
    by_cases low : i < 12
    · simp [← BitVec.getLsbD_eq_getElem, address_getLsbD f i low]
    · have high : flags.getLsbD i = false := by
        apply Nat.testBit_lt_two_pow
        calc
          flags.toNat < 2 ^ 12 := small
          _ ≤ 2 ^ i := Nat.pow_le_pow_right (by decide) (Nat.le_of_not_lt low)
      simp [← BitVec.getLsbD_eq_getElem, high]
  exact BitVec.add_eq_or_of_and_eq_zero _ _ disjoint

theorem frame_address_or (f : Frame) (flags : Word) (small : flags.toNat < 4096) :
    frame (address f ||| flags) = f := by
  rw [frame_or, frame_address, frame_small flags small, BitVec.or_zero]

theorem address_or_getLsbD (f : Frame) (flags : Word) (i : Nat) (low : i < 12) :
    (address f ||| flags).getLsbD i = flags.getLsbD i := by
  rw [BitVec.getLsbD_or, address_getLsbD f i low, Bool.false_or]

theorem frame_or_small (w flags : Word) (small : flags.toNat < 4096) :
    frame (w ||| flags) = frame w := by
  rw [frame_or, frame_small flags small, BitVec.or_zero]

/-- A mask that is all ones above the flags. -/
theorem frame_and_mask (w mask : Word) (ones : frame mask = BitVec.allOnes 20) :
    frame (w &&& mask) = frame w := by
  rw [frame_and, ones, BitVec.and_allOnes]

/-- The low flags of `w` with the address of `f` and one more flag. -/
theorem frame_repoint (w : Word) (f : Frame) (flags : Word) (small : flags.toNat < 4096) :
    frame ((w &&& 0x00000FFF#32) ||| (address f ||| flags)) = f := by
  have low : frame (w &&& 0x00000FFF#32) = 0#20 := by
    rw [frame_and, show frame 0x00000FFF#32 = 0#20 from rfl, BitVec.and_zero]
  rw [frame_or, frame_address_or f flags small, low, BitVec.zero_or]

theorem repoint_getLsbD (w : Word) (f : Frame) (flags : Word) (i : Nat) (low : i < 12) :
    ((w &&& 0x00000FFF#32) ||| (address f ||| flags)).getLsbD i =
      (w.getLsbD i || flags.getLsbD i) := by
  have mask : (0x00000FFF#32).getLsbD i = true := by
    interval_cases i <;> rfl
  rw [BitVec.getLsbD_or, address_or_getLsbD f flags i low, BitVec.getLsbD_and, mask, Bool.and_true]

end Word

end TitorOS.Lib
