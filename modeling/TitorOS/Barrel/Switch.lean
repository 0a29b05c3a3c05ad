import TitorOS.Barrel.Isr
import TitorOS.Barrel.Scheduler

/-! `switch_kstack` of `kernel/initkernel.asm` and the frames it works on: those it
pushes itself, and the one `init_kstack` of `kernel/scheduler.c` builds by hand for the
first switch to a process. Addresses are counted in words, pointers in bytes. -/

namespace TitorOS.Barrel.Switch

open TitorOS.Lib
open Scheduler (Ptr)
open Isr (Stack)

def address (w : UInt32) : Int := (w.toNat / 4 : Nat)

def pointer (a : Int) : UInt32 := .ofNat (4 * a.toNat)

theorem address_pointer (a : Int) (low : 0 ≤ a) (high : a < 2 ^ 30) : address (pointer a) = a := by
  rw [address, pointer, UInt32.toNat_ofNat', Nat.mod_eq_of_lt (by omega)]
  omega

/-- What `switch_kstack` saves, in the order it pushes. -/
structure Saved where
  ebp : UInt32
  edi : UInt32
  esi : UInt32
  ebx : UInt32
  edx : UInt32
  ecx : UInt32
  deriving DecidableEq

def Saved.words (r : Saved) : List UInt32 := [r.ebp, r.edi, r.esi, r.ebx, r.edx, r.ecx]

/-- The first six words of a `kstack_t`. -/
def savedAt (mem : Int → UInt32) (a : Int) : Saved where
  ecx := mem a
  edx := mem (a + 1)
  ebx := mem (a + 2)
  esi := mem (a + 3)
  edi := mem (a + 4)
  ebp := mem (a + 5)

theorem savedAt_congr (mem mem' : Int → UInt32) (a : Int)
    (same : ∀ b, a ≤ b → b < a + 6 → mem' b = mem b) : savedAt mem' a = savedAt mem a := by
  simp only [savedAt, same a (by omega) (by omega), same (a + 1) (by omega) (by omega),
    same (a + 2) (by omega) (by omega), same (a + 3) (by omega) (by omega),
    same (a + 4) (by omega) (by omega), same (a + 5) (by omega) (by omega)]

/-- What `popa` and `iret` take from an `isr_stack_t`: all but the stored esp, the
vector and the error code. -/
structure Context where
  edi : UInt32
  esi : UInt32
  ebp : UInt32
  ebx : UInt32
  edx : UInt32
  ecx : UInt32
  eax : UInt32
  eip : UInt32
  cs : UInt32
  eflags : UInt32
  userEsp : UInt32
  userSs : UInt32
  deriving DecidableEq

def contextAt (mem : Int → UInt32) (a : Int) : Context where
  edi := mem a
  esi := mem (a + 1)
  ebp := mem (a + 2)
  ebx := mem (a + 4)
  edx := mem (a + 5)
  ecx := mem (a + 6)
  eax := mem (a + 7)
  eip := mem (a + 10)
  cs := mem (a + 11)
  eflags := mem (a + 12)
  userEsp := mem (a + 13)
  userSs := mem (a + 14)

theorem contextAt_congr (mem mem' : Int → UInt32) (a b : Int)
    (same : ∀ i : Nat, i < 15 → mem' (b + i) = mem (a + i)) : contextAt mem' b = contextAt mem a := by
  have first := same 0 (by omega)
  simp only [Nat.cast_zero, Int.add_zero] at first
  have word (i : Nat) (bound : i < 15) := same i bound
  simp only [contextAt, first, Context.mk.injEq, true_and]
  exact ⟨word 1 (by omega), word 2 (by omega), word 4 (by omega), word 5 (by omega),
    word 6 (by omega), word 7 (by omega), word 10 (by omega), word 11 (by omega),
    word 12 (by omega), word 13 (by omega), word 14 (by omega)⟩

structure Core where
  stack : Stack
  regs : Saved
  eip : UInt32

def switchKstack (stack : Stack) (regs : Saved) : Core :=
  let s := stack.pushAll regs.words
  -- mov eax, [esp + 28]; mov [eax], esp
  let mem := Function.update s.mem (address (s.mem (s.esp + 7))) (pointer s.esp)
  -- mov esp, [esp + 32]
  let esp := address (mem (s.esp + 8))
  ⟨⟨mem, esp + 7⟩, savedAt mem esp, mem (esp + 6)⟩

def callSwitch (stack : Stack) (regs : Saved) (oldstack newstack ret : UInt32) : Core :=
  switchKstack (stack.pushAll [newstack, oldstack, ret]) regs

def frameOf (esp : Int) : Int := esp - 9

/-- The call saves the registers below the return address and stores where; then it
takes up what lies at the stack pointer it was given, which may be its own frame. -/
structure Switched (stack : Stack) (regs : Saved) (field : Int) (newstack ret : UInt32)
    (core : Core) : Prop where
  saved : savedAt core.stack.mem (frameOf stack.esp) = regs
  returns : core.stack.mem (stack.esp - 3) = ret
  stored : core.stack.mem field = pointer (frameOf stack.esp)
  frame : ∀ a, a ≠ field → a < frameOf stack.esp ∨ stack.esp ≤ a →
    core.stack.mem a = stack.mem a
  esp : core.stack.esp = address newstack + 7
  regs : core.regs = savedAt core.stack.mem (address newstack)
  eip : core.eip = core.stack.mem (address newstack + 6)

theorem callSwitch_spec (stack : Stack) (regs : Saved) (field : Int) (newstack ret : UInt32)
    (low : 0 ≤ field) (high : field < 2 ^ 30)
    (apart : field < frameOf stack.esp ∨ stack.esp ≤ field) :
    Switched stack regs field newstack ret
      (callSwitch stack regs (pointer field) newstack ret) := by
  have joined : (stack.pushAll [newstack, pointer field, ret]).pushAll regs.words =
      stack.pushAll ([newstack, pointer field, ret] ++ regs.words) :=
    (stack.pushAll_append _ _).symm
  set words := [newstack, pointer field, ret] ++ regs.words with shape
  have length : words.length = 9 := rfl
  have esp : (stack.pushAll words).esp = frameOf stack.esp := by
    rw [WordStack.pushAll_esp, length, frameOf]
    rfl
  have word (j : Nat) (w : UInt32) (pushed : words[j]? = some w) :
      (stack.pushAll words).mem (stack.esp - 1 - j) = w := stack.pushAll_word words j w pushed
  have oldstack : (stack.pushAll words).mem (frameOf stack.esp + 7) = pointer field := by
    rw [← word 1 _ rfl, frameOf]
    congr 1
    omega
  have given : (stack.pushAll words).mem (frameOf stack.esp + 8) = newstack := by
    rw [← word 0 _ rfl, frameOf]
    congr 1
    omega
  have target := address_pointer field low high
  have kept (a : Int) (inside : frameOf stack.esp ≤ a) (below : a < stack.esp) (v : UInt32) :
      Function.update (stack.pushAll words).mem field v a = (stack.pushAll words).mem a :=
    Function.update_of_ne (by omega) ..
  have result : callSwitch stack regs (pointer field) newstack ret =
      let mem := Function.update (stack.pushAll words).mem field (pointer (frameOf stack.esp))
      ⟨⟨mem, address newstack + 7⟩, savedAt mem (address newstack), mem (address newstack + 6)⟩ := by
    have argument := kept (frameOf stack.esp + 8) (by omega) (by rw [frameOf]; omega)
      (pointer (frameOf stack.esp))
    simp only [callSwitch, switchKstack, joined, esp, oldstack, target, argument, given]
  rw [result]
  refine ⟨?_, ?_, Function.update_self .., ?_, rfl, rfl, rfl⟩
  · have slot (i : Int) (w : UInt32) (j : Nat) (pushed : words[j]? = some w)
        (place : frameOf stack.esp + i = stack.esp - 1 - j) :
        Function.update (stack.pushAll words).mem field (pointer (frameOf stack.esp))
          (frameOf stack.esp + i) = w := by
      have bound := (List.getElem?_eq_some_iff.mp pushed).1
      rw [length] at bound
      rw [kept _ (by rw [place, frameOf]; omega) (by omega), place, word j w pushed]
    have first := slot 0 regs.ecx 8 rfl (by rw [frameOf]; omega)
    rw [Int.add_zero] at first
    simp only [savedAt, first, slot 1 regs.edx 7 rfl (by rw [frameOf]; omega),
      slot 2 regs.ebx 6 rfl (by rw [frameOf]; omega),
      slot 3 regs.esi 5 rfl (by rw [frameOf]; omega),
      slot 4 regs.edi 4 rfl (by rw [frameOf]; omega),
      slot 5 regs.ebp 3 rfl (by rw [frameOf]; omega)]
  · refine (kept (stack.esp - 3) (by rw [frameOf]; omega) (by omega) _).trans ?_
    rw [← word 2 _ rfl]
    congr 1
    omega
  · intro a other outside
    refine (Function.update_of_ne other ..).trans ?_
    rcases outside with below | above
    · exact stack.pushAll_below words a (by rw [length]; rw [frameOf] at below; exact below)
    · exact stack.pushAll_above words a above

/-- The rest of the exit path: `popa`, the two words over it, and `iret`. -/
def firstret (depads : Bool) (stack : Stack) : Context :=
  let s := if depads then Isr.depad stack else stack
  contextAt s.mem s.esp

def STACK : Int := 3
def STACK_POINTER : Int := 19

/-- `proc` is the structure, `kstack` the page `kmalloc` gave. -/
def initKstack (firstret : UInt32) (proc kstack : Int) (mem : Int → UInt32) : Int → UInt32 :=
  let frame := kstack + 1024 - 15 - 1
  let mem := movs 15 (proc + STACK) frame mem
  let kframe := frame - 7
  let mem := Function.update mem (kframe + 6) firstret
  let mem := Function.update mem (kframe + 5) 0xb
  let mem := Function.update mem (kframe + 4) 0xe
  let mem := Function.update mem kframe 0xc
  Function.update mem (proc + STACK_POINTER) (pointer kframe)

/-- A stack that `firstret` will leave with the context of the `stack` field. -/
structure Prepared (firstret : UInt32) (proc kstack : Int) (context : Context)
    (mem : Int → UInt32) : Prop where
  pointer : address (mem (proc + STACK_POINTER)) = kstack + 1001
  returns : mem (kstack + 1007) = firstret
  frame : contextAt mem (kstack + 1008) = context
  field : contextAt mem (proc + STACK) = context

theorem initKstack_frame (firstret : UInt32) (proc kstack a : Int) (mem : Int → UInt32)
    (apart : proc + 21 ≤ kstack ∨ kstack + 1024 ≤ proc) (other : a ≠ proc + STACK_POINTER)
    (outside : a < kstack + 1001 ∨ kstack + 1023 ≤ a) :
    initKstack firstret proc kstack mem a = mem a := by
  simp only [STACK_POINTER] at other
  simp only [initKstack, STACK, STACK_POINTER]
  rw [Function.update_of_ne other, Function.update_of_ne (by omega),
    Function.update_of_ne (by omega), Function.update_of_ne (by omega),
    Function.update_of_ne (by omega), movs_spec _ _ _ _ _ (by omega), if_neg (by omega)]

theorem initKstack_prepared (firstret : UInt32) (proc kstack : Int) (mem : Int → UInt32)
    (apart : proc + 21 ≤ kstack ∨ kstack + 1024 ≤ proc) (low : 0 ≤ kstack)
    (high : kstack + 1024 ≤ 2 ^ 30) :
    Prepared firstret proc kstack (contextAt mem (proc + STACK))
      (initKstack firstret proc kstack mem) where
  pointer := by
    rw [initKstack, Function.update_self, address_pointer _ (by omega) (by omega)]
    omega
  returns := by
    simp only [initKstack, STACK, STACK_POINTER]
    rw [Function.update_of_ne (by omega), Function.update_of_ne (by omega),
      Function.update_of_ne (by omega), Function.update_of_ne (by omega),
      show kstack + 1007 = kstack + 1024 - 15 - 1 - 7 + 6 by omega, Function.update_self]
  frame := by
    apply contextAt_congr
    intro i bound
    simp only [initKstack, STACK, STACK_POINTER]
    rw [Function.update_of_ne (by omega), Function.update_of_ne (by omega),
      Function.update_of_ne (by omega), Function.update_of_ne (by omega),
      Function.update_of_ne (by omega), movs_spec _ _ _ _ _ (by omega), if_pos (by omega)]
    congr 1
    omega
  field := by
    apply contextAt_congr
    intro i bound
    apply initKstack_frame firstret proc kstack _ mem apart
    · simp only [STACK, STACK_POINTER]
      omega
    · simp only [STACK]
      omega

end TitorOS.Barrel.Switch
