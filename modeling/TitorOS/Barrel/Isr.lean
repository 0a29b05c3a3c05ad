import TitorOS.Lib.Run
import TitorOS.Lib.WordStack
import Mathlib.Tactic.IntervalCases

/-! Interrupt entry and exit of `kernel/idt/isrs.asm`, down to the words of the kernel
stacks. Every gate is an interrupt gate, so inside a handler only exceptions
interrupt; processes run in user mode, idle in kernel mode. Word addresses are
integers; the segment registers are left out. -/

namespace TitorOS.Barrel.Isr

open TitorOS.Lib

abbrev Stack := WordStack UInt32

/-- What `pusha` stores, in the order it pushes. -/
structure Regs where
  eax : UInt32
  ecx : UInt32
  edx : UInt32
  ebx : UInt32
  esp : UInt32
  ebp : UInt32
  esi : UInt32
  edi : UInt32
  deriving DecidableEq

def Regs.words (r : Regs) : List UInt32 :=
  [r.eax, r.ecx, r.edx, r.ebx, r.esp, r.ebp, r.esi, r.edi]

/-- The interrupted context; the last two are pushed only from user mode. -/
structure Cpu where
  regs : Regs
  eip : UInt32
  eflags : UInt32
  userEsp : UInt32
  userSs : UInt32
  deriving DecidableEq

def KERNEL_CS : UInt32 := 0x08
def USER_CS : UInt32 := 0x1b

def hasErrcode (vector : UInt32) : Bool :=
  vector == 8 || (vector ≥ 10 && vector ≤ 14) || vector == 17 || vector == 21

/-- The words pushed by the processor and by the entry stub of a vector. -/
def entryWords (fromUser : Bool) (vector error : UInt32) (cpu : Cpu) : List UInt32 :=
  (if fromUser then [cpu.userSs, cpu.userEsp, cpu.eflags, USER_CS] else [cpu.eflags, KERNEL_CS]) ++
    [cpu.eip] ++ [if hasErrcode vector then error else 0] ++ [vector] ++ cpu.regs.words

/-- The frame, and the registers pushed over it, move down by two words. -/
def pad (regs : Regs) (s : Stack) : Stack :=
  let s := s.pushAll regs.words
  let s : Stack := ⟨movs (13 + 8) s.esp (s.esp - 2) s.mem, s.esp - 2⟩
  s.drop 8

def depad (s : Stack) : Stack :=
  let mem := movs 13 s.esp (s.esp - 13) s.mem
  let mem := movs 13 (s.esp - 13) (s.esp + 2) mem
  ⟨mem, s.esp + 2⟩

/-- An interrupt being served. `base` is where its frame lies while the handler runs;
the rest is kept for comparison at the exit: whether the entry padded, the stack
pointer and the stack it came in with. -/
structure Frame where
  vector : UInt32
  fromUser : Bool
  padded : Bool
  base : Int
  esp : Int
  userEsp : UInt32
  saved : Int → UInt32

structure Proc where
  pid : UInt32
  esp0 : Int
  stack : Stack
  userEsp : UInt32
  frames : List Frame

structure State where
  procs : Nat → Option Proc
  active : Nat
  activePid : UInt32
  intDepth : Int8

def State.setActive (s : State) (p : Proc) : State :=
  { s with procs := Function.update s.procs s.active (some p) }

/-- The registers at the time of the test: `ax` has been loaded with the data selector. -/
def entryRegs (r : Regs) : Regs := { r with eax := (r.eax &&& 0xFFFF0000) ||| 0x10 }

/-- The process after the pushes and, where the entry pads, after `pad`. -/
def enterProc (p : Proc) (padded fromUser : Bool) (vector error : UInt32) (cpu : Cpu) : Proc :=
  let start : Stack := if fromUser then { p.stack with esp := p.esp0 } else p.stack
  let pushed := start.pushAll (entryWords fromUser vector error cpu)
  let stack := if padded then pad (entryRegs cpu.regs) pushed else pushed
  let frame : Frame :=
    ⟨vector, fromUser, padded, stack.esp, start.esp, cpu.userEsp, p.stack.mem⟩
  { p with stack := stack, frames := frame :: p.frames }

/-- `generic_isr` up to the call of the handler. -/
def enter (s : State) (p : Proc) (fromUser : Bool) (vector error : UInt32) (cpu : Cpu) : State :=
  { s.setActive (enterProc p (s.activePid == 0) fromUser vector error cpu) with
    intDepth := s.intDepth + 1 }

/-- The test after `firstret`. -/
def depads (s : State) : Bool := s.intDepth > 1 || s.activePid == 0

/-- `popa`, the two words over it, and `iret`. -/
def iret (p : Proc) (s : Stack) (rest : List Frame) : Proc :=
  let s := s.drop 8
  let s := s.drop 2
  let cs := s.mem (s.esp + 1)
  let s := s.drop 3
  if cs &&& 3 ≠ 0 then
    { p with stack := s.drop 2, userEsp := s.mem s.esp, frames := rest }
  else { p with stack := s, frames := rest }

def leaveProc (p : Proc) (depadded : Bool) (f : Frame) (rest : List Frame) : Proc :=
  let stack : Stack := { p.stack with esp := f.base }
  iret p (if depadded then depad stack else stack) rest

/-- From the return of the handler on. -/
def leave (s : State) : Option State :=
  match s.procs s.active with
  | some p =>
      match p.frames with
      | f :: rest =>
          some { s.setActive (leaveProc p (depads s) f rest) with intDepth := s.intDepth - 1 }
      | [] => none
  | none => none

/-- `init_kstack`: the frame a new process leaves through. -/
def initKstack (pid : UInt32) (esp0 : Int) (mem : Int → UInt32) (vector error : UInt32)
    (cpu : Cpu) : Proc :=
  let stack := WordStack.pushAll ⟨mem, esp0⟩ (entryWords true vector error cpu)
  ⟨pid, esp0, stack, cpu.userEsp, [⟨0, true, false, stack.esp, esp0, cpu.userEsp, mem⟩]⟩

inductive Event where
  /-- From user mode or the idle loop. -/
  | interrupt (vector error : UInt32) (cpu : Cpu)
  /-- From kernel mode inside a handler. -/
  | exception (vector error : UInt32) (cpu : Cpu)
  /-- The handler uses the stack below its frame. -/
  | work (depth : Nat) (mem : Int → UInt32)
  /-- A system call sets a saved register. -/
  | setReg (index : Fin 8) (value : UInt32)
  /-- `exec` gives the process a fresh context. -/
  | exec
  | create (index : Nat) (pid : UInt32) (esp0 : Int) (mem : Int → UInt32)
      (vector error : UInt32) (cpu : Cpu)
  | scheduler (index : Nat)
  | leave

def EXEC_ESP : UInt32 := 0xbffffffc

def step (s : State) (event : Event) : Option State :=
  match s.procs s.active with
  | none => none
  | some p =>
      match event, p.frames with
      | .interrupt vector error cpu, [] => some (enter s p (p.pid != 0) vector error cpu)
      | .exception vector error cpu, _ :: _ =>
          if vector < 32 then some (enter s p false vector error cpu) else none
      | .work depth mem, f :: _ =>
          some (s.setActive { p with
            stack := ⟨fun a => if a < f.base then mem a else p.stack.mem a, f.base - depth⟩ })
      | .setReg index value, f :: _ =>
          some (s.setActive { p with
            stack := { p.stack with mem := Function.update p.stack.mem (f.base + index) value } })
      | .exec, f :: rest =>
          if f.fromUser then
            let mem := Function.update p.stack.mem (f.base + 10) 0
            let mem := Function.update mem (f.base + 13) EXEC_ESP
            some (s.setActive { p with
              stack := { p.stack with mem := mem }
              frames := { f with userEsp := EXEC_ESP } :: rest })
          else none
      | .create index pid esp0 mem vector error cpu, _ =>
          if s.procs index = none ∧ pid ≠ 0 then
            let new := initKstack pid esp0 mem vector error cpu
            some { s with procs := Function.update s.procs index (some new) }
          else none
      | .scheduler index, f :: _ =>
          -- called by the timer and, through `block`, by system calls
          if f.vector = 0x20 ∨ f.vector = 0x80 then
            (s.procs index).map fun q => { s with active := index, activePid := q.pid }
          else none
      | .leave, _ :: _ => leave s
      | _, _ => none

/-- The state at the end of `kernel()`: idle alone, in kernel mode. -/
def initial (esp0 : Int) (stack : Stack) : State where
  procs := fun index => if index = 0 then some ⟨0, esp0, stack, 0, []⟩ else none
  active := 0
  activePid := 0
  intDepth := 0

/-- If the handler returns now: the exit path removes a padding if and only if the entry
path made one, the interrupted stack pointer is restored, and no word of the
stack above the frame differs from what it was at the entry. -/
def Balanced (s : State) : Prop :=
  ∀ p f rest, s.procs s.active = some p → p.frames = f :: rest →
    depads s = f.padded ∧
      ∃ t q, leave s = some t ∧ t.procs t.active = some q ∧
        (if f.fromUser then q.userEsp = f.userEsp else q.stack.esp = f.esp) ∧
        ∀ a, f.esp ≤ a → q.stack.mem a = f.saved a

/-- Handlers of processes other than idle raise no exceptions. -/
def NestedInIdle (s : State) : Event → Prop
  | .exception _ _ _ => s.activePid = 0
  | _ => True

/-- The frame of an interrupt taken from user mode, or padded. -/
structure FrameOk (mem : Int → UInt32) (f : Frame) : Prop where
  extent : f.base + 15 = f.esp
  selector : mem (f.base + 11) = if f.fromUser then USER_CS else KERNEL_CS
  pointer : f.fromUser = true → mem (f.base + 13) = f.userEsp
  above : ∀ a, f.esp ≤ a → mem a = f.saved a

theorem frameOk_congr (mem mem' : Int → UInt32) (f : Frame) (ok : FrameOk mem f)
    (same : ∀ a, f.base + 8 ≤ a → mem' a = mem a) : FrameOk mem' f where
  extent := ok.extent
  selector := by
    rw [same _ (by omega)]
    exact ok.selector
  pointer := by
    intro fromUser
    rw [same _ (by omega)]
    exact ok.pointer fromUser
  above := by
    intro a above
    have extent := ok.extent
    rw [same a (by omega)]
    exact ok.above a above

structure ProcOk (p : Proc) : Prop where
  frames : ∀ f ∈ p.frames, FrameOk p.stack.mem f
  padded : ∀ f ∈ p.frames, f.padded = (p.pid == 0)
  fromUser : ∀ f ∈ p.frames, f.fromUser = (p.pid != 0)
  single : p.pid ≠ 0 → p.frames.length ≤ 1
  nested : p.frames.Pairwise fun f g => f.esp ≤ g.base
  top : ∀ f ∈ p.frames.head?, p.stack.esp ≤ f.base
  inner : ∀ f ∈ p.frames.dropLast, f.vector < 32

theorem stack_below_frames (p : Proc) (ok : ProcOk p) (g : Frame) (member : g ∈ p.frames) :
    p.stack.esp ≤ g.base := by
  cases shape : p.frames with
  | nil =>
      rw [shape] at member
      cases member
  | cons f rest =>
      have top := ok.top f (by rw [shape]; rfl)
      have extent := (ok.frames f (by rw [shape]; exact List.mem_cons_self)).extent
      have nested := ok.nested
      rw [shape] at member nested
      rcases List.mem_cons.mp member with rfl | inside
      · exact top
      · have below := (List.pairwise_cons.mp nested).1 g inside
        omega

theorem entryWords_user (vector error : UInt32) (cpu : Cpu) :
    (entryWords true vector error cpu).length = 15 ∧
      (entryWords true vector error cpu)[3]? = some USER_CS ∧
      (entryWords true vector error cpu)[1]? = some cpu.userEsp := ⟨rfl, rfl, rfl⟩

theorem entryWords_kernel (vector error : UInt32) (cpu : Cpu) :
    (entryWords false vector error cpu).length = 13 ∧
      (entryWords false vector error cpu)[1]? = some KERNEL_CS := ⟨rfl, rfl⟩

theorem user_frame (mem : Int → UInt32) (esp0 : Int) (vector tag error : UInt32) (cpu : Cpu) :
    FrameOk (WordStack.pushAll ⟨mem, esp0⟩ (entryWords true vector error cpu)).mem
      ⟨tag, true, false, (WordStack.pushAll ⟨mem, esp0⟩ (entryWords true vector error cpu)).esp,
        esp0, cpu.userEsp, mem⟩ := by
  rcases entryWords_user vector error cpu with ⟨length, selector, pointer⟩
  set stack : Stack := ⟨mem, esp0⟩ with shape
  have low : (stack.pushAll (entryWords true vector error cpu)).esp = esp0 - 15 := by
    rw [WordStack.pushAll_esp, length]
    rfl
  have third := stack.pushAll_word _ 3 _ selector
  have first := stack.pushAll_word _ 1 _ pointer
  have top : stack.esp = esp0 := rfl
  refine ⟨?_, ?_, ?_, ?_⟩
  · change (stack.pushAll (entryWords true vector error cpu)).esp + 15 = esp0
    rw [low]
    omega
  · change (stack.pushAll (entryWords true vector error cpu)).mem
      ((stack.pushAll (entryWords true vector error cpu)).esp + 11) = USER_CS
    rw [low, ← third, top]
    congr 1
    omega
  · intro _
    change (stack.pushAll (entryWords true vector error cpu)).mem
      ((stack.pushAll (entryWords true vector error cpu)).esp + 13) = cpu.userEsp
    rw [low, ← first, top]
    congr 1
    omega
  · intro a above
    exact stack.pushAll_above _ a above

theorem pad_spec (regs : Regs) (s : Stack) :
    (pad regs s).esp = s.esp - 2 ∧
      (∀ i : Nat, i < 13 → (pad regs s).mem (s.esp - 2 + i) = s.mem (s.esp + i)) ∧
      ∀ a, s.esp + 11 ≤ a → (pad regs s).mem a = s.mem a := by
  have length : (s.pushAll regs.words).esp = s.esp - 8 := by
    rw [WordStack.pushAll_esp]
    rfl
  refine ⟨?_, ?_, ?_⟩
  · simp only [pad, WordStack.drop, length]
    omega
  · intro i bound
    simp only [pad, WordStack.drop, length]
    rw [movs_spec _ _ _ _ _ (by omega), if_pos (by omega), WordStack.pushAll_above _ _ _ (by omega)]
    congr 1
    omega
  · intro a above
    simp only [pad, WordStack.drop, length]
    rw [movs_spec _ _ _ _ _ (by omega), if_neg (by omega), WordStack.pushAll_above _ _ _ (by omega)]

theorem depad_spec (s : Stack) :
    (depad s).esp = s.esp + 2 ∧
      (∀ i : Nat, i < 13 → (depad s).mem (s.esp + 2 + i) = s.mem (s.esp + i)) ∧
      ∀ a, s.esp + 15 ≤ a → (depad s).mem a = s.mem a := by
  refine ⟨rfl, ?_, ?_⟩
  · intro i bound
    simp only [depad]
    rw [movs_spec _ _ _ _ _ (by omega), if_pos (by omega), movs_spec _ _ _ _ _ (by omega),
      if_pos (by omega)]
    congr 1
    omega
  · intro a above
    simp only [depad]
    rw [movs_spec _ _ _ _ _ (by omega), if_neg (by omega), movs_spec _ _ _ _ _ (by omega),
      if_neg (by omega)]

theorem padded_frame (s : Stack) (vector error : UInt32) (cpu : Cpu) (regs : Regs) :
    FrameOk (pad regs (s.pushAll (entryWords false vector error cpu))).mem
      ⟨vector, false, true, (pad regs (s.pushAll (entryWords false vector error cpu))).esp,
        s.esp, cpu.userEsp, s.mem⟩ := by
  rcases entryWords_kernel vector error cpu with ⟨length, selector⟩
  have low : (s.pushAll (entryWords false vector error cpu)).esp = s.esp - 13 := by
    rw [WordStack.pushAll_esp, length]
    rfl
  rcases pad_spec regs (s.pushAll (entryWords false vector error cpu)) with ⟨esp, words, above⟩
  rw [low] at esp words above
  refine ⟨?_, ?_, ?_, ?_⟩
  · change (pad regs (s.pushAll (entryWords false vector error cpu))).esp + 15 = s.esp
    rw [esp]
    omega
  · change (pad regs (s.pushAll (entryWords false vector error cpu))).mem
      ((pad regs (s.pushAll (entryWords false vector error cpu))).esp + 11) = KERNEL_CS
    have moved := words 11 (by omega)
    rw [esp]
    refine moved.trans ?_
    rw [← s.pushAll_word _ 1 _ selector]
    congr 1
    omega
  · intro fromUser
    cases fromUser
  · intro a high
    change s.esp ≤ a at high
    rw [above a (by omega)]
    exact s.pushAll_above _ a high

theorem enterProc_user (p : Proc) (vector error : UInt32) (cpu : Cpu)
    (process : p.pid ≠ 0) (outside : p.frames = []) :
    ProcOk (enterProc p false true vector error cpu) := by
  have frame := user_frame p.stack.mem p.esp0 vector vector error cpu
  simp only [enterProc, outside]
  refine ⟨?_, ?_, ?_, fun _ => le_rfl, List.pairwise_singleton .., ?_, ?_⟩
  · intro f member
    rw [List.mem_singleton.mp member]
    exact frame
  · intro f member
    rw [List.mem_singleton.mp member]
    simp [process]
  · intro f member
    rw [List.mem_singleton.mp member]
    simp [process]
  · intro f member
    cases member
    exact le_rfl
  · intro f member
    cases member

theorem enterProc_idle (p : Proc) (vector error : UInt32) (cpu : Cpu) (ok : ProcOk p)
    (idle : p.pid = 0) (nesting : p.frames = [] ∨ vector < 32) :
    ProcOk (enterProc p true false vector error cpu) := by
  have frame := padded_frame p.stack vector error cpu (entryRegs cpu.regs)
  have kept (a : Int) (above : p.stack.esp ≤ a) :
      (pad (entryRegs cpu.regs) (p.stack.pushAll (entryWords false vector error cpu))).mem a =
        p.stack.mem a := by
    rcases pad_spec (entryRegs cpu.regs) (p.stack.pushAll (entryWords false vector error cpu))
      with ⟨_, _, rest⟩
    rw [WordStack.pushAll_esp, (entryWords_kernel vector error cpu).1] at rest
    rw [rest a (by omega)]
    exact p.stack.pushAll_above _ a above
  simp only [enterProc]
  constructor
  case frames =>
    intro f member
    rcases List.mem_cons.mp member with rfl | inside
    · exact frame
    · apply frameOk_congr _ _ f (ok.frames f inside)
      intro a above
      have below := stack_below_frames p ok f inside
      exact kept a (by omega)
  case padded =>
    intro f member
    rcases List.mem_cons.mp member with rfl | inside
    · simp [idle]
    · exact ok.padded f inside
  case fromUser =>
    intro f member
    rcases List.mem_cons.mp member with rfl | inside
    · simp [idle]
    · exact ok.fromUser f inside
  case single => exact fun process => absurd idle process
  case nested =>
    rw [List.pairwise_cons]
    exact ⟨fun g member => stack_below_frames p ok g member, ok.nested⟩
  case top =>
    intro f member
    cases member
    exact le_rfl
  case inner =>
    intro f member
    cases shape : p.frames with
    | nil =>
        rw [shape] at member
        cases member
    | cons g rest =>
        rw [shape, List.dropLast_cons_cons] at member
        rcases List.mem_cons.mp member with rfl | inside
        · exact nesting.resolve_left (by rw [shape]; exact List.cons_ne_nil g rest)
        · exact ok.inner f (by rw [shape]; exact inside)

theorem procOk_tail (p q : Proc) (f : Frame) (rest : List Frame) (ok : ProcOk p)
    (shape : p.frames = f :: rest) (frames : q.frames = rest) (pid : q.pid = p.pid)
    (esp : rest ≠ [] → q.stack.esp = f.esp) (kept : ∀ a, f.esp ≤ a → q.stack.mem a = p.stack.mem a) :
    ProcOk q := by
  have inside (g : Frame) (member : g ∈ rest) : g ∈ p.frames := by
    rw [shape]
    exact List.mem_cons_of_mem f member
  have nested := ok.nested
  rw [shape, List.pairwise_cons] at nested
  constructor
  case frames =>
    intro g member
    rw [frames] at member
    apply frameOk_congr _ _ g (ok.frames g (inside g member))
    intro a above
    have below := nested.1 g member
    exact kept a (by omega)
  case padded =>
    intro g member
    rw [frames] at member
    rw [pid]
    exact ok.padded g (inside g member)
  case fromUser =>
    intro g member
    rw [frames] at member
    rw [pid]
    exact ok.fromUser g (inside g member)
  case single =>
    intro process
    have single := ok.single (pid ▸ process)
    rw [shape, List.length_cons] at single
    rw [frames]
    omega
  case nested =>
    rw [frames]
    exact nested.2
  case top =>
    intro g member
    rw [frames] at member
    have there := List.mem_of_mem_head? member
    rw [esp (List.ne_nil_of_mem there)]
    exact nested.1 g there
  case inner =>
    intro g member
    rw [frames] at member
    apply ok.inner g
    cases rest with
    | nil => cases member
    | cons h more =>
        rw [shape, List.dropLast_cons_cons]
        exact List.mem_cons_of_mem f member

theorem leaveProc_user (p : Proc) (f : Frame) (rest : List Frame) (ok : ProcOk p)
    (shape : p.frames = f :: rest) (process : p.pid ≠ 0) :
    ProcOk (leaveProc p false f rest) ∧ (leaveProc p false f rest).userEsp = f.userEsp ∧
      (leaveProc p false f rest).stack.mem = p.stack.mem := by
  have member : f ∈ p.frames := by
    rw [shape]
    exact List.mem_cons_self
  have frame := ok.frames f member
  have fromUser : f.fromUser = true := by
    rw [ok.fromUser f member]
    simp [process]
  have selector := frame.selector
  rw [fromUser, if_pos rfl] at selector
  have result : leaveProc p false f rest =
      { p with
        stack := ⟨p.stack.mem, f.base + 8 + 2 + 3 + 2⟩
        userEsp := p.stack.mem (f.base + 8 + 2 + 3)
        frames := rest } := by
    have cs : p.stack.mem (f.base + 8 + 2 + 1) = USER_CS := by
      rw [← selector]
      congr 1
      omega
    simp only [leaveProc, iret, WordStack.drop, Bool.false_eq_true, if_false, cs]
    rw [if_pos (by decide)]
  have last : rest = [] := by
    have single := ok.single process
    rw [shape, List.length_cons] at single
    exact List.length_eq_zero_iff.mp (by omega)
  rw [result]
  refine ⟨procOk_tail p _ f rest ok shape rfl rfl ?_ (fun a _ => rfl), ?_, rfl⟩
  · intro more
    exact absurd last more
  · rw [← frame.pointer fromUser]
    change p.stack.mem (f.base + 8 + 2 + 3) = p.stack.mem (f.base + 13)
    congr 1
    omega

theorem leaveProc_idle (p : Proc) (f : Frame) (rest : List Frame) (ok : ProcOk p)
    (shape : p.frames = f :: rest) (idle : p.pid = 0) :
    ProcOk (leaveProc p true f rest) ∧ (leaveProc p true f rest).stack.esp = f.esp ∧
      ∀ a, f.esp ≤ a → (leaveProc p true f rest).stack.mem a = p.stack.mem a := by
  have member : f ∈ p.frames := by
    rw [shape]
    exact List.mem_cons_self
  have frame := ok.frames f member
  have extent := frame.extent
  have fromUser : f.fromUser = false := by
    rw [ok.fromUser f member]
    simp [idle]
  have selector := frame.selector
  rw [fromUser, if_neg (by decide)] at selector
  rcases depad_spec ⟨p.stack.mem, f.base⟩ with ⟨esp, words, above⟩
  set stack := depad ⟨p.stack.mem, f.base⟩ with stackShape
  have result : leaveProc p true f rest =
      { p with stack := ⟨stack.mem, f.base + 2 + 8 + 2 + 3⟩, frames := rest } := by
    have cs : stack.mem (f.base + 2 + 8 + 2 + 1) = KERNEL_CS := by
      rw [← selector]
      have moved := words 11 (by omega)
      refine Eq.trans ?_ moved
      congr 1
      change f.base + 2 + 8 + 2 + 1 = f.base + 2 + 11
      omega
    have low : stack.esp = f.base + 2 := esp
    simp only [leaveProc, if_true, iret, WordStack.drop, ← stackShape, low, cs]
    rw [if_neg (by decide)]
  have top : f.base + 2 + 8 + 2 + 3 = f.esp := by omega
  have kept (a : Int) (high : f.esp ≤ a) : stack.mem a = p.stack.mem a :=
    above a (by change f.base + 15 ≤ a; omega)
  rw [result]
  exact ⟨procOk_tail p _ f rest ok shape rfl rfl (fun _ => top) kept, top, kept⟩

structure Inv (s : State) : Prop where
  procs : ∀ i p, s.procs i = some p → ProcOk p
  running : ∃ p, s.procs s.active = some p ∧ s.activePid = p.pid ∧
    s.intDepth = Int8.ofNat p.frames.length
  suspended : ∀ i p, i ≠ s.active → s.procs i = some p → p.frames.length = 1

theorem depads_eq (s : State) (p : Proc) (inv : Inv s) (present : s.procs s.active = some p) :
    p.frames ≠ [] → depads s = (p.pid == 0) := by
  intro inside
  rcases inv.running with ⟨q, here, pid, depth⟩
  have same : q = p := Option.some.inj (here.symm.trans present)
  subst same
  by_cases idle : q.pid = 0
  · simp [depads, pid, idle]
  · have single := (inv.procs _ q present).single idle
    have one : q.frames.length = 1 := by
      have positive := List.length_pos_iff.mpr inside
      omega
    rw [depads, depth, one, pid]
    simp

theorem inv_balanced (s : State) (inv : Inv s) : Balanced s := by
  intro p f rest present shape
  have ok := inv.procs _ p present
  have member : f ∈ p.frames := by
    rw [shape]
    exact List.mem_cons_self
  have padded := ok.padded f member
  have fromUser := ok.fromUser f member
  have decision := depads_eq s p inv present (List.ne_nil_of_mem member)
  have result : leave s = some { s.setActive (leaveProc p (depads s) f rest) with
      intDepth := s.intDepth - 1 } := by
    simp only [leave, present, shape]
  refine ⟨decision.trans padded.symm, _, leaveProc p (depads s) f rest, result, ?_, ?_⟩
  · exact Function.update_self ..
  by_cases idle : p.pid = 0
  · have depadded : depads s = true := by simp [decision, idle]
    have kernel : f.fromUser = false := by simp [fromUser, idle]
    rcases leaveProc_idle p f rest ok shape idle with ⟨_, esp, kept⟩
    rw [depadded, kernel, if_neg (by decide)]
    refine ⟨esp, fun a above => ?_⟩
    rw [kept a above]
    exact (ok.frames f member).above a above
  · have undisturbed : depads s = false := by simp [decision, idle]
    have user : f.fromUser = true := by simp [fromUser, idle]
    rcases leaveProc_user p f rest ok shape idle with ⟨_, esp, kept⟩
    rw [undisturbed, user, if_pos rfl]
    refine ⟨esp, fun a above => ?_⟩
    rw [kept]
    exact (ok.frames f member).above a above

theorem setActive_inv (s : State) (p q : Proc) (depth : Int8) (inv : Inv s)
    (present : s.procs s.active = some p) (ok : ProcOk q) (pid : q.pid = p.pid)
    (level : depth = Int8.ofNat q.frames.length) :
    Inv { s.setActive q with intDepth := depth } := by
  rcases inv.running with ⟨r, here, activePid, _⟩
  have same : r = p := Option.some.inj (here.symm.trans present)
  subst same
  refine ⟨?_, ⟨q, Function.update_self .., activePid.trans pid.symm, level⟩, ?_⟩
  · intro i r there
    change Function.update s.procs s.active (some q) i = some r at there
    by_cases active : i = s.active
    · rw [active, Function.update_self] at there
      rw [← Option.some.inj there]
      exact ok
    · rw [Function.update_of_ne active] at there
      exact inv.procs i r there
  · intro i r other there
    change i ≠ s.active at other
    change Function.update s.procs s.active (some q) i = some r at there
    rw [Function.update_of_ne other] at there
    exact inv.suspended i r other there

theorem iret_frames (p : Proc) (s : Stack) (rest : List Frame) :
    (iret p s rest).frames = rest ∧ (iret p s rest).pid = p.pid := by
  simp only [iret]
  split
  · exact ⟨rfl, rfl⟩
  · exact ⟨rfl, rfl⟩

theorem leaveProc_ok (p : Proc) (f : Frame) (rest : List Frame) (ok : ProcOk p)
    (shape : p.frames = f :: rest) :
    ProcOk (leaveProc p (p.pid == 0) f rest) ∧ (leaveProc p (p.pid == 0) f rest).frames = rest ∧
      (leaveProc p (p.pid == 0) f rest).pid = p.pid := by
  refine ⟨?_, iret_frames ..⟩
  by_cases idle : p.pid = 0
  · rw [idle]
    exact (leaveProc_idle p f rest ok shape idle).1
  · have process : (p.pid == 0) = false := by simp [idle]
    rw [process]
    exact (leaveProc_user p f rest ok shape idle).1

theorem handler_ok (p : Proc) (f : Frame) (rest : List Frame) (stack : Stack) (ok : ProcOk p)
    (shape : p.frames = f :: rest) (esp : stack.esp ≤ f.base)
    (kept : ∀ a, f.base + 8 ≤ a → stack.mem a = p.stack.mem a) :
    ProcOk { p with stack := stack, frames := f :: rest } := by
  rw [← shape]
  refine { ok with frames := ?_, top := ?_ }
  · intro g member
    have inside : g ∈ f :: rest := shape ▸ member
    apply frameOk_congr _ _ g (ok.frames g member)
    intro a above
    apply kept a
    rcases List.mem_cons.mp inside with rfl | deeper
    · exact above
    · have nested := ok.nested
      rw [shape, List.pairwise_cons] at nested
      have below := nested.1 g deeper
      have extent := (ok.frames f (shape ▸ List.mem_cons_self)).extent
      omega
  · intro g member
    change g ∈ p.frames.head? at member
    rw [shape] at member
    cases member
    exact esp

theorem exec_ok (p : Proc) (f : Frame) (rest : List Frame) (ok : ProcOk p)
    (shape : p.frames = f :: rest) (fromUser : f.fromUser = true) :
    ProcOk { p with
      stack := { p.stack with
        mem := Function.update (Function.update p.stack.mem (f.base + 10) 0) (f.base + 13)
          EXEC_ESP }
      frames := { f with userEsp := EXEC_ESP } :: rest } := by
  have member : f ∈ p.frames := shape ▸ List.mem_cons_self
  have frame := ok.frames f member
  have extent := frame.extent
  have process : p.pid ≠ 0 := by
    intro idle
    have kernel := ok.fromUser f member
    rw [fromUser, idle] at kernel
    cases kernel
  have single := ok.single process
  rw [shape, List.length_cons] at single
  have last : rest = [] := List.length_eq_zero_iff.mp (by omega)
  subst last
  refine ⟨?_, ?_, ?_, fun _ => le_rfl, List.pairwise_singleton .., ?_, ?_⟩
  · intro g there
    rw [List.mem_singleton.mp there]
    refine ⟨extent, ?_, ?_, ?_⟩
    · change Function.update _ _ _ (f.base + 11) = _
      rw [Function.update_of_ne (by omega), Function.update_of_ne (by omega)]
      exact frame.selector
    · intro _
      exact Function.update_self ..
    · intro a above
      change f.esp ≤ a at above
      change Function.update _ _ _ a = _
      rw [Function.update_of_ne (by omega), Function.update_of_ne (by omega)]
      exact frame.above a above
  · intro g there
    rw [List.mem_singleton.mp there]
    exact ok.padded f member
  · intro g there
    rw [List.mem_singleton.mp there]
    exact ok.fromUser f member
  · intro g there
    cases there
    exact ok.top f (by rw [shape]; rfl)
  · intro g there
    cases there

theorem initKstack_ok (pid : UInt32) (esp0 : Int) (mem : Int → UInt32) (vector error : UInt32)
    (cpu : Cpu) (process : pid ≠ 0) : ProcOk (initKstack pid esp0 mem vector error cpu) := by
  have frame := user_frame mem esp0 vector 0 error cpu
  simp only [initKstack]
  refine ⟨?_, ?_, ?_, fun _ => le_rfl, List.pairwise_singleton .., ?_, ?_⟩
  · intro f member
    rw [List.mem_singleton.mp member]
    exact frame
  · intro f member
    rw [List.mem_singleton.mp member]
    simp [process]
  · intro f member
    rw [List.mem_singleton.mp member]
    simp [process]
  · intro f member
    cases member
    exact le_rfl
  · intro f member
    cases member

theorem create_inv (s : State) (index : Nat) (new : Proc) (inv : Inv s)
    (fresh : s.procs index = none) (ok : ProcOk new) (single : new.frames.length = 1) :
    Inv { s with procs := Function.update s.procs index (some new) } := by
  rcases inv.running with ⟨p, present, pid, depth⟩
  have other : s.active ≠ index := by
    intro same
    rw [← same, present] at fresh
    cases fresh
  refine ⟨?_, ⟨p, (Function.update_of_ne other ..).trans present, pid, depth⟩, ?_⟩
  · intro i q there
    change Function.update s.procs index _ i = some q at there
    by_cases here : i = index
    · rw [here, Function.update_self] at there
      rw [← Option.some.inj there]
      exact ok
    · rw [Function.update_of_ne here] at there
      exact inv.procs i q there
  · intro i q away there
    change Function.update s.procs index _ i = some q at there
    by_cases here : i = index
    · rw [here, Function.update_self] at there
      rw [← Option.some.inj there]
      exact single
    · rw [Function.update_of_ne here] at there
      exact inv.suspended i q away there

theorem caller_single (p : Proc) (f : Frame) (rest : List Frame) (ok : ProcOk p)
    (shape : p.frames = f :: rest) (calls : f.vector = 0x20 ∨ f.vector = 0x80) :
    p.frames.length = 1 := by
  cases rest with
  | nil =>
      rw [shape]
      rfl
  | cons g more =>
      have exceptional := ok.inner f (by
        rw [shape, List.dropLast_cons_cons]
        exact List.mem_cons_self)
      rcases calls with timer | call
      · rw [timer] at exceptional
        exact absurd exceptional (by decide)
      · rw [call] at exceptional
        exact absurd exceptional (by decide)

theorem scheduler_inv (s : State) (p q : Proc) (index : Nat) (inv : Inv s)
    (present : s.procs s.active = some p) (single : p.frames.length = 1)
    (there : s.procs index = some q) : Inv { s with active := index, activePid := q.pid } := by
  have lengths (i : Nat) (r : Proc) (some_ : s.procs i = some r) : r.frames.length = 1 := by
    by_cases old : i = s.active
    · rw [old, present] at some_
      rw [← Option.some.inj some_]
      exact single
    · exact inv.suspended i r old some_
  rcases inv.running with ⟨p', present', _, depth⟩
  refine ⟨inv.procs, ⟨q, there, rfl, ?_⟩, fun i r _ => lengths i r⟩
  change s.intDepth = _
  rw [depth, lengths _ p' present', lengths index q there]

theorem step_inv (s t : State) (event : Event) (inv : Inv s) (nested : NestedInIdle s event)
    (taken : step s event = some t) : Inv t := by
  rcases inv.running with ⟨p, present, pid, depth⟩
  have ok := inv.procs _ p present
  have deeper (q : Proc) (f : Frame) (shape : q.frames = f :: p.frames) :
      s.intDepth + 1 = Int8.ofNat q.frames.length := by
    rw [depth, shape, List.length_cons, Int8.ofNat_add]
    rfl
  cases event with
  | interrupt vector error cpu =>
      cases shape : p.frames with
      | cons f rest => simp [step, present, shape] at taken
      | nil =>
          simp only [step, present, shape, Option.some.injEq] at taken
          rw [← taken]
          apply setActive_inv s p _ _ inv present
          · by_cases idle : p.pid = 0
            · rw [pid, idle]
              exact enterProc_idle p vector error cpu ok idle (.inl shape)
            · have process : (p.pid == 0) = false := by simp [idle]
              rw [bne, pid, process]
              exact enterProc_user p vector error cpu idle shape
          · rfl
          · exact deeper _ _ rfl
  | exception vector error cpu =>
      cases shape : p.frames with
      | nil => simp [step, present, shape] at taken
      | cons f rest =>
          simp only [step, present, shape] at taken
          split at taken
          · rename_i exceptional
            rw [← Option.some.inj taken]
            have idle : p.pid = 0 := pid.symm.trans nested
            apply setActive_inv s p _ _ inv present
            · rw [pid, idle]
              exact enterProc_idle p vector error cpu ok idle (.inr exceptional)
            · rfl
            · exact deeper _ _ rfl
          · cases taken
  | work below mem =>
      cases shape : p.frames with
      | nil => simp [step, present, shape] at taken
      | cons f rest =>
          simp only [step, present, shape, Option.some.injEq] at taken
          rw [← taken]
          refine setActive_inv s p _ s.intDepth inv present ?_ rfl ?_
          · apply handler_ok p f rest _ ok shape
            · change f.base - below ≤ f.base
              omega
            · intro a above
              exact if_neg (by omega)
          · rw [depth, shape]
  | setReg index value =>
      cases shape : p.frames with
      | nil => simp [step, present, shape] at taken
      | cons f rest =>
          simp only [step, present, shape, Option.some.injEq] at taken
          rw [← taken]
          refine setActive_inv s p _ s.intDepth inv present ?_ rfl ?_
          · apply handler_ok p f rest _ ok shape
            · exact stack_below_frames p ok f (shape ▸ List.mem_cons_self)
            · intro a above
              have small := index.isLt
              exact Function.update_of_ne (by omega) ..
          · rw [depth, shape]
  | exec =>
      cases shape : p.frames with
      | nil => simp [step, present, shape] at taken
      | cons f rest =>
          simp only [step, present, shape] at taken
          split at taken
          · rename_i fromUser
            rw [← Option.some.inj taken]
            refine setActive_inv s p _ s.intDepth inv present ?_ rfl ?_
            · exact exec_ok p f rest ok shape fromUser
            · rw [depth, shape]
              rfl
          · cases taken
  | create index newPid esp0 mem vector error cpu =>
      simp only [step, present] at taken
      split at taken
      · rename_i fresh
        rw [← Option.some.inj taken]
        exact create_inv s index _ inv fresh.1
          (initKstack_ok newPid esp0 mem vector error cpu fresh.2) rfl
      · cases taken
  | scheduler index =>
      cases shape : p.frames with
      | nil => simp [step, present, shape] at taken
      | cons f rest =>
          simp only [step, present, shape] at taken
          split at taken
          · rename_i calls
            rcases Option.map_eq_some_iff.mp taken with ⟨q, there, rfl⟩
            exact scheduler_inv s p q index inv present (caller_single p f rest ok shape calls) there
          · cases taken
  | leave =>
      cases shape : p.frames with
      | nil => simp [step, present, shape] at taken
      | cons f rest =>
          simp only [step, leave, present, shape, Option.some.injEq] at taken
          rw [← taken]
          rw [depads_eq s p inv present (by rw [shape]; exact List.cons_ne_nil f rest)]
          rcases leaveProc_ok p f rest ok shape with ⟨okQ, frames, same⟩
          apply setActive_inv s p _ _ inv present okQ same
          rw [frames, depth, shape, List.length_cons, Int8.ofNat_add]
          exact Int8.add_sub_cancel ..

theorem initial_inv (esp0 : Int) (stack : Stack) : Inv (initial esp0 stack) where
  procs := by
    intro i p present
    simp only [initial] at present
    split at present
    · rw [← Option.some.inj present]
      exact ⟨fun _ member => (List.not_mem_nil member).elim,
        fun _ member => (List.not_mem_nil member).elim,
        fun _ member => (List.not_mem_nil member).elim, fun _ => Nat.zero_le 1, .nil,
        fun _ member => (Option.not_mem_none _ member).elim,
        fun _ member => (List.not_mem_nil member).elim⟩
    · cases present
  running := ⟨_, rfl, rfl, rfl⟩
  suspended := by
    intro i p other present
    simp only [initial, if_neg (show i ≠ 0 from other)] at present
    cases present

/-- In every run in which only idle's handlers are interrupted by exceptions, each exit
undoes what its entry did. -/
theorem nestedInIdle_run_balanced (esp0 : Int) (stack : Stack) (s : State)
    (run : Run step NestedInIdle (initial esp0 stack) s) : Balanced s := by
  apply inv_balanced
  apply run.invariant Inv (initial_inv esp0 stack)
  intro t event u inv nested taken
  exact step_inv t u event inv nested taken

def sampleCpu : Cpu := ⟨⟨1, 2, 3, 4, 5, 6, 7, 8⟩, 0x1000, 0x282, 0xbffffff0, 0x23⟩

def emptyStack : Stack := ⟨fun _ => 0, 0x1ff⟩

theorem idle_page_fault_balanced :
    ∃ s, Run step NestedInIdle (initial 0x1ff emptyStack) s ∧ s.intDepth = 2 ∧ Balanced s := by
  have run1 : Run step NestedInIdle (initial 0x1ff emptyStack) _ :=
    Run.refl.next (Event.interrupt 0x20 0 sampleCpu) trivial (by decide +kernel)
  have run2 := run1.next (Event.exception 14 2 sampleCpu) rfl (by decide +kernel)
  exact ⟨_, run2, by decide +kernel, nestedInIdle_run_balanced 0x1ff emptyStack _ run2⟩

theorem mismatch_unbalanced (s : State) (outer : List Bool)
    (entered : (s.procs s.active).map (fun p => p.frames.map Frame.padded) = some (false :: outer))
    (exits : depads s = true) : ¬ Balanced s := by
  intro balanced
  rcases Option.map_eq_some_iff.mp entered with ⟨p, present, flags⟩
  cases shape : p.frames with
  | nil => simp [shape] at flags
  | cons f rest =>
      have unpadded : f.padded = false := by
        rw [shape] at flags
        exact (List.cons.inj flags).1
      have same := (balanced p f rest present shape).1
      rw [exits, unpadded] at same
      cases same

/-- A page fault inside a system call of init: the entry does not pad, the exit would. -/
theorem process_page_fault_unbalanced :
    ¬ ∀ (esp0 : Int) (stack : Stack) (s : State),
      Run step anyStep (initial esp0 stack) s → Balanced s := by
  intro claim
  have run1 : Run step anyStep (initial 0x1ff emptyStack) _ :=
    Run.refl.next (Event.create 1 1 0x3ff (fun _ => 0) 0 0 sampleCpu) trivial (by decide +kernel)
  have run2 := run1.next (Event.interrupt 0x20 0 sampleCpu) trivial (by decide +kernel)
  have run3 := run2.next (Event.scheduler 1) trivial (by decide +kernel)
  have run4 := run3.next Event.leave trivial (by decide +kernel)
  have run5 := run4.next (Event.interrupt 0x80 0 sampleCpu) trivial (by decide +kernel)
  have run6 := run5.next (Event.exception 14 2 sampleCpu) trivial (by decide +kernel)
  have balanced := claim 0x1ff emptyStack _ run6
  exact mismatch_unbalanced _ [false] (by decide +kernel) (by decide +kernel) balanced

end TitorOS.Barrel.Isr
