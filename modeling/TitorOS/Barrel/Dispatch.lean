import TitorOS.Barrel.Switch

/-! The kernel stacks of the process ring under `scheduler()` of `kernel/scheduler.c`, with
`fork` and `init_proc` as the two callers of `init_kstack`. The kernel stacks and the
`stack` and `stack_pointer` fields of the structures lie in one memory; the page
directories and the descriptor tables are left out. -/

namespace TitorOS.Barrel.Dispatch

open TitorOS.Lib
open Scheduler (Ptr)
open Switch

structure Image where
  firstret : UInt32
  idleProc : Int
  low : 0x30080000 ≤ idleProc
  high : idleProc + 21 ≤ 0x30100000

def IDLE_KSTACK : Int := 0x3007fc00

def HEAP_BASE : Int := 0x30100000

def heapAt (page : Nat) : Int := HEAP_BASE + 1024 * page

def procAt (image : Image) : Ptr → Int
  | .idleProc => image.idleProc
  | .heap page => heapAt page

/-- How a process that does not run goes on. -/
inductive Resume where
  /-- By the return of its call of `switch_kstack`. -/
  | kept (esp : Int) (ret : UInt32) (regs : Saved)
  /-- Through `firstret`, into user mode. -/
  | first (context : Context)

/-- `resumes` is a ghost: what each process had when it last entered `switch_kstack`, or
what it was prepared with. -/
structure State where
  sched : Scheduler.State
  core : Core
  kstack : Ptr → Int
  esp0 : Int
  intDepth : Int8
  resumes : Ptr → Resume

def State.mem (s : State) : Int → UInt32 := s.core.stack.mem

def State.active (s : State) : Ptr := s.sched.activeProc

def initTss (kstack : Int) : Int := kstack / 1024 * 1024 + 1023

def onStack (s : State) (p : Ptr) (a : Int) : Bool := s.kstack p ≤ a && a < s.kstack p + 1024

def inProc (image : Image) (p : Ptr) (a : Int) : Bool :=
  procAt image p ≤ a && a < procAt image p + 21

/-- The process structures, and the stacks of the processes that do not run. -/
def guarded (image : Image) (s : State) (a : Int) : Bool :=
  s.sched.members.any fun p => inProc image p a || (p != s.active && onStack s p a)

def owned (s : State) (page : Nat) : Bool :=
  s.sched.created.any fun p => p == .heap page || s.kstack p == heapAt page

def work (image : Image) (s : State) (core : Core) (used : Kheap) : Option State :=
  if onStack s s.active core.stack.esp then
    let mem := fun a => if guarded image s a then s.mem a else core.stack.mem a
    let used := fun page => if owned s page then s.sched.used page else used page
    some { s with
      core := { core with stack := { core.stack with mem := mem } }
      sched := { s.sched with used := used } }
  else none

/-- The end of `scheduler()`: `sched` is the ring after the selection. The stack pointer
to load is read here, before the call. -/
def switch (image : Image) (s : State) (sched : Scheduler.State) (ret : UInt32) : State where
  sched := sched
  core :=
    let newstack := s.mem (procAt image sched.activeProc + STACK_POINTER)
    let oldstack := pointer (procAt image sched.oldProc + STACK_POINTER)
    callSwitch s.core.stack s.core.regs oldstack newstack ret
  kstack := s.kstack
  esp0 := initTss (s.kstack sched.activeProc)
  intDepth := s.intDepth
  resumes := Function.update s.resumes sched.oldProc
    (.kept (s.core.stack.esp - 3) ret s.core.regs)

/-- The frame of the call must fit in the page of the stack. -/
def hasRoom (s : State) : Prop := s.kstack s.active + 9 ≤ s.core.stack.esp

instance (s : State) : Decidable (hasRoom s) := inferInstanceAs (Decidable (_ ≤ _))

/-- The pages of the structure and of the kernel stack, in the order `fork` allocates. -/
def forkPages (used : Kheap) : Option (Nat × Nat) := do
  let (page, used) ← kmalloc used
  let (_, used) ← kmalloc used
  let used ← memCopy used
  let (_, used) ← kmalloc used
  let used ← memCopy used
  let (kstack, _) ← kmalloc used
  return (page, kstack)

/-- The user's registers at a system call, as its child has them. -/
def childContext (cpu : Isr.Cpu) : Context where
  edi := cpu.regs.edi
  esi := cpu.regs.esi
  ebp := cpu.regs.ebp
  ebx := cpu.regs.ebx
  edx := cpu.regs.edx
  ecx := cpu.regs.ecx
  eax := 0
  eip := cpu.eip
  cs := Isr.USER_CS
  eflags := 0x282
  userEsp := cpu.userEsp
  userSs := cpu.userSs

/-- The child's copy of `*isr_stack`, and what the two processes get in `eax`. -/
def copyStack (stack : Isr.Stack) (new : Int) (pid : UInt32) : Int → UInt32 :=
  let mem := movs 15 stack.esp (new + STACK) stack.mem
  let mem := Function.update mem (new + STACK + 12) 0x282
  let mem := Function.update mem (stack.esp + 7) pid
  Function.update mem (new + STACK + 7) 0

/-- The system call from its entry on. `esp` is then `isr_stack`. -/
def fork (image : Image) (s : State) (cpu : Isr.Cpu) : Option State := do
  let (page, kstack) ← forkPages s.sched.used
  let sched ← Scheduler.fork s.sched
  let stack := WordStack.pushAll ⟨s.mem, s.esp0⟩ (Isr.entryWords true 0x80 0 cpu)
  let new := heapAt page
  let mem := copyStack stack new (sched.procs (.heap page)).pid
  let mem := initKstack image.firstret new (heapAt kstack) mem
  return { s with
    sched := sched
    core := { s.core with stack := ⟨mem, stack.esp⟩ }
    kstack := Function.update s.kstack (.heap page) (heapAt kstack)
    intDepth := s.intDepth + 1
    resumes := Function.update s.resumes (.heap page) (.first (childContext cpu)) }

def initScheduler (image : Image) (used : Kheap) (core : Core) : Option State := do
  let (page, used1) ← kmalloc used
  let (kstack, _) ← kmalloc used1
  let sched ← Scheduler.initScheduler used
  let init := heapAt page
  let mem := core.stack.mem
  let mem := Function.update mem (init + STACK + 7) 0xcafebabe
  let mem := Function.update mem (init + STACK + 10) 0
  let mem := Function.update mem (init + STACK + 11) 0x1b
  let mem := Function.update mem (init + STACK + 12) 0x282
  let mem := Function.update mem (init + STACK + 13) 0xbffffffc
  let mem := Function.update mem (init + STACK + 14) 0x23
  if IDLE_KSTACK ≤ core.stack.esp ∧ core.stack.esp < IDLE_KSTACK + 1024 then
    return {
      sched := sched
      core := { core with
        stack := { core.stack with mem := initKstack image.firstret init (heapAt kstack) mem } }
      kstack := fun p => if p = .idleProc then IDLE_KSTACK else heapAt kstack
      esp0 := initTss IDLE_KSTACK
      intDepth := 0
      resumes := fun _ => .first (contextAt mem (init + STACK)) }
  else none

inductive Event where
  | interrupt
  | leave
  | work (core : Core) (used : Kheap)
  | fork (cpu : Isr.Cpu)
  | unblock (p : Ptr)
  | scheduler (ret : UInt32)
  | block (ret : UInt32)

/-- Interrupts come from user mode and the idle loop, since handlers run with interrupts
off; an exception in a handler is over before the handler goes on, and part of `work`. -/
def step (image : Image) (s : State) : Event → Option State
  | .interrupt => if s.intDepth = 0 then some { s with intDepth := s.intDepth + 1 } else none
  | .leave => if s.intDepth = 1 then some { s with intDepth := s.intDepth - 1 } else none
  | .work core used => work image s core used
  | .fork cpu =>
      if s.intDepth = 0 ∧ s.active ≠ .idleProc ∧ cpu.regs.edx = 5 then fork image s cpu else none
  | .unblock p =>
      if p ∈ s.sched.members then some { s with sched := Scheduler.unblock s.sched p } else none
  | .scheduler ret =>
      if s.intDepth = 1 ∧ hasRoom s then
        (Scheduler.scheduler s.sched).map fun sched => switch image s sched ret
      else none
  | .block ret =>
      if s.intDepth = 1 ∧ s.active ≠ .idleProc ∧ hasRoom s then
        (Scheduler.block s.sched).map fun sched => switch image s sched ret
      else none

def depads (s : State) : Bool := s.intDepth > 1 || s.sched.activePid == 0

/-- The process switched to goes on with what it had. -/
def Resumed (image : Image) (s : State) : Prop :=
  match s.resumes s.active with
  | .kept esp ret regs =>
      s.core.eip = ret ∧ s.core.stack.esp = esp + 1 ∧ s.core.regs = regs
  | .first context =>
      s.core.eip = image.firstret ∧ firstret (depads s) s.core.stack = context ∧
        contextAt s.mem (procAt image s.active + STACK) = context

def Transparent (image : Image) (_ : State) : Event → State → Prop
  | .scheduler _, t => Resumed image t
  | .block _, t => Resumed image t
  | _, _ => True

/-- Another process is READY, or the stack pointer that the caller saved last time is the
one that this call will save. -/
def Fresh (image : Image) (s : State) : Event → Prop
  | .scheduler _ =>
      (∃ q ∈ s.sched.members, q ≠ s.active ∧ s.sched.ready q = true) ∨
        address (s.mem (procAt image s.active + STACK_POINTER)) = frameOf s.core.stack.esp
  | _ => True

/-- Every process has a page for its structure and one for its kernel stack. -/
structure Layout (image : Image) (created : List Ptr) (used : Kheap) (kstack : Ptr → Int) :
    Prop where
  idle : kstack .idleProc = IDLE_KSTACK
  procs : ∀ p ∈ created, ∃ page, p = .heap page ∧ page < HEAP_PAGES ∧ used page = true
  kstacks : ∀ p ∈ created, ∃ page, kstack p = heapAt page ∧ page < HEAP_PAGES ∧ used page = true
  apart : ∀ p ∈ created, ∀ q ∈ created, kstack p ≠ procAt image q
  distinct : ∀ p ∈ created, ∀ q ∈ created, p ≠ q → kstack p ≠ kstack q

section layout

variable {image : Image} {created : List Ptr} {used : Kheap} {kstack : Ptr → Int}

theorem Layout.stack_bounds (layout : Layout image created used kstack) (p : Ptr)
    (member : p ∈ Ptr.idleProc :: created) :
    IDLE_KSTACK ≤ kstack p ∧ kstack p ≤ 0x30200000 - 1024 ∧ kstack p % 1024 = 0 := by
  rcases List.mem_cons.mp member with rfl | made
  · rw [layout.idle]
    decide
  · obtain ⟨page, same, bound, _⟩ := layout.kstacks p made
    rw [same]
    simp only [heapAt, HEAP_BASE, HEAP_PAGES, IDLE_KSTACK] at bound ⊢
    omega

theorem Layout.proc_bounds (layout : Layout image created used kstack) (p : Ptr)
    (member : p ∈ Ptr.idleProc :: created) :
    IDLE_KSTACK + 1024 ≤ procAt image p ∧ procAt image p + 21 ≤ 0x30200000 := by
  have low := image.low
  have high := image.high
  rcases List.mem_cons.mp member with rfl | made
  · simp only [procAt, IDLE_KSTACK]
    omega
  · obtain ⟨page, rfl, bound, _⟩ := layout.procs p made
    simp only [procAt, heapAt, HEAP_BASE, HEAP_PAGES, IDLE_KSTACK] at bound ⊢
    omega

theorem Layout.stack_proc (layout : Layout image created used kstack) (p q : Ptr)
    (member : p ∈ Ptr.idleProc :: created) (other : q ∈ Ptr.idleProc :: created) :
    procAt image q + 21 ≤ kstack p ∨ kstack p + 1024 ≤ procAt image q := by
  have low := image.low
  have high := image.high
  rcases List.mem_cons.mp member with rfl | made
  · have bounds := layout.proc_bounds q other
    rw [layout.idle]
    omega
  · obtain ⟨page, same, bound, _⟩ := layout.kstacks p made
    rcases List.mem_cons.mp other with rfl | made'
    · rw [same]
      simp only [procAt, heapAt, HEAP_BASE]
      omega
    · have apart := layout.apart p made q made'
      obtain ⟨page', rfl, bound', _⟩ := layout.procs q made'
      rw [same] at apart ⊢
      simp only [procAt, heapAt, HEAP_BASE] at apart ⊢
      omega

theorem Layout.stack_stack (layout : Layout image created used kstack) (p q : Ptr)
    (member : p ∈ Ptr.idleProc :: created) (member' : q ∈ Ptr.idleProc :: created)
    (other : p ≠ q) : kstack q + 1024 ≤ kstack p ∨ kstack p + 1024 ≤ kstack q := by
  have aligned := (layout.stack_bounds p member).2.2
  have aligned' := (layout.stack_bounds q member').2.2
  have distinct : kstack p ≠ kstack q := by
    have heap (r : Ptr) (made : r ∈ created) : kstack r ≠ IDLE_KSTACK := by
      obtain ⟨page, same, _⟩ := layout.kstacks r made
      rw [same]
      simp only [heapAt, HEAP_BASE, IDLE_KSTACK]
      omega
    rcases List.mem_cons.mp member with rfl | made
    · rw [layout.idle]
      exact (heap q ((List.mem_cons.mp member').resolve_left other.symm)).symm
    · rcases List.mem_cons.mp member' with rfl | made'
      · rw [layout.idle]
        exact heap p made
      · exact layout.distinct p made q made' other
  omega

theorem Layout.proc_proc (layout : Layout image created used kstack) (p q : Ptr)
    (member : p ∈ Ptr.idleProc :: created) (member' : q ∈ Ptr.idleProc :: created)
    (other : p ≠ q) :
    procAt image q + 21 ≤ procAt image p ∨ procAt image p + 21 ≤ procAt image q := by
  have high := image.high
  rcases List.mem_cons.mp member with rfl | made
  · obtain ⟨page, rfl, _⟩ := layout.procs q ((List.mem_cons.mp member').resolve_left other.symm)
    simp only [procAt, heapAt, HEAP_BASE]
    omega
  · obtain ⟨page, rfl, _⟩ := layout.procs p made
    rcases List.mem_cons.mp member' with rfl | made'
    · simp only [procAt, heapAt, HEAP_BASE]
      omega
    · obtain ⟨page', rfl, _⟩ := layout.procs q made'
      have differ : page ≠ page' := fun same => other (same ▸ rfl)
      simp only [procAt, heapAt, HEAP_BASE]
      omega

end layout

/-- The words that will take a process on are in its stack and in its structure. -/
def Asleep (image : Image) (mem : Int → UInt32) (kstack : Int) (p : Ptr) : Resume → Prop
  | .kept esp ret regs =>
      kstack + 6 ≤ esp ∧ esp + 3 < kstack + 1024 ∧
        address (mem (procAt image p + STACK_POINTER)) = esp - 6 ∧ mem esp = ret ∧
        savedAt mem (esp - 6) = regs
  | .first context =>
      p ≠ .idleProc ∧ Prepared image.firstret (procAt image p) kstack context mem

theorem prepared_congr (firstret : UInt32) (proc kstack : Int) (context : Context)
    (mem mem' : Int → UInt32)
    (same : ∀ a, kstack ≤ a ∧ a < kstack + 1024 ∨ proc ≤ a ∧ a < proc + 21 → mem' a = mem a)
    (prepared : Prepared firstret proc kstack context mem) :
    Prepared firstret proc kstack context mem' where
  pointer := by
    rw [same _ (.inr (by simp only [STACK_POINTER]; omega))]
    exact prepared.pointer
  returns := by
    rw [same _ (.inl (by omega))]
    exact prepared.returns
  frame := by
    rw [← prepared.frame]
    apply contextAt_congr
    intro i bound
    exact same _ (.inl (by omega))
  field := by
    rw [← prepared.field]
    apply contextAt_congr
    intro i bound
    exact same _ (.inr (by simp only [STACK]; omega))

theorem asleep_congr (image : Image) (mem mem' : Int → UInt32) (kstack : Int) (p : Ptr)
    (resume : Resume)
    (same : ∀ a, kstack ≤ a ∧ a < kstack + 1024 ∨
      procAt image p ≤ a ∧ a < procAt image p + 21 → mem' a = mem a)
    (asleep : Asleep image mem kstack p resume) : Asleep image mem' kstack p resume := by
  cases resume with
  | first context => exact ⟨asleep.1, prepared_congr _ _ _ _ mem mem' same asleep.2⟩
  | kept esp ret regs =>
      obtain ⟨low, high, pointer, returns, saved⟩ := asleep
      refine ⟨low, high, ?_, ?_, ?_⟩
      · rw [same _ (.inr (by simp only [STACK_POINTER]; omega))]
        exact pointer
      · rw [same _ (.inl (by omega))]
        exact returns
      · rw [← saved]
        apply savedAt_congr
        intro b low' high'
        exact same _ (.inl (by omega))

structure Inv (image : Image) (s : State) : Prop where
  linked : ∃ ring, Scheduler.Linked s.sched ring
  layout : Layout image s.sched.created s.sched.used s.kstack
  pids : ∀ p ∈ s.sched.created, (s.sched.procs p).pid ≠ 0
  activePid : s.sched.activePid = (s.sched.procs s.active).pid
  depth : s.intDepth = 0 ∨ s.intDepth = 1
  esp0 : s.esp0 = s.kstack s.active + 1023
  running : onStack s s.active s.core.stack.esp = true
  asleep : ∀ p ∈ s.sched.members, p ≠ s.active →
    Asleep image s.mem (s.kstack p) p (s.resumes p)

theorem Inv.active_member {image : Image} {s : State} (inv : Inv image s) :
    s.active ∈ s.sched.members := by
  obtain ⟨ring, linked⟩ := inv.linked
  exact (linked.members _).mp (List.mem_of_mem_head? linked.head)

theorem onStack_iff (s : State) (p : Ptr) (a : Int) :
    onStack s p a = true ↔ s.kstack p ≤ a ∧ a < s.kstack p + 1024 := by
  simp [onStack]

theorem work_inv (image : Image) (s t : State) (core : Core) (used : Kheap) (inv : Inv image s)
    (taken : work image s core used = some t) : Inv image t := by
  obtain ⟨esp, same⟩ := Option.ite_none_right_eq_some.mp taken
  obtain rfl := Option.some.inj same
  obtain ⟨ring, linked⟩ := inv.linked
  have kept (p : Ptr) (made : p ∈ s.sched.created) (page : Nat)
      (own : p = .heap page ∨ s.kstack p = heapAt page) : owned s page = true := by
    rw [owned, List.any_eq_true]
    refine ⟨p, made, ?_⟩
    simpa using own
  refine ⟨⟨ring, ?_⟩, ?_, inv.pids, inv.activePid, inv.depth, inv.esp0, esp, ?_⟩
  · refine ⟨linked.isRing, linked.head, linked.members, ?_, linked.idle⟩
    intro p made
    obtain ⟨page, same, bound, inUse⟩ := linked.pages p made
    exact ⟨page, same, bound, (if_pos (kept p made page (.inl same))).trans inUse⟩
  · refine ⟨inv.layout.idle, ?_, ?_, inv.layout.apart, inv.layout.distinct⟩
    · intro p made
      obtain ⟨page, same, bound, inUse⟩ := inv.layout.procs p made
      exact ⟨page, same, bound, (if_pos (kept p made page (.inl same))).trans inUse⟩
    · intro p made
      obtain ⟨page, same, bound, inUse⟩ := inv.layout.kstacks p made
      exact ⟨page, same, bound, (if_pos (kept p made page (.inr same))).trans inUse⟩
  · intro p member other
    refine asleep_congr image s.mem _ _ p _ ?_ (inv.asleep p member other)
    intro a inside
    refine if_pos ?_
    rw [guarded, List.any_eq_true]
    refine ⟨p, member, ?_⟩
    have differs : (p != s.active) = true := bne_iff_ne.mpr other
    rcases inside with stack | proc
    · simp [differs, onStack, stack]
    · simp [inProc, proc]

instance (image : Image) (s : State) (event : Event) : Decidable (Fresh image s event) :=
  match event with
  | .scheduler _ => inferInstanceAs (Decidable (_ ∨ _))
  | .interrupt | .leave | .work _ _ | .fork _ | .unblock _ | .block _ =>
      inferInstanceAs (Decidable True)

/-- What the selection leaves of the ring. -/
structure Selected (s t : Scheduler.State) : Prop where
  linked : ∃ ring, Scheduler.Linked t ring
  old : t.oldProc = s.activeProc
  created : t.created = s.created
  used : t.used = s.used
  pids : ∀ p, (t.procs p).pid = (s.procs p).pid
  activePid : t.activePid = (t.procs t.activeProc).pid

theorem scheduler_selected (s t : Scheduler.State) (ring : List Ptr)
    (linked : Scheduler.Linked s ring) (taken : Scheduler.scheduler s = some t) :
    Selected s t := by
  obtain ⟨u, ring', selected, _, linked', _⟩ := Scheduler.scheduler_linked s ring linked
  obtain rfl : u = t := Option.some.inj (selected.symm.trans taken)
  obtain ⟨p, _, rfl⟩ := Option.map_eq_some_iff.mp taken
  exact ⟨⟨ring', linked'⟩, rfl, rfl, rfl, fun _ => rfl, rfl⟩

theorem setState_pid (s : Scheduler.State) (p q : Ptr) (state : Scheduler.ProcState) :
    ((Scheduler.setState s p state).procs q).pid = (s.procs q).pid := by
  by_cases same : q = p
  · simp [Scheduler.setState, same]
  · simp [Scheduler.setState, same]

theorem block_selected (s t : Scheduler.State) (ring : List Ptr)
    (linked : Scheduler.Linked s ring) (process : s.activeProc ≠ .idleProc)
    (taken : Scheduler.block s = some t) : Selected s t ∧ t.activeProc ≠ s.activeProc := by
  have idle : (Scheduler.setState s s.activeProc .waiting).ready .idleProc = true := by
    rw [Scheduler.setState_ready, if_neg process.symm]
    exact linked.idle
  have waiting := Scheduler.setState_linked s s.activeProc .waiting ring linked idle
  have chosen := scheduler_selected _ t ring waiting taken
  refine ⟨⟨chosen.linked, chosen.old, chosen.created, chosen.used, ?_, chosen.activePid⟩, ?_⟩
  · intro p
    rw [chosen.pids p, setState_pid]
  · intro same
    have noneReady := (Scheduler.scheduler_stays_iff _ t ring waiting taken).mp same
    rw [noneReady .idleProc List.mem_cons_self process.symm] at idle
    cases idle

section switching

variable {image : Image} {s : State} {sched : Scheduler.State} (ret : UInt32)

theorem switch_spec (inv : Inv image s) (chosen : Selected s.sched sched) (room : hasRoom s) :
    Switched s.core.stack s.core.regs (procAt image s.active + STACK_POINTER)
      (s.mem (procAt image sched.activeProc + STACK_POINTER)) ret
      (switch image s sched ret).core := by
  have member := inv.active_member
  have proc := inv.layout.proc_bounds s.active member
  have bounds := inv.layout.stack_bounds s.active member
  have apart := inv.layout.stack_proc s.active s.active member member
  have running := (onStack_iff s _ _).mp inv.running
  have fits : s.kstack s.active + 9 ≤ s.core.stack.esp := room
  have spec := callSwitch_spec s.core.stack s.core.regs (procAt image s.active + STACK_POINTER)
    (s.mem (procAt image sched.activeProc + STACK_POINTER)) ret
    (by simp only [STACK_POINTER, IDLE_KSTACK] at proc ⊢; omega)
    (by simp only [STACK_POINTER] at proc ⊢; omega)
    (by simp only [frameOf, STACK_POINTER]; omega)
  rw [switch, chosen.old]
  exact spec

theorem switch_frame (inv : Inv image s) (chosen : Selected s.sched sched) (room : hasRoom s)
    (p : Ptr) (member : p ∈ s.sched.members) (other : p ≠ s.active) (a : Int)
    (inside : s.kstack p ≤ a ∧ a < s.kstack p + 1024 ∨
      procAt image p ≤ a ∧ a < procAt image p + 21) :
    (switch image s sched ret).mem a = s.mem a := by
  have active := inv.active_member
  have kstacks := inv.layout.stack_stack p s.active member active other
  have procs := inv.layout.proc_proc p s.active member active other
  have mine := inv.layout.stack_proc p s.active member active
  have its := inv.layout.stack_proc s.active p active member
  have running := (onStack_iff s _ _).mp inv.running
  have fits : s.kstack s.active + 9 ≤ s.core.stack.esp := room
  apply (switch_spec ret inv chosen room).frame
  · simp only [STACK_POINTER]
    omega
  · simp only [frameOf]
    omega

theorem switch_kept (inv : Inv image s) (chosen : Selected s.sched sched) (room : hasRoom s)
    (p : Ptr) (member : p ∈ s.sched.members) (other : p ≠ s.active) :
    Asleep image (switch image s sched ret).mem (s.kstack p) p (s.resumes p) :=
  asleep_congr image s.mem _ _ p _ (switch_frame ret inv chosen room p member other)
    (inv.asleep p member other)

theorem switch_saved (inv : Inv image s) (chosen : Selected s.sched sched) (room : hasRoom s) :
    Asleep image (switch image s sched ret).mem (s.kstack s.active) s.active
      (.kept (s.core.stack.esp - 3) ret s.core.regs) := by
  have spec := switch_spec ret inv chosen room
  have bounds := inv.layout.stack_bounds s.active inv.active_member
  have running := (onStack_iff s _ _).mp inv.running
  have fits : s.kstack s.active + 9 ≤ s.core.stack.esp := room
  have frame : s.core.stack.esp - 3 - 6 = frameOf s.core.stack.esp := by
    rw [frameOf]
    omega
  refine ⟨by omega, by omega, ?_, spec.returns, ?_⟩
  · rw [frame]
    have stored : (switch image s sched ret).mem (procAt image s.active + STACK_POINTER) =
        pointer (frameOf s.core.stack.esp) := spec.stored
    rw [stored]
    simp only [IDLE_KSTACK] at bounds
    exact address_pointer _ (by rw [frameOf]; omega) (by rw [frameOf]; omega)
  · rw [frame]
    exact spec.saved

theorem switch_resumed (inv : Inv image s) (chosen : Selected s.sched sched) (room : hasRoom s)
    (depth : s.intDepth = 1) (other : sched.activeProc ≠ s.active) :
    Resumed image (switch image s sched ret) ∧
      onStack s sched.activeProc (switch image s sched ret).core.stack.esp = true := by
  have spec := switch_spec ret inv chosen room
  obtain ⟨ring, linked⟩ := chosen.linked
  have member : sched.activeProc ∈ s.sched.members := by
    have listed := (linked.members _).mp (List.mem_of_mem_head? linked.head)
    rw [Scheduler.State.members, chosen.created] at listed
    exact listed
  have before := inv.asleep _ member other
  have after := switch_kept ret inv chosen room _ member other
  have resume : (switch image s sched ret).resumes sched.activeProc =
      s.resumes sched.activeProc := by
    apply Function.update_of_ne
    rw [chosen.old]
    exact other
  set t := switch image s sched ret with shape
  have active : t.active = sched.activeProc := rfl
  rw [Resumed, active, resume]
  cases kind : s.resumes sched.activeProc with
  | kept esp ret' regs =>
      rw [kind] at before after
      obtain ⟨low, high, pointer, _, _⟩ := before
      obtain ⟨_, _, _, returns, saved⟩ := after
      have loaded : t.core.stack.esp = esp + 1 := by
        rw [spec.esp, pointer]
        omega
      refine ⟨⟨?_, loaded, ?_⟩, ?_⟩
      · rw [spec.eip, pointer, ← returns]
        congr 1
        omega
      · rw [spec.regs, pointer]
        exact saved
      · rw [loaded, onStack_iff]
        omega
  | first context =>
      rw [kind] at before after
      obtain ⟨process, prepared⟩ := after
      have made : sched.activeProc ∈ s.sched.created :=
        (List.mem_cons.mp member).resolve_left process
      have loaded : t.core.stack.esp = s.kstack sched.activeProc + 1008 := by
        rw [spec.esp, before.2.pointer]
        omega
      have user : depads t = false := by
        have pid : sched.activePid ≠ 0 := by
          rw [chosen.activePid, chosen.pids]
          exact inv.pids _ made
        have once : t.intDepth = 1 := depth
        have running : t.sched.activePid = sched.activePid := rfl
        simp [depads, once, running, pid]
      refine ⟨⟨?_, ?_, prepared.field⟩, ?_⟩
      · rw [spec.eip, before.2.pointer, ← prepared.returns]
        exact congrArg _ (by omega)
      · rw [user, firstret, if_neg Bool.false_ne_true, loaded]
        exact prepared.frame
      · rw [loaded, onStack_iff]
        omega

theorem switch_again_iff (inv : Inv image s) (chosen : Selected s.sched sched)
    (room : hasRoom s) (again : sched.activeProc = s.active) :
    Resumed image (switch image s sched ret) ↔
      address (s.mem (procAt image s.active + STACK_POINTER)) = frameOf s.core.stack.esp := by
  have spec := switch_spec ret inv chosen room
  rw [again] at spec
  have resume : (switch image s sched ret).resumes s.active =
      .kept (s.core.stack.esp - 3) ret s.core.regs := by
    rw [switch, chosen.old]
    exact Function.update_self ..
  set t := switch image s sched ret with shape
  have active : t.active = s.active := again
  rw [Resumed, active, resume]
  constructor
  · rintro ⟨_, esp, _⟩
    rw [spec.esp] at esp
    rw [frameOf]
    omega
  · intro current
    refine ⟨?_, ?_, ?_⟩
    · rw [spec.eip, current, ← spec.returns]
      congr 1
      rw [frameOf]
      omega
    · rw [spec.esp, current, frameOf]
      omega
    · rw [spec.regs, current]
      exact spec.saved

theorem switch_again_onStack (inv : Inv image s) (chosen : Selected s.sched sched)
    (room : hasRoom s) (again : sched.activeProc = s.active)
    (current : address (s.mem (procAt image s.active + STACK_POINTER)) =
      frameOf s.core.stack.esp) :
    onStack s sched.activeProc (switch image s sched ret).core.stack.esp = true := by
  have spec := switch_spec ret inv chosen room
  have running := (onStack_iff s _ _).mp inv.running
  have fits : s.kstack s.active + 9 ≤ s.core.stack.esp := room
  rw [spec.esp, again, current, onStack_iff, frameOf]
  omega

theorem switch_inv (inv : Inv image s) (chosen : Selected s.sched sched) (room : hasRoom s)
    (depth : s.intDepth = 1)
    (onward : onStack s sched.activeProc (switch image s sched ret).core.stack.esp = true) :
    Inv image (switch image s sched ret) := by
  have same : sched.members = s.sched.members := by
    rw [Scheduler.State.members, chosen.created]
    rfl
  obtain ⟨ring, linked⟩ := chosen.linked
  have member : sched.activeProc ∈ s.sched.members := by
    rw [← same]
    exact (linked.members _).mp (List.mem_of_mem_head? linked.head)
  have aligned := (inv.layout.stack_bounds _ member).2.2
  refine ⟨chosen.linked, ?_, ?_, chosen.activePid, .inr depth, ?_, onward, ?_⟩
  · have layout := inv.layout
    rw [← chosen.created, ← chosen.used] at layout
    exact layout
  · intro p made
    have listed : p ∈ s.sched.created := by
      rw [← chosen.created]
      exact made
    have pid : (sched.procs p).pid ≠ 0 := by
      rw [chosen.pids]
      exact inv.pids p listed
    exact pid
  · change initTss (s.kstack sched.activeProc) = s.kstack sched.activeProc + 1023
    rw [initTss]
    omega
  · intro p listed other
    have listed : p ∈ s.sched.members := by
      rw [← same]
      exact listed
    by_cases caller : p = s.active
    · have resume : (switch image s sched ret).resumes p =
          .kept (s.core.stack.esp - 3) ret s.core.regs := by
        rw [switch, chosen.old, caller]
        exact Function.update_self ..
      rw [resume, caller]
      exact switch_saved ret inv chosen room
    · have resume : (switch image s sched ret).resumes p = s.resumes p := by
        apply Function.update_of_ne
        rw [chosen.old]
        exact caller
      rw [resume]
      exact switch_kept ret inv chosen room p listed caller

end switching

end TitorOS.Barrel.Dispatch
