import TitorOS.Barrel.Dispatch

/-! The stacks that `fork` and `init_scheduler` prepare, and what a run of switches, forks
and other work makes of all stacks. -/

namespace TitorOS.Barrel.Dispatch

open TitorOS.Lib
open Scheduler (Ptr)
open Switch

/-- What `fork` does to the ring and to the heap: the two pages were free. -/
structure Forked (s t : Scheduler.State) (page kstack : Nat) : Prop where
  created : t.created = .heap page :: s.created
  active : t.activeProc = s.activeProc
  activePid : t.activePid = s.activePid
  pid : (t.procs (.heap page)).pid ≠ 0
  pids : ∀ p, p ≠ .heap page → (t.procs p).pid = (s.procs p).pid
  bounds : page < HEAP_PAGES ∧ kstack < HEAP_PAGES
  free : s.used page = false ∧ s.used kstack = false
  apart : kstack ≠ page
  taken : t.used page = true ∧ t.used kstack = true
  kept : ∀ other, s.used other = true → t.used other = true

theorem fork_forked (s t : Scheduler.State) (ring : List Ptr) (page kstack : Nat)
    (linked : Scheduler.Linked s ring) (pages : forkPages s.used = some (page, kstack))
    (taken : Scheduler.fork s = some t) : Forked s t page kstack := by
  simp only [forkPages, Option.bind_eq_bind, Option.bind_eq_some_iff, Option.pure_def,
    Option.some.injEq, Prod.exists, Prod.mk.injEq] at pages
  obtain ⟨page', used1, first, table, used2, second, used3, copy1, dir, used4, third, used5,
    copy2, kstack', used6, last, same, same'⟩ := pages
  obtain rfl := same.symm
  obtain rfl := same'.symm
  simp only [Scheduler.fork, first, second, copy1, third, copy2, last, Option.bind_eq_bind,
    Option.bind_some, Option.pure_def, Option.some.injEq] at taken
  rw [memCopy_eq _ _ copy1] at third
  rw [memCopy_eq _ _ copy2] at last
  obtain ⟨bound, free, rfl⟩ := kmalloc_spec _ _ _ first
  obtain ⟨bound', free', rfl⟩ := kmalloc_spec _ _ _ last
  have grow (other : Nat) (inUse : Function.update s.used page true other = true) :
      used4 other = true :=
    kmalloc_keeps _ _ _ _ third (kmalloc_keeps _ _ _ _ second inUse)
  have apart : kstack ≠ page := by
    rintro rfl
    rw [grow kstack (Function.update_self ..)] at free'
    cases free'
  have older (other : Nat) (inUse : s.used other = true) : used4 other = true := by
    apply grow
    by_cases same : other = page
    · rw [same, Function.update_self]
    · rw [Function.update_of_ne same, inUse]
  have parent : s.activeProc ≠ .heap page := by
    intro same
    have listed := (linked.members _).mp (List.mem_of_mem_head? linked.head)
    rw [same] at listed
    have notIdle : Ptr.heap page ≠ .idleProc := by
      intro idle
      cases idle
    obtain ⟨other, at_, _, inUse⟩ := linked.pages _ ((List.mem_cons.mp listed).resolve_left notIdle)
    cases at_
    rw [free] at inUse
    cases inUse
  rw [← taken]
  refine ⟨rfl, rfl, rfl, ?_, ?_, ⟨bound, bound'⟩, ⟨free, ?_⟩, apart, ⟨?_, ?_⟩, ?_⟩
  · simp [parent.symm]
  · intro p other
    by_cases own : p = s.activeProc
    · simp [own]
    · simp [own, other]
  · by_contra inUse
    rw [older kstack (by simpa using inUse)] at free'
    cases free'
  · exact (Function.update_of_ne apart.symm ..).trans (grow page (Function.update_self ..))
  · exact Function.update_self ..
  · intro other inUse
    by_cases same : other = kstack
    · rw [same]
      exact Function.update_self ..
    · exact (Function.update_of_ne same ..).trans (older other inUse)

theorem copyStack_frame (stack : Isr.Stack) (new : Int) (pid : UInt32) (a : Int)
    (apart : new + 21 ≤ stack.esp ∨ stack.esp + 15 ≤ new)
    (outside : a < stack.esp ∨ stack.esp + 15 ≤ a) (other : a < new ∨ new + 21 ≤ a) :
    copyStack stack new pid a = stack.mem a := by
  simp only [copyStack, STACK]
  rw [Function.update_of_ne (by omega), Function.update_of_ne (by omega),
    Function.update_of_ne (by omega), movs_spec _ _ _ _ _ (by omega), if_neg (by omega)]

theorem copyStack_word (stack : Isr.Stack) (new : Int) (pid : UInt32) (i : Nat) (bound : i < 15)
    (apart : new + 21 ≤ stack.esp ∨ stack.esp + 15 ≤ new) :
    copyStack stack new pid (new + STACK + i) =
      if i = 7 then 0 else if i = 12 then 0x282 else stack.mem (stack.esp + i) := by
  simp only [copyStack, STACK]
  by_cases eax : i = 7
  · rw [if_pos eax, eax]
    exact Function.update_self ..
  · rw [if_neg eax, Function.update_of_ne (by omega), Function.update_of_ne (by omega)]
    by_cases eflags : i = 12
    · rw [if_pos eflags, eflags]
      exact Function.update_self ..
    · rw [if_neg eflags, Function.update_of_ne (by omega), movs_spec _ _ _ _ _ (by omega),
        if_pos (by omega)]
      congr 1
      omega

theorem enter_esp (mem : Int → UInt32) (esp0 : Int) (cpu : Isr.Cpu) :
    (WordStack.pushAll ⟨mem, esp0⟩ (Isr.entryWords true 0x80 0 cpu)).esp = esp0 - 15 := by
  rw [WordStack.pushAll_esp, (Isr.entryWords_user 0x80 0 cpu).1]
  rfl

theorem copyStack_context (mem : Int → UInt32) (esp0 new : Int) (pid : UInt32) (cpu : Isr.Cpu)
    (apart : new + 21 ≤ esp0 - 15 ∨ esp0 ≤ new) :
    contextAt (copyStack (WordStack.pushAll ⟨mem, esp0⟩ (Isr.entryWords true 0x80 0 cpu)) new pid)
      (new + STACK) = childContext cpu := by
  set stack := WordStack.pushAll ⟨mem, esp0⟩ (Isr.entryWords true 0x80 0 cpu) with shape
  have esp : stack.esp = esp0 - 15 := enter_esp mem esp0 cpu
  have word (i : Nat) (w : UInt32) (bound : i < 15)
      (pushed : (Isr.entryWords true 0x80 0 cpu)[14 - i]? = some w) :
      copyStack stack new pid (new + STACK + i) =
        if i = 7 then 0 else if i = 12 then 0x282 else w := by
    have place := WordStack.pushAll_word ⟨mem, esp0⟩ _ _ _ pushed
    rw [copyStack_word stack new pid i bound (by omega), ← place, ← shape, esp]
    have same : esp0 - 15 + i = esp0 - 1 - (14 - i : Nat) := by omega
    rw [same]
  have first := word 0 _ (by omega) rfl
  simp only [Nat.cast_zero, Int.add_zero] at first
  simp only [contextAt, childContext, Context.mk.injEq]
  exact ⟨first, word 1 _ (by omega) rfl, word 2 _ (by omega) rfl, word 4 _ (by omega) rfl,
    word 5 _ (by omega) rfl, word 6 _ (by omega) rfl, word 7 cpu.regs.eax (by omega) rfl,
    word 10 _ (by omega) rfl, word 11 _ (by omega) rfl, word 12 cpu.eflags (by omega) rfl,
    word 13 _ (by omega) rfl, word 14 _ (by omega) rfl⟩

theorem Forked.fresh {image : Image} {s t : Scheduler.State} {kstacks : Ptr → Int}
    {page kstack : Nat} (forked : Forked s t page kstack)
    (layout : Layout image s.created s.used kstacks) (p : Ptr) (member : p ∈ s.members) :
    p ≠ .heap page := by
  rintro rfl
  obtain ⟨old, same, _, inUse⟩ := layout.procs _ ((List.mem_cons.mp member).resolve_left (by simp))
  have free := forked.free.1
  rw [Ptr.heap.inj same, inUse] at free
  cases free

theorem Layout.fork {image : Image} {s t : Scheduler.State} {kstacks : Ptr → Int}
    {page kstack : Nat} (layout : Layout image s.created s.used kstacks)
    (forked : Forked s t page kstack) :
    Layout image t.created t.used (Function.update kstacks (.heap page) (heapAt kstack)) := by
  have differs (used : Nat) (inUse : s.used used = true) : used ≠ page ∧ used ≠ kstack := by
    constructor
    · rintro rfl
      rw [forked.free.1] at inUse
      cases inUse
    · rintro rfl
      rw [forked.free.2] at inUse
      cases inUse
  have oldStack (p : Ptr) (made : p ∈ s.created) :
      Function.update kstacks (.heap page) (heapAt kstack) p = kstacks p :=
    Function.update_of_ne (forked.fresh layout p (List.mem_cons_of_mem _ made)) ..
  have newStack : Function.update kstacks (.heap page) (heapAt kstack) (.heap page) =
      heapAt kstack := Function.update_self ..
  have injective (m n : Nat) (same : heapAt m = heapAt n) : m = n := by
    simp only [heapAt] at same
    omega
  refine ⟨(Function.update_of_ne (by simp) ..).trans layout.idle, ?_, ?_, ?_, ?_⟩ <;>
    rw [forked.created]
  · intro p member
    rcases List.mem_cons.mp member with rfl | made
    · exact ⟨page, rfl, forked.bounds.1, forked.taken.1⟩
    · obtain ⟨old, same, bound, inUse⟩ := layout.procs p made
      exact ⟨old, same, bound, forked.kept old inUse⟩
  · intro p member
    rcases List.mem_cons.mp member with rfl | made
    · exact ⟨kstack, newStack, forked.bounds.2, forked.taken.2⟩
    · obtain ⟨old, same, bound, inUse⟩ := layout.kstacks p made
      exact ⟨old, (oldStack p made).trans same, bound, forked.kept old inUse⟩
  · intro p member q member'
    rcases List.mem_cons.mp member with rfl | made
    · rw [newStack]
      rcases List.mem_cons.mp member' with rfl | made'
      · exact fun same => forked.apart (injective _ _ same)
      · obtain ⟨old, rfl, _, inUse⟩ := layout.procs q made'
        exact fun same => (differs old inUse).2 (injective _ _ same).symm
    · rw [oldStack p made]
      rcases List.mem_cons.mp member' with rfl | made'
      · obtain ⟨old, same, _, inUse⟩ := layout.kstacks p made
        rw [same]
        exact fun same => (differs old inUse).1 (injective _ _ same)
      · exact layout.apart p made q made'
  · intro p member q member' other
    rcases List.mem_cons.mp member with rfl | made
    · obtain ⟨old, same, _, inUse⟩ :=
        layout.kstacks q ((List.mem_cons.mp member').resolve_left other.symm)
      rw [newStack, oldStack q ((List.mem_cons.mp member').resolve_left other.symm), same]
      exact fun same => (differs old inUse).2 (injective _ _ same).symm
    · rw [oldStack p made]
      rcases List.mem_cons.mp member' with rfl | made'
      · obtain ⟨old, same, _, inUse⟩ := layout.kstacks p made
        rw [newStack, same]
        exact fun same => (differs old inUse).2 (injective _ _ same)
      · rw [oldStack q made']
        exact layout.distinct p made q made' other

/-- The memory of a fork: outside of the frame of the system call and of the new
process nothing changes. -/
theorem fork_frame (firstret pid : UInt32) (mem : Int → UInt32) (esp0 new kstack a : Int)
    (cpu : Isr.Cpu) (apart : new + 21 ≤ kstack ∨ kstack + 1024 ≤ new)
    (parent : new + 21 ≤ esp0 - 15 ∨ esp0 ≤ new) (call : a < esp0 - 15 ∨ esp0 ≤ a)
    (proc : a < new ∨ new + 21 ≤ a) (stack : a < kstack ∨ kstack + 1024 ≤ a) :
    initKstack firstret new kstack
      (copyStack (WordStack.pushAll ⟨mem, esp0⟩ (Isr.entryWords true 0x80 0 cpu)) new pid) a =
        mem a := by
  have esp := enter_esp mem esp0 cpu
  rw [initKstack_frame _ _ _ _ _ apart (by simp only [STACK_POINTER]; omega) (by omega),
    copyStack_frame _ _ _ _ (by omega) (by omega) proc]
  rcases call with below | above
  · exact WordStack.pushAll_below _ _ a (by rw [(Isr.entryWords_user 0x80 0 cpu).1]; exact below)
  · exact WordStack.pushAll_above _ _ a above

theorem fork_inv (image : Image) (s t : State) (cpu : Isr.Cpu) (inv : Inv image s)
    (depth : s.intDepth = 0) (taken : fork image s cpu = some t) : Inv image t := by
  simp only [fork, Option.bind_eq_bind, Option.bind_eq_some_iff, Option.pure_def,
    Option.some.injEq, Prod.exists] at taken
  obtain ⟨page, kstack, pages, sched, forks, rfl⟩ := taken
  obtain ⟨ring, linked⟩ := inv.linked
  have forked := fork_forked s.sched sched ring page kstack linked pages forks
  obtain ⟨_, rest, _, _, _, linked', _, _⟩ := Scheduler.fork_linked _ _ ring linked forks
  have layout := inv.layout.fork forked
  set kstacks := Function.update s.kstack (.heap page) (heapAt kstack) with shape
  have newStack : kstacks (.heap page) = heapAt kstack := Function.update_self ..
  have oldStack (p : Ptr) (member : p ∈ s.sched.members) : kstacks p = s.kstack p :=
    Function.update_of_ne (forked.fresh inv.layout p member) ..
  have older (p : Ptr) (member : p ∈ s.sched.members) : p ∈ Ptr.idleProc :: sched.created := by
    rw [forked.created]
    rcases List.mem_cons.mp member with rfl | made
    · exact List.mem_cons_self
    · exact List.mem_cons_of_mem _ (List.mem_cons_of_mem _ made)
  have active := inv.active_member
  have stays : sched.activeProc = s.active := forked.active
  have new : Ptr.heap page ∈ Ptr.idleProc :: sched.created := by
    rw [forked.created]
    exact List.mem_cons_of_mem _ List.mem_cons_self
  have esp0 := inv.esp0
  have own := layout.stack_proc (.heap page) (.heap page) new new
  have parent := layout.stack_proc s.active (.heap page) (older _ active) new
  have bounds := layout.stack_bounds (.heap page) new
  rw [newStack] at own bounds
  rw [oldStack _ active] at parent
  have newProc : procAt image (.heap page) = heapAt page := rfl
  rw [newProc] at own parent
  refine ⟨⟨_, linked'⟩, layout, ?_, ?_, .inr (by rw [depth]; rfl), ?_, ?_, ?_⟩
  · intro p made
    rw [forked.created] at made
    rcases List.mem_cons.mp made with rfl | old
    · exact forked.pid
    · rw [forked.pids p (forked.fresh inv.layout p (List.mem_cons_of_mem _ old))]
      exact inv.pids p old
  · have pid : sched.activePid = (sched.procs sched.activeProc).pid := by
      rw [forked.activePid, stays, forked.pids _ (forked.fresh inv.layout _ active)]
      exact inv.activePid
    exact pid
  · change s.esp0 = kstacks sched.activeProc + 1023
    rw [stays, oldStack _ active, esp0]
  · rw [onStack_iff]
    change kstacks sched.activeProc ≤ (WordStack.pushAll _ _).esp ∧
      (WordStack.pushAll _ _).esp < kstacks sched.activeProc + 1024
    rw [stays, oldStack _ active, enter_esp, esp0]
    omega
  · intro p listed asleep
    change Asleep image _ (kstacks p) p (Function.update s.resumes (.heap page) _ p)
    have other : p ≠ sched.activeProc := asleep
    by_cases isNew : p = .heap page
    · rw [isNew, newStack, Function.update_self,
        ← copyStack_context s.mem s.esp0 (heapAt page) (sched.procs (.heap page)).pid cpu (by omega)]
      refine ⟨by simp, ?_⟩
      simp only [IDLE_KSTACK] at bounds
      exact initKstack_prepared _ _ _ _ own (by omega) (by omega)
    · have member : p ∈ s.sched.members := by
        have split : p ∈ Ptr.idleProc :: sched.created := listed
        rw [forked.created] at split
        rcases List.mem_cons.mp split with rfl | made
        · exact List.mem_cons_self
        · exact List.mem_cons_of_mem _ ((List.mem_cons.mp made).resolve_left isNew)
      rw [stays] at other
      rw [oldStack p member, Function.update_of_ne isNew]
      have stacks1 := inv.layout.stack_stack p s.active member active other
      have stacks2 := layout.stack_stack p (.heap page) (older p member) new isNew
      have structs2 := layout.proc_proc p (.heap page) (older p member) new isNew
      have mine1 := layout.stack_proc p (.heap page) (older p member) new
      have its1 := inv.layout.stack_proc s.active p active member
      have its2 := layout.stack_proc (.heap page) p new (older p member)
      rw [oldStack p member, newStack] at stacks2
      rw [oldStack p member] at mine1
      rw [newStack] at its2
      rw [newProc] at structs2 mine1
      refine asleep_congr image s.mem _ _ p _ ?_ (inv.asleep p member other)
      intro a inside
      exact fork_frame _ _ _ _ _ _ a cpu own (by omega) (by omega) (by omega) (by omega)

theorem initScheduler_inv (image : Image) (used : Kheap) (core : Core) (s : State)
    (boot : initScheduler image used core = some s) : Inv image s := by
  simp only [initScheduler, Option.bind_eq_bind, Option.bind_eq_some_iff, Option.pure_def,
    Prod.exists] at boot
  obtain ⟨page, used1, first, kstack, used2, second, sched, ring_starts, boot⟩ := boot
  obtain ⟨onIdle, same⟩ := Option.ite_none_right_eq_some.mp boot
  obtain rfl := Option.some.inj same
  obtain ⟨ring, linked⟩ := Scheduler.initScheduler_linked used sched ring_starts
  simp only [Scheduler.initScheduler, first, second, Option.bind_eq_bind, Option.bind_some,
    Option.pure_def, Option.some.injEq] at ring_starts
  obtain ⟨bound, _, rfl⟩ := kmalloc_spec _ _ _ first
  obtain ⟨bound', free', rfl⟩ := kmalloc_spec _ _ _ second
  have apart : kstack ≠ page := by
    rintro rfl
    rw [Function.update_self] at free'
    cases free'
  have made : sched.created = [.heap page] := by rw [← ring_starts]
  have idle : sched.activeProc = .idleProc := by rw [← ring_starts]
  have listed (p : Ptr) (member : p ∈ sched.created) : p = .heap page := by
    rw [made] at member
    exact List.mem_singleton.mp member
  have own : heapAt page + 21 ≤ heapAt kstack ∨ heapAt kstack + 1024 ≤ heapAt page := by
    simp only [heapAt]
    omega
  refine ⟨⟨ring, linked⟩, ⟨rfl, ?_, ?_, ?_, ?_⟩, ?_, ?_, .inl rfl, ?_, ?_, ?_⟩
  · intro p member
    refine ⟨page, listed p member, bound, ?_⟩
    rw [← ring_starts]
    exact (Function.update_of_ne apart.symm ..).trans (Function.update_self ..)
  · intro p member
    refine ⟨kstack, ?_, bound', ?_⟩
    · rw [listed p member]
      rfl
    · rw [← ring_starts]
      exact Function.update_self ..
  · intro p member q member'
    rw [listed p member, listed q member']
    intro same
    have numbers : heapAt kstack = heapAt page := same
    simp only [heapAt] at numbers
    omega
  · intro p member q member' other
    exact absurd ((listed p member).trans (listed q member').symm) other
  · intro p member
    rw [listed p member]
    simp [← ring_starts]
  · simp [State.active, ← ring_starts]
  · simp [State.active, idle, initTss, IDLE_KSTACK]
  · rw [onStack_iff]
    simpa [State.active, idle] using onIdle
  · intro p member other
    have process : p ≠ .idleProc := by
      rw [← idle]
      exact other
    obtain rfl := listed p ((List.mem_cons.mp member).resolve_left process)
    refine ⟨process, ?_⟩
    simp only [heapAt, HEAP_BASE, HEAP_PAGES] at bound' own
    exact initKstack_prepared image.firstret (heapAt page) (heapAt kstack) _
      (by simpa only [heapAt, HEAP_BASE] using own) (by simp only [heapAt, HEAP_BASE]; omega)
      (by simp only [heapAt, HEAP_BASE]; omega)

theorem fresh_iff (image : Image) (s : State) (sched : Scheduler.State) (ret : UInt32)
    (inv : Inv image s) (taken : Scheduler.scheduler s.sched = some sched) :
    Fresh image s (.scheduler ret) ↔
      (sched.activeProc = s.active →
        address (s.mem (procAt image s.active + STACK_POINTER)) = frameOf s.core.stack.esp) := by
  obtain ⟨ring, linked⟩ := inv.linked
  have stays := Scheduler.scheduler_stays_iff _ _ ring linked taken
  have other : sched.activeProc = s.active ↔
      ¬ ∃ q ∈ s.sched.members, q ≠ s.active ∧ s.sched.ready q = true := by
    rw [State.active, stays]
    simp only [not_exists, not_and, Bool.not_eq_true]
  rw [Fresh, other]
  exact or_iff_not_imp_left

theorem step_transparent_iff (image : Image) (s : State) (event : Event) (t : State)
    (inv : Inv image s) (taken : step image s event = some t) :
    Transparent image s event t ↔ Fresh image s event := by
  obtain ⟨ring, linked⟩ := inv.linked
  cases event with
  | scheduler ret =>
      obtain ⟨⟨depth, room⟩, called⟩ := Option.ite_none_right_eq_some.mp taken
      obtain ⟨sched, selects, rfl⟩ := Option.map_eq_some_iff.mp called
      have chosen := scheduler_selected _ _ ring linked selects
      rw [fresh_iff image s sched ret inv selects, Transparent]
      by_cases again : sched.activeProc = s.active
      · rw [switch_again_iff ret inv chosen room again]
        exact ⟨fun current _ => current, fun current => current again⟩
      · exact iff_of_true (switch_resumed ret inv chosen room depth again).1
          fun same => absurd same again
  | block ret =>
      obtain ⟨⟨depth, process, room⟩, called⟩ := Option.ite_none_right_eq_some.mp taken
      obtain ⟨sched, selects, rfl⟩ := Option.map_eq_some_iff.mp called
      obtain ⟨chosen, other⟩ := block_selected _ _ ring linked process selects
      exact iff_of_true (switch_resumed ret inv chosen room depth other).1 trivial
  | interrupt => exact Iff.rfl
  | leave => exact Iff.rfl
  | work core used => exact Iff.rfl
  | fork cpu => exact Iff.rfl
  | unblock p => exact Iff.rfl

theorem step_inv (image : Image) (s : State) (event : Event) (t : State) (inv : Inv image s)
    (fresh : Fresh image s event) (taken : step image s event = some t) : Inv image t := by
  obtain ⟨ring, linked⟩ := inv.linked
  cases event with
  | interrupt =>
      obtain ⟨outside, same⟩ := Option.ite_none_right_eq_some.mp taken
      obtain rfl := Option.some.inj same
      exact { inv with depth := .inr (by rw [outside]; rfl) }
  | leave =>
      obtain ⟨inside, same⟩ := Option.ite_none_right_eq_some.mp taken
      obtain rfl := Option.some.inj same
      exact { inv with depth := .inl (by rw [inside]; rfl) }
  | work core used => exact work_inv image s t core used inv taken
  | fork cpu =>
      obtain ⟨⟨outside, _⟩, forks⟩ := Option.ite_none_right_eq_some.mp taken
      exact fork_inv image s t cpu inv outside forks
  | unblock p =>
      obtain ⟨member, same⟩ := Option.ite_none_right_eq_some.mp taken
      obtain rfl := Option.some.inj same
      have idle : (Scheduler.unblock s.sched p).ready .idleProc = true := by
        rw [Scheduler.unblock, Scheduler.setState_ready]
        split
        · rfl
        · exact linked.idle
      refine { inv with
        linked := ⟨ring, Scheduler.setState_linked s.sched p .ready ring linked idle⟩
        pids := ?_
        activePid := ?_ }
      · intro q made
        rw [Scheduler.unblock, setState_pid]
        exact inv.pids q made
      · rw [Scheduler.unblock, setState_pid]
        exact inv.activePid
  | scheduler ret =>
      obtain ⟨⟨depth, room⟩, called⟩ := Option.ite_none_right_eq_some.mp taken
      obtain ⟨sched, selects, rfl⟩ := Option.map_eq_some_iff.mp called
      have chosen := scheduler_selected _ _ ring linked selects
      have current := (fresh_iff image s sched ret inv selects).mp fresh
      apply switch_inv ret inv chosen room depth
      by_cases again : sched.activeProc = s.active
      · exact switch_again_onStack ret inv chosen room again (current again)
      · exact (switch_resumed ret inv chosen room depth again).2
  | block ret =>
      obtain ⟨⟨depth, process, room⟩, called⟩ := Option.ite_none_right_eq_some.mp taken
      obtain ⟨sched, selects, rfl⟩ := Option.map_eq_some_iff.mp called
      obtain ⟨chosen, other⟩ := block_selected _ _ ring linked process selects
      exact switch_inv ret inv chosen room depth
        (switch_resumed ret inv chosen room depth other).2

/-- In any run, all switches give the processes back what they had exactly when each call
that selects its caller again is made at the depth of the call before. -/
theorem switches_transparent_iff (image : Image) (used : Kheap) (core : Core) (s : State)
    (boot : initScheduler image used core = some s) (events : List Event) :
    Along (step image) (Transparent image) s events ↔
      Along (step image) (fun s event _ => Fresh image s event) s events :=
  along_iff (Inv image) (fun s event t => step_inv image s event t)
    (fun s event t => step_transparent_iff image s event t) s
    (initScheduler_inv image used core s boot) events

def sampleImage : Image := ⟨0xc0200400, 0x30082000, by decide, by decide⟩

/-- The running process at a depth of its stack. -/
def coreAt (esp : Int) : Core := ⟨⟨fun _ => 0, esp⟩, ⟨1, 2, 3, 4, 5, 6⟩, 0⟩

def forkCpu : Isr.Cpu := ⟨⟨9, 10, 5, 11, 12, 13, 14, 15⟩, 0x40, 0x246, 0xbfffff00, 0x23⟩

/-- Init runs and forks, both processes block, and idle selects itself at one depth. -/
def sampleEvents : List Event :=
  [.interrupt, .scheduler 0x100, .leave, .fork forkCpu, .scheduler 0x100, .block 0x200, .leave,
    .interrupt, .scheduler 0x100, .work (coreAt 0x301006f0) (.low 9), .block 0x200,
    .work (coreAt 0x3007ffe6) (.low 9), .scheduler 0x100]

theorem sample_switches_transparent :
    ∃ s, initScheduler sampleImage (.low 0) (coreAt 0x3007ffe8) = some s ∧
      (runList (step sampleImage) s sampleEvents).isSome = true ∧
      Along (step sampleImage) (Transparent sampleImage) s sampleEvents := by
  have boot : initScheduler sampleImage (.low 0) (coreAt 0x3007ffe8) = some _ :=
    (Option.some_get (by decide +kernel)).symm
  refine ⟨_, boot, by decide +kernel, ?_⟩
  apply (switches_transparent_iff sampleImage (.low 0) _ _ boot sampleEvents).mpr
  have guarded : (runList (fun s a => if Fresh sampleImage s a then step sampleImage s a else none)
      ((initScheduler sampleImage (.low 0) (coreAt 0x3007ffe8)).get (by decide +kernel))
      sampleEvents).isSome = true := by decide +kernel
  exact Along.of_guarded sampleEvents (Option.some_get guarded).symm

/-- Where esp is after the return that the active process waits for. -/
def returnsTo (s : State) : Option Int :=
  match s.resumes s.active with
  | .kept esp _ _ => some (esp + 1)
  | .first _ => none

theorem resumed_returnsTo (image : Image) (s : State) (esp : Int) (resumed : Resumed image s)
    (returns : returnsTo s = some esp) : s.core.stack.esp = esp := by
  rw [Resumed] at resumed
  rw [returnsTo] at returns
  cases kind : s.resumes s.active with
  | kept esp' ret regs =>
      rw [kind] at resumed returns
      rw [← Option.some.inj returns]
      exact resumed.2.1
  | first context =>
      rw [kind] at returns
      cases returns

/-- Idle is interrupted by the timer at two depths. When it is selected the second time
init waits. -/
def deeperEvents : List Event :=
  [.interrupt, .scheduler 0x100, .block 0x200, .leave, .interrupt, .work (coreAt 0x3007ffe7) (.low 4)]

theorem deeper_call_lost :
    ¬ ∀ (image : Image) (used : Kheap) (core : Core) (s : State),
      initScheduler image used core = some s →
        ∀ events, Along (step image) (Transparent image) s events := by
  intro claim
  have ends : ((initScheduler sampleImage (.low 0) (coreAt 0x3007ffe8)).bind fun s =>
      (runList (step sampleImage) s deeperEvents).bind fun t =>
        (step sampleImage t (.scheduler 0x100)).map fun u => (returnsTo u, u.core.stack.esp)) =
      some (some 0x3007ffe5, 0x3007ffe6) := by decide +kernel
  obtain ⟨s, boot, ends⟩ := Option.bind_eq_some_iff.mp ends
  obtain ⟨t, before, ends⟩ := Option.bind_eq_some_iff.mp ends
  obtain ⟨u, taken, ends⟩ := Option.map_eq_some_iff.mp ends
  have along := claim sampleImage (.low 0) _ s boot (deeperEvents ++ [.scheduler 0x100])
  have resumed : Resumed sampleImage u := along.last deeperEvents _ before taken
  have expected := resumed_returnsTo sampleImage u _ resumed (Prod.mk.inj ends).1
  rw [(Prod.mk.inj ends).2] at expected
  cases expected

end TitorOS.Barrel.Dispatch
