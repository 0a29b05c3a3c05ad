import TitorOS.Barrel.Terminal

/-! The queue of processes that wait in `sendbuffer`, in runs of keys, reads, switches and
forks in any order. -/

namespace TitorOS.Barrel.Terminal

open TitorOS.Lib TitorOS.Barrel.Scheduler

def State.Waiting (s : State) (p : Ptr) : Prop := (s.sched.procs p).state = .waiting

/-- The words from `queue_head` to `queue_tail`. -/
def State.queue (s : State) : List Ptr :=
  (List.range' s.queueHead (s.queueTail - s.queueHead)).map s.slots

/-- The last read of `p` began before the last one of `q`. -/
def WaitsLonger (trace : List Obs) (p q : Ptr) : Prop :=
  ∃ before after, trace = before ++ .wait p :: after ∧ .wait p ∉ after ∧ .wait q ∈ after

def Event.reads : Event → Nat
  | .read _ => 1
  | _ => 0

def readCount (events : List Event) : Nat := (events.map Event.reads).sum

/-- The processes that are WAITING are those in the queue, each in one slot; and a newline
makes READY the one that has waited longest, and no other. -/
structure NoLostWakeup (s : State) : Prop where
  waiting : ∀ p, s.Waiting p ↔ ∃ i, s.queueHead ≤ i ∧ i < s.queueTail ∧ s.slots i = p
  once : ∀ i j, s.queueHead ≤ i → i < s.queueTail → s.queueHead ≤ j → j < s.queueTail →
    s.slots i = s.slots j → i = j
  oldest : ∀ t, s.queueHead ≠ s.queueTail → step s (.key 0x0A) = some t →
    ∃ p, s.Waiting p ∧ ¬ t.Waiting p ∧ (∀ q, q ≠ p → (t.Waiting q ↔ s.Waiting q)) ∧
      ∀ q, q ≠ p → s.Waiting q → WaitsLonger s.trace p q

/-- What every step keeps. -/
structure Queued (s : State) : Prop where
  linked : ∃ ring, Linked s.sched ring
  running : s.sched.ready s.sched.activeProc = true
  order : s.queueHead ≤ s.queueTail
  waiting : ∀ p, s.sched.ready p = false ↔ p ∈ s.queue
  made : ∀ p ∈ s.queue, p ∈ s.sched.members
  nodup : s.queue.Nodup
  asked : ∀ p ∈ s.queue, .wait p ∈ s.trace
  since : s.queue.Pairwise (WaitsLonger s.trace)

theorem waiting_iff (s : State) (p : Ptr) : s.Waiting p ↔ s.sched.ready p = false := by
  rw [State.Waiting, State.ready]
  cases (s.sched.procs p).state with
  | ready => simp
  | waiting => simp

theorem mem_queue (s : State) (p : Ptr) :
    p ∈ s.queue ↔ ∃ i, s.queueHead ≤ i ∧ i < s.queueTail ∧ s.slots i = p := by
  rw [State.queue, List.mem_map]
  constructor
  · rintro ⟨i, member, same⟩
    have bounds := List.mem_range'_1.mp member
    exact ⟨i, bounds.1, by omega, same⟩
  · rintro ⟨i, above, below, same⟩
    exact ⟨i, List.mem_range'_1.mpr ⟨above, by omega⟩, same⟩

theorem queue_cons (s : State) (nonempty : s.queueHead < s.queueTail) :
    s.queue = s.slots s.queueHead ::
      (List.range' (s.queueHead + 1) (s.queueTail - (s.queueHead + 1))).map s.slots := by
  rw [State.queue, show s.queueTail - s.queueHead = s.queueTail - (s.queueHead + 1) + 1 by omega,
    List.range'_succ, List.map_cons]

theorem queue_snoc (s t : State) (p : Ptr) (order : s.queueHead ≤ s.queueTail)
    (head : t.queueHead = s.queueHead) (tail : t.queueTail = s.queueTail + 1)
    (slots : t.slots = Function.update s.slots s.queueTail p) : t.queue = s.queue ++ [p] := by
  rw [State.queue, head, tail, slots,
    show s.queueTail + 1 - s.queueHead = s.queueTail - s.queueHead + 1 by omega,
    List.range'_concat, List.map_append, State.queue]
  congr 1
  · refine List.map_congr_left fun i member => ?_
    have bounds := List.mem_range'_1.mp member
    exact Function.update_of_ne (by omega) ..
  · rw [show s.queueHead + 1 * (s.queueTail - s.queueHead) = s.queueTail by omega]
    simp

section Longer

variable {trace more : List Obs} {p q : Ptr}

/-- What is seen later, and is no new read of `p`, leaves its place. -/
theorem WaitsLonger.append (longer : WaitsLonger trace p q) (later : .wait p ∉ more) :
    WaitsLonger (trace ++ more) p q := by
  obtain ⟨before, after, shape, last, member⟩ := longer
  refine ⟨before, after ++ more, by rw [shape]; simp, ?_, List.mem_append_left _ member⟩
  rw [List.mem_append]
  exact not_or.mpr ⟨last, later⟩

/-- Whoever waits already waits longer than the one that begins. -/
theorem waitsLonger_new (member : .wait p ∈ trace) (other : p ≠ q) :
    WaitsLonger (trace ++ [.wait q]) p q := by
  obtain ⟨before, after, shape, last⟩ : ∃ before after,
      trace = before ++ .wait p :: after ∧ Obs.wait p ∉ after := by
    obtain ⟨before, after, flipped, notIn⟩ := List.eq_append_cons_of_mem (List.mem_reverse.mpr member)
    refine ⟨after.reverse, before.reverse, ?_, by rwa [List.mem_reverse]⟩
    rw [← List.reverse_reverse trace, flipped]
    simp
  refine ⟨before, after ++ [.wait q], by rw [shape]; simp, ?_, ?_⟩
  · rw [List.mem_append, List.mem_singleton]
    exact not_or.mpr ⟨last, fun same => other (Obs.wait.inj same)⟩
  · exact List.mem_append_right _ (List.mem_singleton_self _)

end Longer

theorem resume_shape (s : State) : ∃ length calls panicked more,
    resume s = { s with
      length := length, calls := calls, panicked := panicked, trace := s.trace ++ more } ∧
      ∀ p, Obs.wait p ∉ more := by
  have none : s = { s with trace := s.trace ++ [] } := by rw [List.append_nil]
  rw [resume]
  split
  · exact ⟨_, _, _, [], none, fun p => List.not_mem_nil⟩
  · split
    · refine ⟨s.length, s.calls, true, [], ?_, fun p => List.not_mem_nil⟩
      rw [List.append_nil]
    · split
      · refine ⟨s.length, s.calls, true, [], ?_, fun p => List.not_mem_nil⟩
        rw [List.append_nil]
      · rename_i used copied
        rw [memCopy_eq _ _ copied]
        refine ⟨_, _, s.panicked, _, rfl, fun p => ?_⟩
        rw [List.mem_singleton]
        exact Obs.noConfusion

theorem Queued.resume {s : State} (inv : Queued s) : Queued (resume s) := by
  obtain ⟨length, calls, panicked, more, shape, silent⟩ := resume_shape s
  rw [shape]
  exact { inv with
    asked := fun p member => List.mem_append_left _ (inv.asked p member)
    since := inv.since.imp fun longer => longer.append (silent _) }

theorem Queued.seen {s : State} (inv : Queued s) (seen : Obs) (silent : ∀ p, seen ≠ .wait p) :
    Queued { s with trace := s.trace ++ [seen] } :=
  { inv with
    asked := fun p member => List.mem_append_left _ (inv.asked p member)
    since := inv.since.imp fun longer => longer.append fun member =>
      silent _ (List.mem_singleton.mp member).symm }

theorem Queued.sched {s : State} {sched : Scheduler.State} (inv : Queued s)
    (linked : ∃ ring, Linked sched ring) (running : sched.ready sched.activeProc = true)
    (ready : ∀ p, sched.ready p = false ↔ s.sched.ready p = false)
    (members : ∀ p ∈ s.sched.members, p ∈ sched.members) :
    Queued { s with sched := sched } :=
  { inv with
    linked := linked
    running := running
    waiting := fun p => (ready p).trans (inv.waiting p)
    made := fun p member => members p (inv.made p member) }

theorem fork_ready {s t : Scheduler.State} (taken : Scheduler.fork s = some t) :
    ∃ y, t.created = y :: s.created ∧
      ∀ p, t.ready p = if p = y then s.ready s.activeProc else s.ready p := by
  simp only [Scheduler.fork, Option.bind_eq_bind, Option.bind_eq_some_iff, Option.pure_def,
    Option.some.injEq, Prod.exists] at taken
  obtain ⟨page, used1, _, table, used2, _, used3, _, dir, used4, _, used5, _, stack, used6, _, rfl⟩ :=
    taken
  refine ⟨.heap page, rfl, fun p => ?_⟩
  by_cases own : p = s.activeProc
  · by_cases new : p = .heap page
    · simp [State.ready, own]
    · simp [State.ready, own]
  · by_cases new : p = .heap page
    · simp [State.ready, new, Function.update_of_ne (new ▸ own)]
    · simp [State.ready, own, new]

theorem Queued.fork {s : State} {sched : Scheduler.State} (inv : Queued s)
    (forked : Scheduler.fork s.sched = some sched) : Queued { s with sched := sched } := by
  obtain ⟨ring, linked⟩ := inv.linked
  obtain ⟨x, rest, y', shape, fresh, linked', -, active⟩ := fork_linked _ sched ring linked forked
  obtain ⟨y, created, ready⟩ := fork_ready forked
  have members : sched.members = .idleProc :: y :: s.sched.created := by
    rw [State.members, created]
  have new : y ∉ s.sched.members := by
    intro old
    have second : y' ∈ sched.members :=
      (linked'.members y').mp (List.mem_cons_of_mem _ List.mem_cons_self)
    rw [members, List.mem_cons, List.mem_cons] at second
    refine fresh ((linked.members y').mpr ?_)
    rcases second with rfl | rfl | made
    · exact List.mem_cons_self
    · exact old
    · exact List.mem_cons_of_mem _ made
  refine inv.sched ⟨_, linked'⟩ ?_ ?_ ?_
  · rw [active, ready, inv.running, ite_self]
  · intro p
    rw [ready]
    by_cases child : p = y
    · subst child
      rw [if_pos rfl, inv.running, inv.waiting]
      exact ⟨fun impossible => Bool.noConfusion impossible, fun queued => absurd (inv.made _ queued) new⟩
    · rw [if_neg child]
  · intro p member
    rw [members]
    rcases List.mem_cons.mp member with rfl | made
    · exact List.mem_cons_self
    · exact List.mem_cons_of_mem _ (List.mem_cons_of_mem _ made)

/-- A newline takes the head of the queue off and makes it READY. -/
theorem Queued.newline {s : State} (inv : Queued s) (waits : s.queueHead ≠ s.queueTail) :
    Queued (lineKey s 0x0A) := by
  have shorter : s.queueHead < s.queueTail := Nat.lt_of_le_of_ne inv.order waits
  obtain ⟨ring, linked⟩ := inv.linked
  have cons := queue_cons s shorter
  have rest : (lineKey s 0x0A).queue =
      (List.range' (s.queueHead + 1) (s.queueTail - (s.queueHead + 1))).map s.slots := by
    rw [lineKey_newline, if_neg waits]
    rfl
  rw [← rest] at cons
  have nodup := inv.nodup
  have since := inv.since
  rw [cons, List.nodup_cons] at nodup
  rw [cons, List.pairwise_cons] at since
  have ready (p : Ptr) : (lineKey s 0x0A).sched.ready p =
      if p = s.slots s.queueHead then true else s.sched.ready p := by
    rw [lineKey_newline, if_neg waits]
    exact setState_ready ..
  have trace : (lineKey s 0x0A).trace = s.trace := by
    rw [lineKey_newline, if_neg waits]
  have active : (lineKey s 0x0A).sched.activeProc = s.sched.activeProc := by
    rw [lineKey_newline, if_neg waits]
    rfl
  have members : (lineKey s 0x0A).sched.members = s.sched.members := by
    rw [lineKey_newline, if_neg waits]
    rfl
  constructor
  case linked =>
    refine ⟨ring, ?_⟩
    rw [lineKey_newline, if_neg waits]
    refine setState_linked s.sched _ _ ring linked ?_
    rw [setState_ready, linked.idle, decide_eq_true rfl, ite_self]
  case running => rw [active, ready, inv.running, ite_self]
  case order =>
    rw [lineKey_newline, if_neg waits]
    exact shorter
  case waiting =>
    intro p
    rw [ready]
    have before := inv.waiting p
    rw [cons, List.mem_cons] at before
    by_cases first : p = s.slots s.queueHead
    · rw [if_pos first, first]
      exact ⟨fun impossible => Bool.noConfusion impossible, fun member => absurd member nodup.1⟩
    · rw [if_neg first, before]
      exact ⟨fun member => member.resolve_left first, .inr⟩
  case made =>
    intro p member
    rw [members]
    exact inv.made p (cons ▸ List.mem_cons_of_mem _ member)
  case nodup => exact nodup.2
  case asked =>
    intro p member
    rw [trace]
    exact inv.asked p (cons ▸ List.mem_cons_of_mem _ member)
  case since =>
    rw [trace]
    exact since.2

theorem Queued.key {s : State} (inv : Queued s) (key : UInt8) : Queued (keybuffer s key) := by
  rw [keybuffer_lineKey]
  have line : Queued (lineKey s key) := by
    by_cases newline : key = 0x0A
    · by_cases waits : s.queueHead = s.queueTail
      · rw [newline, lineKey_newline, if_pos waits]
        exact inv
      · exact newline ▸ inv.newline waits
    · rcases lineKey_keeps s key newline with ⟨buffer, length, shape⟩
      rw [shape]
      exact { inv with }
  exact { line with }

theorem keybuffer_keeps (s : State) (key : UInt8) :
    (keybuffer s key).queueTail = s.queueTail ∧ (keybuffer s key).trace = s.trace := by
  rw [keybuffer_lineKey]
  by_cases newline : key = 0x0A
  · rw [newline, lineKey_newline]
    split
    · exact ⟨rfl, rfl⟩
    · exact ⟨rfl, rfl⟩
  · rcases lineKey_keeps s key newline with ⟨buffer, length, shape⟩
    rw [shape]
    exact ⟨rfl, rfl⟩

theorem resume_tail (s : State) : (Terminal.resume s).queueTail = s.queueTail := by
  obtain ⟨_, _, _, _, shape, _⟩ := resume_shape s
  rw [shape]

theorem Queued.wait {s : State} {sched : Scheduler.State} {count : UInt8} (inv : Queued s)
    (switched : Switched s.sched sched)
    (ready : ∀ q, sched.ready q = if q = s.sched.activeProc then false else s.sched.ready q) :
    Queued { s with
      slots := Function.update s.slots s.queueTail s.sched.activeProc
      queueTail := s.queueTail + 1
      calls := Function.update s.calls s.sched.activeProc (some count)
      sched := sched
      trace := s.trace ++ [.wait s.sched.activeProc] } := by
  have outside : s.sched.activeProc ∉ s.queue := by
    rw [← inv.waiting, inv.running]
    exact Bool.noConfusion
  have longer := queue_snoc s { s with
      slots := Function.update s.slots s.queueTail s.sched.activeProc
      queueTail := s.queueTail + 1
      calls := Function.update s.calls s.sched.activeProc (some count)
      sched := sched
      trace := s.trace ++ [.wait s.sched.activeProc] } s.sched.activeProc inv.order rfl rfl rfl
  obtain ⟨ring, linked⟩ := inv.linked
  have members : sched.members = s.sched.members := by
    rw [State.members, switched.created]
    rfl
  constructor
  case linked => exact switched.linked
  case running => exact switched.selected
  case order => exact inv.order.trans (Nat.le_succ _)
  case waiting =>
    intro q
    rw [longer, List.mem_append, List.mem_singleton]
    change sched.ready q = false ↔ _
    rw [ready]
    by_cases own : q = s.sched.activeProc
    · simp [own]
    · simp only [own, if_false, or_false]
      exact inv.waiting q
  case made =>
    intro p member
    rw [longer, List.mem_append, List.mem_singleton] at member
    change p ∈ sched.members
    rw [members]
    rcases member with before | rfl
    · exact inv.made p before
    · exact (linked.members _).mp (List.mem_of_head? linked.head)
  case nodup =>
    rw [longer, List.nodup_append]
    refine ⟨inv.nodup, List.nodup_singleton _, ?_⟩
    intro p member q single
    rw [List.mem_singleton.mp single]
    rintro rfl
    exact outside member
  case asked =>
    intro p member
    rw [longer, List.mem_append, List.mem_singleton] at member
    rcases member with before | rfl
    · exact List.mem_append_left _ (inv.asked p before)
    · exact List.mem_append_right _ (List.mem_singleton_self _)
  case since =>
    rw [longer, List.pairwise_append]
    refine ⟨?_, List.pairwise_singleton _ _, ?_⟩
    · refine inv.since.imp_of_mem fun {p _} member _ before => before.append ?_
      rw [List.mem_singleton]
      exact fun same => outside (Obs.wait.inj same ▸ member)
    · intro p member q single
      rw [List.mem_singleton.mp single]
      exact waitsLonger_new (inv.asked p member) fun same => outside (same ▸ member)

theorem Queued.step {s t : State} {event : Event} (inv : Queued s)
    (room : s.queueTail + event.reads ≤ QUEUE_SLOTS) (taken : Terminal.step s event = some t) :
    Queued t ∧ t.queueTail = s.queueTail + event.reads := by
  rw [Terminal.step] at taken
  split at taken
  · cases taken
  obtain ⟨ring, linked⟩ := inv.linked
  cases event with
  | key key =>
      rw [act, Option.some.injEq] at taken
      subst t
      have kept := keybuffer_keeps s key
      have edited := (inv.key key).seen (.key key) fun p => Obs.noConfusion
      rw [kept.2] at edited
      exact ⟨edited, kept.1⟩
  | read count =>
      by_cases idle : s.sched.activeProc = .idleProc
      · simp [act, idle] at taken
      · rw [act, if_neg idle, sendbuffer] at taken
        obtain ⟨sched, switch, rfl⟩ := Option.map_eq_some_iff.mp taken
        obtain ⟨switched, ready⟩ := block_switched _ sched ring linked idle switch
        exact ⟨(inv.wait switched ready).resume, resume_tail _⟩
  | scheduler =>
      rw [act] at taken
      obtain ⟨sched, switch, rfl⟩ := Option.map_eq_some_iff.mp taken
      obtain ⟨switched, ready⟩ := scheduler_switched _ sched ring linked switch
      have after : Queued { s with sched := sched } :=
        inv.sched switched.linked switched.selected (fun p => by rw [ready]) fun p member => by
          rw [State.members, switched.created]
          exact member
      exact ⟨after.resume, resume_tail _⟩
  | fork =>
      rw [act] at taken
      obtain ⟨sched, forked, rfl⟩ := Option.map_eq_some_iff.mp taken
      exact ⟨inv.fork forked, rfl⟩
  | screen cursor =>
      rw [act, Option.some.injEq] at taken
      subst t
      exact ⟨{ inv with }, rfl⟩
  | other slot p =>
      by_cases onPage : slot < QUEUE_SLOTS
      · simp [act, onPage] at taken
      · rw [act, if_neg onPage, Option.some.injEq] at taken
        subst t
        have within : s.queueTail ≤ QUEUE_SLOTS := by omega
        have same : ({ s with slots := Function.update s.slots slot p } : State).queue = s.queue := by
          refine List.map_congr_left fun i member => ?_
          have bounds : s.queueHead ≤ i ∧ i < s.queueHead + (s.queueTail - s.queueHead) :=
            List.mem_range'_1.mp member
          have order := inv.order
          exact Function.update_of_ne (by omega) ..
        exact ⟨{ inv with
          waiting := fun q => by rw [same]; exact inv.waiting q
          made := by rw [same]; exact inv.made
          nodup := by rw [same]; exact inv.nodup
          asked := by rw [same]; exact inv.asked
          since := by rw [same]; exact inv.since }, rfl⟩

theorem Queued.run {s t : State} {events : List Event} (inv : Queued s)
    (room : s.queueTail + readCount events ≤ QUEUE_SLOTS)
    (ran : runList Terminal.step s events = some t) : Queued t := by
  induction events generalizing s with
  | nil =>
      cases ran
      exact inv
  | cons event rest ih =>
      obtain ⟨u, taken, onward⟩ := Option.bind_eq_some_iff.mp ran
      have total : readCount (event :: rest) = event.reads + readCount rest := List.sum_cons
      obtain ⟨inv', tail⟩ := inv.step (by omega) taken
      exact ih inv' (by omega) onward

theorem Queued.noLostWakeup {s : State} (inv : Queued s) : NoLostWakeup s where
  waiting p := by rw [waiting_iff, inv.waiting, mem_queue]
  once i j above below above' below' same := by
    have nodup := inv.nodup
    rw [State.queue, List.nodup_map_iff_inj_on (List.nodup_range')] at nodup
    exact nodup i (List.mem_range'_1.mpr ⟨above, by omega⟩) j
      (List.mem_range'_1.mpr ⟨above', by omega⟩) same
  oldest t waits taken := by
    have shorter : s.queueHead < s.queueTail := Nat.lt_of_le_of_ne inv.order waits
    have cons := queue_cons s shorter
    have since := inv.since
    rw [cons, List.pairwise_cons] at since
    have ready (p : Ptr) : t.sched.ready p =
        if p = s.slots s.queueHead then true else s.sched.ready p := by
      rw [Terminal.step] at taken
      split at taken
      · cases taken
      · cases taken
        have complete : (keybuffer s 0x0A).sched = unblock s.sched (s.slots s.queueHead) := by
          rw [keybuffer_lineKey, lineKey_newline, if_neg waits]
        change (keybuffer s 0x0A).sched.ready p = _
        rw [complete]
        exact setState_ready ..
    refine ⟨s.slots s.queueHead, ?_, ?_, ?_, ?_⟩
    · rw [waiting_iff, inv.waiting, cons]
      exact List.mem_cons_self
    · rw [waiting_iff, ready, if_pos rfl]
      exact Bool.noConfusion
    · intro q other
      rw [waiting_iff, waiting_iff, ready, if_neg other]
    · intro q other waiting
      rw [waiting_iff, inv.waiting, cons] at waiting
      exact since.1 q ((List.mem_cons.mp waiting).resolve_left other)

theorem initTerminal_queued {used : Kheap} {sched : Scheduler.State} (buffer : UInt8 → UInt8)
    (slots : Nat → Ptr) (start : initScheduler used = some sched) :
    Queued (initTerminal sched buffer slots) := by
  have linked := initScheduler_linked used sched start
  have allReady (p : Ptr) : sched.ready p = true := by
    simp only [initScheduler, Option.bind_eq_bind, Option.bind_eq_some_iff, Option.pure_def,
      Option.some.injEq, Prod.exists] at start
    obtain ⟨page, used1, -, stack, used2, -, rfl⟩ := start
    by_cases init : p = .heap page
    · simp [State.ready, init]
    · simp [State.ready, init]
  refine ⟨linked, allReady _, Nat.le_refl 0, ?_, ?_, .nil, ?_, .nil⟩
  · intro p
    change sched.ready p = false ↔ p ∈ ([] : List Ptr)
    rw [allReady p]
    simp
  · intro p member
    cases member
  · intro p member
    cases member

/-- In every run from boot with at most 1024 reads, of any processes and in any order with keys,
forks and switches. -/
theorem no_lost_wakeup (used : Kheap) (sched : Scheduler.State) (buffer : UInt8 → UInt8)
    (slots : Nat → Ptr) (events : List Event) (s : State) (start : initScheduler used = some sched)
    (few : readCount events ≤ 1024)
    (ran : runList step (initTerminal sched buffer slots) events = some s) : NoLostWakeup s := by
  have zero : (initTerminal sched buffer slots).queueTail = 0 := rfl
  have room : (initTerminal sched buffer slots).queueTail + readCount events ≤ QUEUE_SLOTS := by
    rw [zero, Nat.zero_add]
    exact few
  exact ((initTerminal_queued buffer slots start).run room ran).noLostWakeup

theorem two_readers_wait :
    ∃ s, runList step sampleTerminal [.scheduler, .fork, .read 0, .read 0] = some s ∧
      s.queueTail = 2 ∧ s.slots 0 ≠ s.slots 1 ∧ NoLostWakeup s := by
  have runs : ((runList step sampleTerminal [.scheduler, .fork, .read 0, .read 0]).map fun s =>
      decide (s.queueTail = 2 ∧ s.slots 0 ≠ s.slots 1)) = some true := by
    decide +kernel
  obtain ⟨s, ran, holds⟩ := Option.map_eq_some_iff.mp runs
  obtain ⟨tail, different⟩ := of_decide_eq_true holds
  exact ⟨s, ran, tail, different, no_lost_wakeup (.low 0) _ (fun _ => 0) (fun _ => .idleProc) _ s
    initScheduler_sample (by decide) ran⟩

end TitorOS.Barrel.Terminal
