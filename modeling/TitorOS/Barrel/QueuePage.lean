import TitorOS.Barrel.WaitQueue

/-! The page of the queue of `sendbuffer`: its two pointers are only ever counted up. -/

namespace TitorOS.Barrel.Terminal

open TitorOS.Lib TitorOS.Barrel.Scheduler

/-- The reads that have begun, and the lines that a reader waited for. -/
structure Tally where
  asked : Nat
  served : Nat

def Tally.count (tally : Tally) : Event → Tally
  | .read _ => { tally with asked := tally.asked + 1 }
  | .key key =>
      if key = 0x0A ∧ tally.served < tally.asked then { tally with served := tally.served + 1 }
      else tally
  | _ => tally

def tally (events : List Event) : Tally := events.foldl Tally.count ⟨0, 0⟩

/-- Wherever the run stands, `queue_head` points into the page of the queue, and so does
`queue_tail` when the next event is a read that writes its slot. -/
def QueueOnPage (start : State) (events : List Event) : Prop :=
  ∀ before after s, events = before ++ after → runList step start before = some s →
    s.queueHead < QUEUE_SLOTS ∧
      ∀ count rest, after = .read count :: rest → s.queueTail < QUEUE_SLOTS

theorem tally_snoc (events : List Event) (event : Event) :
    tally (events ++ [event]) = (tally events).count event := List.foldl_concat ..

theorem Tally.count_grows (counts : Tally) (event : Event) :
    counts.asked ≤ (counts.count event).asked ∧ counts.served ≤ (counts.count event).served := by
  cases event with
  | key key =>
      rw [Tally.count]
      split
      · exact ⟨Nat.le_refl _, Nat.le_succ _⟩
      · exact ⟨Nat.le_refl _, Nat.le_refl _⟩
  | read count => exact ⟨Nat.le_succ _, Nat.le_refl _⟩
  | scheduler => exact ⟨Nat.le_refl _, Nat.le_refl _⟩
  | fork => exact ⟨Nat.le_refl _, Nat.le_refl _⟩
  | screen cursor => exact ⟨Nat.le_refl _, Nat.le_refl _⟩
  | other slot p => exact ⟨Nat.le_refl _, Nat.le_refl _⟩

theorem tally_grows (before after : List Event) :
    (tally before).asked ≤ (tally (before ++ after)).asked ∧
      (tally before).served ≤ (tally (before ++ after)).served := by
  induction after using List.reverseRecOn with
  | nil =>
      rw [List.append_nil]
      exact ⟨Nat.le_refl _, Nat.le_refl _⟩
  | append_singleton rest event ih =>
      rw [← List.append_assoc, tally_snoc]
      have grows := (tally (before ++ rest)).count_grows event
      exact ⟨Nat.le_trans ih.1 grows.1, Nat.le_trans ih.2 grows.2⟩

theorem step_tally {s t : State} {event : Event} (order : s.queueHead ≤ s.queueTail)
    (taken : step s event = some t) :
    Tally.mk t.queueTail t.queueHead = (Tally.mk s.queueTail s.queueHead).count event ∧
      t.queueHead ≤ t.queueTail := by
  rw [step] at taken
  split at taken
  · cases taken
  cases event with
  | key key =>
      cases taken
      change Tally.mk (keybuffer s key).queueTail (keybuffer s key).queueHead = _ ∧
        (keybuffer s key).queueHead ≤ (keybuffer s key).queueTail
      rw [(keybuffer_keeps s key).1, Tally.count, keybuffer_lineKey]
      by_cases newline : key = 0x0A
      · rw [newline, lineKey_newline]
        by_cases empty : s.queueHead = s.queueTail
        · have none : ¬ ((0x0A : UInt8) = 0x0A ∧ s.queueHead < s.queueTail) := by omega
          rw [if_pos empty, if_neg none]
          exact ⟨rfl, order⟩
        · have some : s.queueHead < s.queueTail := Nat.lt_of_le_of_ne order empty
          rw [if_neg empty, if_pos ⟨rfl, some⟩]
          exact ⟨rfl, some⟩
      · obtain ⟨buffer, length, shape⟩ := lineKey_keeps s key newline
        rw [shape, if_neg fun both => newline both.1]
        exact ⟨rfl, order⟩
  | read count =>
      rw [act] at taken
      split at taken
      · cases taken
      · rw [sendbuffer] at taken
        obtain ⟨sched, _, rfl⟩ := Option.map_eq_some_iff.mp taken
        obtain ⟨_, _, _, _, shape, _⟩ := resume_shape { s with
          slots := Function.update s.slots s.queueTail s.sched.activeProc
          queueTail := s.queueTail + 1
          calls := Function.update s.calls s.sched.activeProc (some count)
          sched := sched
          trace := s.trace ++ [.wait s.sched.activeProc] }
        rw [shape]
        exact ⟨rfl, Nat.le_succ_of_le order⟩
  | scheduler =>
      rw [act] at taken
      obtain ⟨sched, _, rfl⟩ := Option.map_eq_some_iff.mp taken
      obtain ⟨_, _, _, _, shape, _⟩ := resume_shape { s with sched := sched }
      rw [shape]
      exact ⟨rfl, order⟩
  | fork =>
      rw [act] at taken
      obtain ⟨sched, _, rfl⟩ := Option.map_eq_some_iff.mp taken
      exact ⟨rfl, order⟩
  | screen cursor =>
      cases taken
      exact ⟨rfl, order⟩
  | other slot p =>
      rw [act] at taken
      split at taken
      · cases taken
      · cases taken
        exact ⟨rfl, order⟩

theorem run_tally {sched : Scheduler.State} {buffer : UInt8 → UInt8} {slots : Nat → Ptr}
    {events : List Event} {s : State}
    (ran : runList step (initTerminal sched buffer slots) events = some s) :
    Tally.mk s.queueTail s.queueHead = tally events ∧ s.queueHead ≤ s.queueTail := by
  induction events using List.reverseRecOn generalizing s with
  | nil =>
      cases ran
      exact ⟨rfl, Nat.le_refl 0⟩
  | append_singleton rest event ih =>
      rw [runList_append] at ran
      obtain ⟨t, before, last⟩ := Option.bind_eq_some_iff.mp ran
      obtain ⟨counts, order⟩ := ih before
      obtain ⟨u, taken, same⟩ := Option.bind_eq_some_iff.mp last
      cases same
      rw [tally_snoc, ← counts]
      exact step_tally order taken

/-- In every run from boot the pointers stay on the page exactly as long as at most 1024 reads
have begun and at most 1023 have been served, however few wait at once. -/
theorem queueOnPage_iff (sched : Scheduler.State) (buffer : UInt8 → UInt8) (slots : Nat → Ptr)
    (events : List Event) (s : State)
    (ran : runList step (initTerminal sched buffer slots) events = some s) :
    QueueOnPage (initTerminal sched buffer slots) events ↔
      (tally events).asked ≤ 1024 ∧ (tally events).served ≤ 1023 := by
  have slotCount : QUEUE_SLOTS = 1024 := rfl
  constructor
  · intro onPage
    have counts (before : List Event) (s : State)
        (ran : runList step (initTerminal sched buffer slots) before = some s) :
        s.queueTail = (tally before).asked ∧ s.queueHead = (tally before).served := by
      rw [← (run_tally ran).1]
      exact ⟨rfl, rfl⟩
    refine ⟨?_, ?_⟩
    · induction events using List.reverseRecOn generalizing s with
      | nil => exact Nat.zero_le _
      | append_singleton rest event ih =>
          rw [runList_append] at ran
          obtain ⟨t, before, last⟩ := Option.bind_eq_some_iff.mp ran
          have earlier : (tally rest).asked ≤ 1024 := by
            refine ih t before fun first second u split ran => ?_
            obtain ⟨head, tail⟩ := onPage first (second ++ [event]) u (by rw [split]; simp) ran
            exact ⟨head, fun count later next => tail count (later ++ [event]) (by rw [next]; rfl)⟩
          rw [tally_snoc]
          cases event with
          | read count =>
              have slot := (onPage rest [.read count] t rfl before).2 count [] rfl
              rw [(counts rest t before).1] at slot
              exact slot
          | key key =>
              rw [Tally.count]
              split
              · exact earlier
              · exact earlier
          | scheduler => exact earlier
          | fork => exact earlier
          | screen cursor => exact earlier
          | other slot p => exact earlier
    · have head := (onPage events [] s (List.append_nil events).symm ran).1
      rw [(counts events s ran).2] at head
      omega
  · rintro ⟨asked, served⟩ before after t rfl reached
    have counts := (run_tally reached).1
    have tail : t.queueTail = (tally before).asked := by rw [← counts]
    have head : t.queueHead = (tally before).served := by rw [← counts]
    have grows := tally_grows before after
    refine ⟨by omega, ?_⟩
    rintro count rest rfl
    have more := tally_grows (before ++ [.read count]) rest
    rw [tally_snoc, List.append_assoc] at more
    have next : (tally before).asked + 1 ≤ (tally (before ++ ([.read count] ++ rest))).asked := more.1
    have same : before ++ ([.read count] ++ rest) = before ++ Event.read count :: rest := rfl
    rw [same] at next
    omega

theorem two_readers_on_page :
    ∃ s, runList step sampleTerminal [.scheduler, .fork, .read 0, .read 0] = some s ∧
      QueueOnPage sampleTerminal [.scheduler, .fork, .read 0, .read 0] := by
  have runs : (runList step sampleTerminal [.scheduler, .fork, .read 0, .read 0]).isSome = true := by
    decide +kernel
  obtain ⟨s, ran⟩ := Option.isSome_iff_exists.mp runs
  exact ⟨s, ran, (queueOnPage_iff _ (fun _ => 0) (fun _ => .idleProc) _ s ran).mpr (by decide)⟩

/-- Init reads a line, and an empty one is typed. -/
def lineCycle : List Event := [.scheduler, .read 0, .key 0x0A]

def cycles (n : Nat) : List Event := (List.replicate n lineCycle).flatten

/-- Idle runs, and init has been served `n` lines, the last of which it may still have to copy. -/
structure Resting (s : State) (n : Nat) : Prop where
  sched : ∃ old, s.sched = sampleState false .ready old .idleProc 0
  head : s.queueHead = n
  tail : s.queueTail = n
  init : s.calls (.heap 0) = none ∨ s.calls (.heap 0) = some 0
  idle : s.calls .idleProc = none
  running : s.panicked = false

theorem step_running {s : State} (event : Event) (running : s.panicked = false) :
    step s event = act s event := by
  rw [step, running]
  rfl

theorem Resting.switch {s : State} {n : Nat} (rest : Resting s n) :
    ∃ t, step s .scheduler = some t ∧ t.sched = sampleState false .ready .idleProc (.heap 0) 1 ∧
      t.queueHead = n ∧ t.queueTail = n ∧ t.calls (.heap 0) = none ∧ t.calls .idleProc = none ∧
        t.panicked = false := by
  obtain ⟨⟨old, shape⟩, head, tail, init, idle, running⟩ := rest
  have found : findNext (sampleState false .ready old .idleProc 0).next
      (sampleState false .ready old .idleProc 0).ready (2 ^ 32) .idleProc = some (.heap 0) := rfl
  have switched := scheduler_sample false .ready old .idleProc (.heap 0) 0 found
  refine ⟨resume { s with sched := sampleState false .ready .idleProc (.heap 0) 1 }, ?_, ?_⟩
  · rw [step_running _ running, act, shape, switched]
    rfl
  · have active : (sampleState false .ready .idleProc (.heap 0) 1).activeProc = .heap 0 := rfl
    have used : (sampleState false .ready .idleProc (.heap 0) 1).used = .low 2 := rfl
    rcases init with none | some
    · rw [resume, active, none]
      exact ⟨rfl, head, tail, none, idle, running⟩
    · have copies : ¬ (s.length > 0 ∧ (0 : UInt8) ≠ 0) := fun both => both.2 rfl
      rw [resume, active, some]
      simp only [if_neg copies, used, memCopy_low 2 (by decide)]
      exact ⟨rfl, head, tail, Function.update_self .., (Function.update_of_ne (by decide) ..).trans idle,
        running⟩

theorem Resting.wait {s : State} {n : Nat} (rest : Resting s n) :
    ∃ t u, step s .scheduler = some t ∧ step t (.read 0) = some u ∧
      u.sched = sampleState false .waiting (.heap 0) .idleProc 0 ∧ u.queueHead = n ∧
        u.queueTail = n + 1 ∧ u.slots n = .heap 0 ∧ u.calls (.heap 0) = some 0 ∧
          u.calls .idleProc = none ∧ u.panicked = false := by
  obtain ⟨t, switched, sched, head, tail, init, idle, running⟩ := rest.switch
  have found : findNext (sampleState false .waiting .idleProc (.heap 0) 1).next
      (sampleState false .waiting .idleProc (.heap 0) 1).ready (2 ^ 32) (.heap 0) =
        some .idleProc := rfl
  have blocked : block t.sched = some (sampleState false .waiting (.heap 0) .idleProc 0) := by
    have active : (sampleState false .ready .idleProc (.heap 0) 1).activeProc = .heap 0 := rfl
    rw [sched, block, active, setState_sample]
    exact scheduler_sample false .waiting .idleProc (.heap 0) .idleProc 1 found
  have active : t.sched.activeProc = .heap 0 := by rw [sched]; rfl
  have notIdle : t.sched.activeProc ≠ .idleProc := by
    rw [active]
    decide
  have idle' : Function.update t.calls (.heap 0) (some 0) .idleProc = none :=
    (Function.update_of_ne (by decide) ..).trans idle
  have called : Function.update t.calls (.heap 0) (some 0) (.heap 0) = some 0 :=
    Function.update_self ..
  have asleep : (sampleState false .waiting (.heap 0) .idleProc 0).activeProc = .idleProc := rfl
  have waits : step t (.read 0) = some { t with
      slots := Function.update t.slots n (.heap 0)
      queueTail := n + 1
      calls := Function.update t.calls (.heap 0) (some 0)
      sched := sampleState false .waiting (.heap 0) .idleProc 0
      trace := t.trace ++ [.wait (.heap 0)] } := by
    rw [step_running _ running, act, if_neg notIdle, sendbuffer, blocked, active, tail,
      Option.map_some, resume]
    simp only [asleep, idle']
  exact ⟨t, _, switched, waits, rfl, head, rfl, Function.update_self .., called, idle', running⟩

theorem Resting.cycle {s : State} {n : Nat} (rest : Resting s n) :
    ∃ t, runList step s lineCycle = some t ∧ Resting t (n + 1) := by
  obtain ⟨t, u, switched, waits, sched, head, tail, slot, init, idle, running⟩ := rest.wait
  have different : n ≠ n + 1 := Nat.ne_of_lt n.lt_succ_self
  have complete : lineKey u 0x0A = { u with
      buffer := Function.update u.buffer u.length 0
      length := u.length + 1
      sched := sampleState false .ready (.heap 0) .idleProc 0
      queueHead := n + 1 } := by
    rw [lineKey_newline, head, tail, if_neg different, slot, sched, unblock, setState_sample]
  have fine : (keybuffer u 0x0A).panicked = false := by
    refine keybuffer_running u 0x0A running fun _ => ⟨2, by decide, ?_⟩
    rw [sched]
    rfl
  have typed : step u (.key 0x0A) =
      some { keybuffer u 0x0A with trace := u.trace ++ [.key 0x0A] } := step_running _ running
  refine ⟨{ keybuffer u 0x0A with trace := u.trace ++ [.key 0x0A] }, ?_, ?_⟩
  · rw [lineCycle, runList, switched, Option.bind_some, runList, waits, Option.bind_some, runList,
      typed]
    rfl
  · rw [keybuffer_lineKey, fine, complete]
    exact ⟨⟨_, rfl⟩, rfl, tail, .inr init, idle, rfl⟩

theorem cycles_rest (n : Nat) : ∃ s, runList step sampleTerminal (cycles n) = some s ∧ Resting s n := by
  induction n with
  | zero => exact ⟨_, rfl, ⟨_, rfl⟩, rfl, rfl, .inl rfl, rfl, rfl⟩
  | succ n ih =>
      obtain ⟨s, ran, rest⟩ := ih
      obtain ⟨t, once, resting⟩ := rest.cycle
      have more : cycles (n + 1) = cycles n ++ lineCycle := by
        rw [cycles, List.replicate_succ', List.flatten_concat, cycles]
      refine ⟨t, ?_, resting⟩
      rw [more, runList_append, ran, Option.bind_some, once]

/-- The processes that wait. -/
def State.waiters (s : State) : List Ptr := s.sched.members.filter fun p => !s.sched.ready p

theorem step_created {s t : State} {event : Event} (noFork : event ≠ .fork)
    (taken : step s event = some t) : t.sched.created = s.sched.created := by
  have scheduled {u v : Scheduler.State} (ran : scheduler u = some v) : v.created = u.created := by
    obtain ⟨p, -, rfl⟩ := Option.map_eq_some_iff.mp ran
    rfl
  have resumed (u : State) : (resume u).sched.created = u.sched.created := by
    obtain ⟨_, _, _, _, shape, _⟩ := resume_shape u
    rw [shape]
  rw [step] at taken
  split at taken
  · cases taken
  cases event with
  | key key =>
      cases taken
      change (keybuffer s key).sched.created = s.sched.created
      rw [keybuffer_lineKey]
      by_cases newline : key = 0x0A
      · rw [newline, lineKey_newline]
        split
        · rfl
        · rfl
      · obtain ⟨buffer, length, shape⟩ := lineKey_keeps s key newline
        rw [shape]
  | read count =>
      rw [act] at taken
      split at taken
      · cases taken
      · rw [sendbuffer] at taken
        obtain ⟨sched, blocks, rfl⟩ := Option.map_eq_some_iff.mp taken
        rw [resumed]
        have made : sched.created = (setState s.sched s.sched.activeProc .waiting).created :=
          scheduled blocks
        exact made
  | scheduler =>
      rw [act] at taken
      obtain ⟨sched, switch, rfl⟩ := Option.map_eq_some_iff.mp taken
      rw [resumed]
      exact scheduled switch
  | fork => exact absurd rfl noFork
  | screen cursor =>
      cases taken
      rfl
  | other slot p =>
      rw [act] at taken
      split at taken
      · cases taken
      · cases taken
        rfl

theorem run_created {s t : State} {events : List Event} (noFork : ∀ event ∈ events, event ≠ .fork)
    (ran : runList step s events = some t) : t.sched.created = s.sched.created := by
  induction events generalizing s with
  | nil =>
      cases ran
      rfl
  | cons event rest ih =>
      obtain ⟨u, taken, onward⟩ := Option.bind_eq_some_iff.mp ran
      have later := ih (fun other member => noFork other (List.mem_cons_of_mem _ member)) onward
      rw [later, step_created (noFork event List.mem_cons_self) taken]

theorem thousand_lines_off_page :
    ¬ ∀ (used : Kheap) (sched : Scheduler.State) (buffer : UInt8 → UInt8) (slots : Nat → Ptr)
      (events : List Event) (s : State), initScheduler used = some sched →
        runList step (initTerminal sched buffer slots) events = some s →
        (∀ before after t, events = before ++ after →
          runList step (initTerminal sched buffer slots) before = some t → t.waiters.length < 1024) →
        QueueOnPage (initTerminal sched buffer slots) events := by
  intro claim
  obtain ⟨s, ran, rest⟩ := cycles_rest 1024
  have few (before after : List Event) (t : State) (split : cycles 1024 = before ++ after)
      (reached : runList step sampleTerminal before = some t) : t.waiters.length < 1024 := by
    have noFork : ∀ event ∈ before, event ≠ .fork := by
      intro event member
      have inside : event ∈ cycles 1024 := split ▸ List.mem_append_left after member
      obtain ⟨cycle, copies, within⟩ := List.mem_flatten.mp inside
      rw [List.eq_of_mem_replicate copies] at within
      rintro rfl
      simp [lineCycle] at within
    have made := run_created noFork reached
    have members : t.sched.members.length = 2 := by
      rw [State.members, made]
      rfl
    have bound : t.waiters.length ≤ t.sched.members.length := List.length_filter_le _ _
    omega
  have head := (claim (.low 0) _ (fun _ => 0) (fun _ => .idleProc) (cycles 1024) s
    initScheduler_sample ran few (cycles 1024) [] s (List.append_nil _).symm ran).1
  rw [rest.head] at head
  exact absurd head (by decide)

end TitorOS.Barrel.Terminal
