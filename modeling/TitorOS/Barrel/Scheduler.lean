import TitorOS.Lib.Ring
import TitorOS.Barrel.Kheap
import Mathlib.Data.Finset.Card

/-! The process ring of `kernel/scheduler.c`. A process is named by its address:
the global `idle_proc`, or the heap page of its structure. Page directories and
kernel stacks are not part of this module. -/

namespace TitorOS.Barrel.Scheduler

open TitorOS.Lib

inductive Ptr where
  | idleProc
  | heap (page : Nat)
  deriving DecidableEq, Repr

inductive ProcState where
  | ready | waiting
  deriving DecidableEq, Repr

structure Process where
  pid : UInt32
  state : ProcState
  next : Ptr
  deriving DecidableEq, Repr

/-- `created` is a ghost: the processes made since boot, latest first. -/
structure State where
  procs : Ptr → Process
  activeProc : Ptr
  oldProc : Ptr
  activePid : UInt32
  used : Kheap
  created : List Ptr

def State.next (s : State) (p : Ptr) : Ptr := (s.procs p).next

def State.ready (s : State) (p : Ptr) : Bool := (s.procs p).state = .ready

def State.members (s : State) : List Ptr := .idleProc :: s.created

/-- The loop ends at a READY process or never; `2^32` visits cover every address. -/
def scheduler (s : State) : Option State :=
  (findNext s.next s.ready (2 ^ 32) s.activeProc).map fun p =>
    { s with oldProc := s.activeProc, activeProc := p, activePid := (s.procs p).pid }

def setState (s : State) (p : Ptr) (state : ProcState) : State :=
  { s with procs := Function.update s.procs p { s.procs p with state := state } }

def block (s : State) : Option State := scheduler (setState s s.activeProc .waiting)

def unblock (s : State) (p : Ptr) : State := setState s p .ready

/-- The pages are those of the new structure, of the descriptor table, of the page
directory and of the kernel stack; the two copies each borrow one more. -/
def fork (s : State) : Option State := do
  let (page, used) ← kmalloc s.used
  let (_, used) ← kmalloc used
  let used ← memCopy used
  let (_, used) ← kmalloc used
  let used ← memCopy used
  let new := Ptr.heap page
  let parent := s.procs s.activeProc
  let procs := Function.update s.procs new ⟨2, parent.state, parent.next⟩
  let procs := Function.update procs s.activeProc { parent with next := new }
  let (_, used) ← kmalloc used
  return { s with procs := procs, used := used, created := new :: s.created }

/-- `init_scheduler` with `init_proc`. The state of `idle_proc` is the zero of its
static storage, READY. -/
def initScheduler (used : Kheap) : Option State := do
  let (page, used) ← kmalloc used
  let (_, used) ← kmalloc used
  let init := Ptr.heap page
  return {
    procs := fun p => if p = init then ⟨1, .ready, .idleProc⟩ else ⟨0, .ready, init⟩
    activeProc := .idleProc
    oldProc := .idleProc
    activePid := 0
    used := used
    created := [init] }

inductive Act where
  | fork
  | block
  | unblock (p : Ptr)
  | scheduler
  deriving DecidableEq, Repr

/-- Idle does not block, and only processes are unblocked. -/
def step (s : State) : Act → Option State
  | .fork => fork s
  | .block => if s.activeProc = .idleProc then none else block s
  | .unblock p => if p ∈ s.members then some (unblock s p) else none
  | .scheduler => scheduler s

/-- A run of `n` steps from the state `init_scheduler` leaves. -/
structure Trace (n : Nat) where
  used : Kheap
  state : Nat → State
  act : Nat → Act
  start : initScheduler used = some (state 0)
  valid : ∀ i < n, step (state i) (act i) = some (state (i + 1))

def Trace.Selects {n : Nat} (tr : Trace n) (i : Nat) (p : Ptr) : Prop :=
  i < n ∧ (tr.act i = .scheduler ∨ tr.act i = .block) ∧ (tr.state (i + 1)).activeProc = p

def RingOk (s : State) : Prop :=
  ∃ ring, IsRing s.next ring ∧ s.activeProc ∈ ring ∧ ∀ p, p ∈ ring ↔ p ∈ s.members

def SearchOk (s : State) : Prop :=
  ∃ t k, scheduler s = some t ∧ s.next^[k + 1] s.activeProc = t.activeProc ∧
    s.ready t.activeProc = true ∧ ∀ j < k, s.ready (s.next^[j + 1] s.activeProc) = false

/-- Steps `i` and `j` are consecutive selections of `p`. -/
structure Trace.Lap {n : Nat} (tr : Trace n) (i j : Nat) (p : Ptr) : Prop where
  order : i < j
  first : tr.Selects i p
  last : tr.Selects j p
  between : ∀ m, i < m → m < j → ¬ tr.Selects m p

/-- `q` is READY in every state from the selection at step `i` to the one at `j`. -/
def Trace.StaysReady {n : Nat} (tr : Trace n) (i j : Nat) (q : Ptr) : Prop :=
  ∀ m, i < m → m ≤ j → (tr.state m).ready q = true

/-- Linked in the order of `ring`, the active process first. -/
structure Linked (s : State) (ring : List Ptr) : Prop where
  isRing : IsRing s.next ring
  head : ring.head? = some s.activeProc
  members : ∀ p, p ∈ ring ↔ p ∈ s.members
  pages : ∀ p ∈ s.created, ∃ page, p = .heap page ∧ page < HEAP_PAGES ∧ s.used page = true
  idle : s.ready .idleProc = true

theorem initScheduler_linked (used : Kheap) (s : State) (start : initScheduler used = some s) :
    ∃ ring, Linked s ring := by
  simp only [initScheduler, Option.bind_eq_bind, Option.bind_eq_some_iff, Option.pure_def,
    Option.some.injEq, Prod.exists] at start
  obtain ⟨page, used1, first, stack, used2, second, rfl⟩ := start
  obtain ⟨bound, _, rfl⟩ := kmalloc_spec _ _ _ first
  have inUse := kmalloc_keeps _ _ stack page second (Function.update_self ..)
  refine ⟨[.idleProc, .heap page], ⟨by simp, by simp [State.next]⟩, rfl, ?_, ?_, ?_⟩
  · intro p
    simp [State.members]
  · intro p member
    rw [List.mem_singleton.mp member]
    exact ⟨page, rfl, bound, inUse⟩
  · simp [State.ready]

theorem ring_length (s : State) (ring : List Ptr) (linked : Linked s ring) :
    ring.length ≤ HEAP_PAGES + 1 := by
  have inside : ring.toFinset ⊆
      insert Ptr.idleProc ((Finset.range HEAP_PAGES).image Ptr.heap) := by
    intro p member
    have listed := (linked.members p).mp (List.mem_toFinset.mp member)
    rcases List.mem_cons.mp listed with rfl | made
    · exact Finset.mem_insert_self ..
    · obtain ⟨page, rfl, bound, _⟩ := linked.pages p made
      exact Finset.mem_insert_of_mem
        (Finset.mem_image.mpr ⟨page, Finset.mem_range.mpr bound, rfl⟩)
  calc
    ring.length = ring.toFinset.card :=
      (List.toFinset_card_of_nodup linked.isRing.nodup).symm
    _ ≤ _ := Finset.card_le_card inside
    _ ≤ _ := Finset.card_insert_le ..
    _ ≤ HEAP_PAGES + 1 := by
      have image := Finset.card_image_le (s := Finset.range HEAP_PAGES) (f := Ptr.heap)
      rw [Finset.card_range] at image
      omega

theorem scheduler_linked (s : State) (ring : List Ptr) (linked : Linked s ring) :
    ∃ t ring', scheduler s = some t ∧ Turn s.ready ring ring' ∧ Linked t ring' ∧
      t.procs = s.procs ∧ t.created = s.created := by
  cases ring with
  | nil => exact absurd linked.isRing id
  | cons x rest =>
      have active : x = s.activeProc := by simpa using linked.head
      have idle : Ptr.idleProc ∈ x :: rest := (linked.members _).mpr List.mem_cons_self
      obtain ⟨ring', turn, head⟩ := Turn.exists s.ready x rest ⟨_, idle, linked.idle⟩
      obtain ⟨y, first⟩ : ∃ y, ring'.head? = some y := by
        obtain ⟨_, _, _, y, _, _, _, _, _, rfl⟩ := turn
        exact ⟨y, rfl⟩
      have length := ring_length s _ linked
      have found : findNext s.next s.ready (2 ^ 32) s.activeProc = some y := by
        rw [← active]
        refine findNext_chain s.next s.ready (rest ++ [x]) x y _ linked.isRing.2 ?_ ?_
        · simp only [List.length_append, List.length_cons, List.length_nil, HEAP_PAGES] at length ⊢
          omega
        · rw [← head, first]
      refine ⟨{ s with oldProc := s.activeProc, activeProc := y, activePid := (s.procs y).pid },
        ring', by rw [scheduler, found]; rfl, turn, ?_, rfl, rfl⟩
      exact {
        isRing := turn.isRing linked.isRing
        head := first
        members := fun p => turn.mem_iff.trans (linked.members p)
        pages := linked.pages
        idle := linked.idle }

theorem scheduler_stays_iff (s t : State) (ring : List Ptr) (linked : Linked s ring)
    (taken : scheduler s = some t) :
    t.activeProc = s.activeProc ↔
      ∀ q ∈ s.members, q ≠ s.activeProc → s.ready q = false := by
  obtain ⟨u, ring', selected, turn, linked', _⟩ := scheduler_linked s ring linked
  obtain rfl : u = t := Option.some.inj (selected.symm.trans taken)
  rw [turn.stays_iff linked.isRing.nodup linked.head linked'.head]
  exact forall_congr' fun q => imp_congr_left (linked.members q)

theorem setState_next (s : State) (p : Ptr) (state : ProcState) :
    (setState s p state).next = s.next := by
  funext q
  by_cases same : q = p
  · simp [setState, State.next, same]
  · simp [setState, State.next, same]

theorem setState_ready (s : State) (p q : Ptr) (state : ProcState) :
    (setState s p state).ready q = if q = p then decide (state = .ready) else s.ready q := by
  by_cases same : q = p
  · simp [setState, State.ready, same]
  · simp [setState, State.ready, same]

theorem setState_linked (s : State) (p : Ptr) (state : ProcState) (ring : List Ptr)
    (linked : Linked s ring) (idle : (setState s p state).ready .idleProc = true) :
    Linked (setState s p state) ring where
  isRing := by
    rw [setState_next]
    exact linked.isRing
  head := linked.head
  members := linked.members
  pages := linked.pages
  idle := idle

theorem fork_linked (s t : State) (ring : List Ptr) (linked : Linked s ring)
    (taken : fork s = some t) :
    ∃ x rest y, ring = x :: rest ∧ y ∉ ring ∧ Linked t (x :: y :: rest) ∧
      (∀ p ∈ ring, t.ready p = s.ready p) ∧ t.activeProc = s.activeProc := by
  simp only [fork, Option.bind_eq_bind, Option.bind_eq_some_iff, Option.pure_def,
    Option.some.injEq, Prod.exists] at taken
  obtain ⟨page, used1, first, table, used2, second, used3, copy1, dir, used4, third, used5, copy2,
    stack, used6, last, rfl⟩ := taken
  rw [memCopy_eq _ _ copy1] at third
  rw [memCopy_eq _ _ copy2] at last
  obtain ⟨bound, free, rfl⟩ := kmalloc_spec _ _ _ first
  have grow (other : Nat) (inUse : Function.update s.used page true other = true) :
      used6 other = true :=
    kmalloc_keeps _ _ _ _ last (kmalloc_keeps _ _ _ _ third (kmalloc_keeps _ _ _ _ second inUse))
  cases ring with
  | nil => exact absurd linked.isRing id
  | cons x rest =>
      have active : x = s.activeProc := by simpa using linked.head
      subst x
      have fresh : Ptr.heap page ∉ s.activeProc :: rest := by
        intro member
        rcases List.mem_cons.mp ((linked.members _).mp member) with idle | made
        · cases idle
        · obtain ⟨other, same, _, inUse⟩ := linked.pages _ made
          cases same
          rw [free] at inUse
          cases inUse
      have parent : s.activeProc ≠ Ptr.heap page := fun same => fresh (same ▸ List.mem_cons_self)
      set t : State := { s with
        procs := Function.update (Function.update s.procs (.heap page)
          ⟨2, (s.procs s.activeProc).state, (s.procs s.activeProc).next⟩) s.activeProc
          { s.procs s.activeProc with next := .heap page }
        used := used6
        created := .heap page :: s.created } with shape
      have same : ∀ p ∈ s.activeProc :: rest, t.ready p = s.ready p := by
        intro p member
        have old : p ≠ .heap page := fun same => fresh (same ▸ member)
        by_cases own : p = s.activeProc
        · simp [shape, State.ready, own]
        · simp [shape, State.ready, own, old]
      refine ⟨s.activeProc, rest, .heap page, rfl, fresh, ?_, same, rfl⟩
      refine ⟨?_, rfl, ?_, ?_, ?_⟩
      · have links := linked.isRing.insert fresh
        refine Eq.mp (congrArg (fun next => IsRing next _) ?_) links
        funext p
        by_cases own : p = s.activeProc
        · simp [shape, State.next, own]
        · by_cases new : p = .heap page
          · simp [shape, State.next, new, parent.symm]
          · simp [shape, State.next, own, new]
      · intro p
        have old := linked.members p
        have listed : t.members = .idleProc :: .heap page :: s.created := rfl
        rw [listed]
        simp only [State.members, List.mem_cons] at old ⊢
        rw [or_left_comm, old, or_left_comm]
      · intro p member
        rcases List.mem_cons.mp member with rfl | made
        · exact ⟨page, rfl, bound, grow page (Function.update_self ..)⟩
        · obtain ⟨other, rfl, small, inUse⟩ := linked.pages p made
          refine ⟨other, rfl, small, grow other ?_⟩
          by_cases again : other = page
          · rw [again, Function.update_self]
          · rw [Function.update_of_ne again, inUse]
      · rw [same _ ((linked.members _).mpr List.mem_cons_self)]
        exact linked.idle

/-- How one step moves the ring: a fork links a new process in after the cursor, a
selection turns it, and `unblock` leaves it alone. -/
inductive Moves (s t : State) (ring ring' : List Ptr) : Act → Prop
  | fork {x : Ptr} {rest : List Ptr} (y : Ptr) : ring = x :: rest → y ∉ ring →
      ring' = x :: y :: rest → (∀ p ∈ ring, t.ready p = s.ready p) → Moves s t ring ring' .fork
  | block : Turn t.ready ring ring' → (∀ p, p ≠ s.activeProc → t.ready p = s.ready p) →
      Moves s t ring ring' .block
  | unblock (p : Ptr) : ring' = ring → Moves s t ring ring' (.unblock p)
  | scheduler : Turn t.ready ring ring' → t.ready = s.ready → Moves s t ring ring' .scheduler

theorem step_linked (s t : State) (a : Act) (ring : List Ptr) (linked : Linked s ring)
    (taken : step s a = some t) : ∃ ring', Linked t ring' ∧ Moves s t ring ring' a := by
  cases a with
  | fork =>
      obtain ⟨x, rest, y, shape, fresh, linked', same, _⟩ := fork_linked s t ring linked taken
      exact ⟨_, linked', .fork y shape fresh rfl same⟩
  | block =>
      simp only [step] at taken
      split at taken
      · cases taken
      · rename_i notIdle
        have marked : Linked (setState s s.activeProc .waiting) ring := by
          refine setState_linked s _ _ ring linked ?_
          rw [setState_ready, if_neg (Ne.symm notIdle)]
          exact linked.idle
        obtain ⟨u, ring', done, turn, linked', procs, _⟩ := scheduler_linked _ ring marked
        have same : u = t := Option.some.inj (done.symm.trans taken)
        subst same
        have readySame : u.ready = (setState s s.activeProc .waiting).ready := by
          funext p
          simp [State.ready, procs]
        refine ⟨ring', linked', .block (readySame ▸ turn) fun p other => ?_⟩
        rw [readySame, setState_ready, if_neg other]
  | unblock p =>
      simp only [step] at taken
      split at taken
      · cases taken
        refine ⟨ring, setState_linked s p .ready ring linked ?_, .unblock p rfl⟩
        rw [setState_ready]
        split
        · rfl
        · exact linked.idle
      · cases taken
  | scheduler =>
      obtain ⟨u, ring', done, turn, linked', procs, _⟩ := scheduler_linked s ring linked
      have same : u = t := Option.some.inj (done.symm.trans taken)
      subst same
      have readySame : u.ready = s.ready := by
        funext p
        simp [State.ready, procs]
      exact ⟨ring', linked', .scheduler (readySame ▸ turn) readySame⟩

theorem Trace.linked {n : Nat} (tr : Trace n) (m : Nat) (within : m ≤ n) :
    ∃ ring, Linked (tr.state m) ring := by
  induction m with
  | zero => exact initScheduler_linked tr.used _ tr.start
  | succ m ih =>
      obtain ⟨ring, linked⟩ := ih (by omega)
      obtain ⟨ring', linked', _⟩ := step_linked _ _ _ ring linked (tr.valid m (by omega))
      exact ⟨ring', linked'⟩

theorem linked_ringOk (s : State) (ring : List Ptr) (linked : Linked s ring) : RingOk s :=
  ⟨ring, linked.isRing, List.mem_of_head? linked.head, linked.members⟩

theorem linked_searchOk (s : State) (ring : List Ptr) (linked : Linked s ring) : SearchOk s := by
  obtain ⟨t, ring', done, _, _, _, _⟩ := scheduler_linked s ring linked
  obtain ⟨p, found, rfl⟩ := Option.map_eq_some_iff.mp done
  obtain ⟨k, reached, isReady, earlier⟩ := findNext_first s.next s.ready _ _ p found
  exact ⟨_, k, done, reached, isReady, earlier⟩

/-- The lap of `p` at step `m`: either `q` is still ahead and has not been selected
since step `i`, or it has been; and exactly once, with `q` passed, if `p` stayed
READY. -/
def Trace.Progress {n : Nat} (tr : Trace n) (i m : Nat) (p q : Ptr) (steady : Prop)
    (ring : List Ptr) : Prop :=
  (q ∈ ahead p ring ∧ ∀ k, i < k → k < m → ¬ tr.Selects k q) ∨
    ((∃ k, i < k ∧ k < m ∧ tr.Selects k q) ∧
      (steady → q ∉ ahead p ring ∧ ∃! k, i < k ∧ k < m ∧ tr.Selects k q))

theorem progress_idle {n : Nat} (tr : Trace n) (i m : Nat) (p q : Ptr) (steady : Prop)
    (ring ring' : List Ptr) (same : q ∈ ahead p ring' ↔ q ∈ ahead p ring)
    (quiet : ¬ tr.Selects m q) (before : tr.Progress i m p q steady ring) :
    tr.Progress i (m + 1) p q steady ring' := by
  have cut (k : Nat) (selected : tr.Selects k q) : k < m + 1 ↔ k < m := by
    have other : k ≠ m := fun equal => quiet (equal ▸ selected)
    omega
  rcases before with ⟨waiting, none_yet⟩ | ⟨⟨k, low, high, selected⟩, once⟩
  · refine .inl ⟨same.mpr waiting, ?_⟩
    intro k low high selected
    exact none_yet k low ((cut k selected).mp high) selected
  · refine .inr ⟨⟨k, low, by omega, selected⟩, fun holds => ?_⟩
    obtain ⟨passed, u, ⟨lowU, highU, selectedU⟩, unique⟩ := once holds
    refine ⟨fun ahead => passed (same.mp ahead), u, ⟨lowU, by omega, selectedU⟩, ?_⟩
    rintro v ⟨lowV, highV, selectedV⟩
    exact unique v ⟨lowV, (cut v selectedV).mp highV, selectedV⟩

theorem progress_turn {n : Nat} (tr : Trace n) (i m : Nat) (p q : Ptr) (steady : Prop)
    (ring ring' : List Ptr) (later : i < m) (ready : Ptr → Bool) (turn : Turn ready ring ring')
    (nodup : ring.Nodup) (nodup' : ring'.Nodup) (presentP : p ∈ ring) (presentQ : q ∈ ring)
    (other : q ≠ p) (readyQ : ready q = true) (readyP : steady → ready p = true)
    (selected : ∀ y, ring'.head? = some y → ∀ r, tr.Selects m r ↔ r = y)
    (notP : ¬ tr.Selects m p) (before : tr.Progress i m p q steady ring) :
    tr.Progress i (m + 1) p q steady ring' := by
  rcases before with ⟨waiting, none_yet⟩ | ⟨⟨k, low, high, earlier⟩, once⟩
  · obtain ⟨y, head, _, next⟩ := turn.ahead_ready waiting readyQ
    have select := selected y head
    by_cases now : y = q
    · subst now
      have chosen : tr.Selects m y := (select y).mpr rfl
      refine .inr ⟨⟨m, later, by omega, chosen⟩, fun _ => ⟨?_, m, ⟨later, by omega, chosen⟩, ?_⟩⟩
      · intro still
        cases ring' with
        | nil => cases head
        | cons z rest =>
            have same : z = y := by simpa using head
            subst same
            exact (List.nodup_cons.mp nodup').1 (List.takeWhile_subset _ still)
      · rintro v ⟨lowV, highV, selectedV⟩
        by_contra different
        exact none_yet v lowV (by omega) selectedV
    · refine .inl ⟨next.resolve_left now, ?_⟩
      intro k low high selectedK
      by_cases last : k = m
      · subst last
        exact now ((select q).mp selectedK).symm
      · exact none_yet k low (by omega) selectedK
  · refine .inr ⟨⟨k, low, by omega, earlier⟩, fun holds => ?_⟩
    obtain ⟨passed, u, ⟨lowU, highU, selectedU⟩, unique⟩ := once holds
    obtain ⟨y, head, notQ, still⟩ :=
      turn.passed nodup presentP presentQ other passed (readyP holds)
    have select := selected y head
    have away : y ≠ p := fun same => notP ((select p).mpr same.symm)
    refine ⟨still away, u, ⟨lowU, by omega, selectedU⟩, ?_⟩
    rintro v ⟨lowV, highV, selectedV⟩
    refine unique v ⟨lowV, ?_, selectedV⟩
    have different : v ≠ m := by
      intro same
      subst same
      exact notQ ((select q).mp selectedV).symm
    omega

theorem selects_iff {n : Nat} (tr : Trace n) (m : Nat) (y r : Ptr) (ring : List Ptr)
    (within : m < n) (act : tr.act m = .scheduler ∨ tr.act m = .block)
    (linked : Linked (tr.state (m + 1)) ring) (head : ring.head? = some y) :
    tr.Selects m r ↔ r = y := by
  have active : (tr.state (m + 1)).activeProc = y := Option.some.inj (linked.head.symm.trans head)
  constructor
  · rintro ⟨_, _, same⟩
    exact same.symm.trans active
  · rintro rfl
    exact ⟨within, act, active⟩

theorem Trace.lap_progress {n : Nat} (tr : Trace n) (i j m : Nat) (p q : Ptr) (lap : tr.Lap i j p)
    (other : q ≠ p) (present : q ∈ (tr.state (i + 1)).members) (steadyQ : tr.StaysReady i j q)
    (low : i + 1 ≤ m) (high : m ≤ j) :
    ∃ ring, Linked (tr.state m) ring ∧ p ∈ ring ∧ q ∈ ring ∧
      tr.Progress i m p q (tr.StaysReady i j p) ring := by
  have bound := lap.last.1
  induction m, low using Nat.le_induction with
  | base =>
      obtain ⟨ring, linked⟩ := tr.linked (i + 1) (by omega)
      cases ring with
      | nil => exact absurd linked.isRing id
      | cons x rest =>
          have first : x = p := by
            have head : x = (tr.state (i + 1)).activeProc := by simpa using linked.head
            exact head.trans lap.first.2.2
          subst first
          have inside := (linked.members q).mpr present
          refine ⟨x :: rest, linked, List.mem_cons_self, inside, .inl ⟨?_, ?_⟩⟩
          · exact ahead_start linked.isRing.nodup inside other
          · intro k low high
            omega
  | succ m low ih =>
      obtain ⟨ring, linked, presentP, presentQ, before⟩ := ih (by omega)
      obtain ⟨ring', linked', moves⟩ := step_linked _ _ _ ring linked (tr.valid m (by omega))
      have notP := lap.between m (by omega) (by omega)
      have readyQ := steadyQ (m + 1) (by omega) high
      generalize action : tr.act m = a at moves
      have keep : p ∈ ring' ∧ q ∈ ring' := by
        have grows : ∀ r ∈ ring, r ∈ ring' := by
          intro r member
          cases moves with
          | fork y shape _ shape' _ =>
              subst shape shape'
              rcases List.mem_cons.mp member with rfl | inside
              · exact List.mem_cons_self
              · exact List.mem_cons_of_mem _ (List.mem_cons_of_mem _ inside)
          | unblock r same => exact same ▸ member
          | block turn _ => exact turn.mem_iff.mpr member
          | scheduler turn _ => exact turn.mem_iff.mpr member
        exact ⟨grows p presentP, grows q presentQ⟩
      refine ⟨ring', linked', keep.1, keep.2, ?_⟩
      cases moves with
      | fork y shape fresh shape' _ =>
          subst shape shape'
          have away : y ≠ p := fun same => fresh (same ▸ presentP)
          have new : q ≠ y := fun same => fresh (same ▸ presentQ)
          refine progress_idle tr i m p q _ _ _ (mem_ahead_insert away new) ?_ before
          rintro ⟨_, act, _⟩
          simp [action] at act
      | unblock r same =>
          subst same
          refine progress_idle tr i m p q _ _ _ Iff.rfl ?_ before
          rintro ⟨_, act, _⟩
          simp [action] at act
      | block turn _ =>
          exact progress_turn tr i m p q _ ring ring' (by omega) _ turn linked.isRing.nodup
            linked'.isRing.nodup presentP presentQ other readyQ
            (fun steady => steady (m + 1) (by omega) high)
            (fun y head r => selects_iff tr m y r ring' (by omega) (.inr action) linked' head)
            notP before
      | scheduler turn _ =>
          exact progress_turn tr i m p q _ ring ring' (by omega) _ turn linked.isRing.nodup
            linked'.isRing.nodup presentP presentQ other readyQ
            (fun steady => steady (m + 1) (by omega) high)
            (fun y head r => selects_iff tr m y r ring' (by omega) (.inl action) linked' head)
            notP before

/-- Between two consecutive selections of `p`, every other process that was in the
ring at the first and stayed READY is selected; exactly once if `p` stayed READY. -/
theorem Trace.lap_selects {n : Nat} (tr : Trace n) (i j : Nat) (p q : Ptr) (lap : tr.Lap i j p)
    (other : q ≠ p) (present : q ∈ (tr.state (i + 1)).members) (steadyQ : tr.StaysReady i j q) :
    (∃ m, i < m ∧ m < j ∧ tr.Selects m q) ∧
      (tr.StaysReady i j p → ∃! m, i < m ∧ m < j ∧ tr.Selects m q) := by
  have order := lap.order
  obtain ⟨ring, linked, _, _, progress⟩ :=
    tr.lap_progress i j j p q lap other present steadyQ (by omega) le_rfl
  rcases progress with ⟨waiting, _⟩ | ⟨selected, once⟩
  · -- a READY process still ahead would have been met before `p`
    obtain ⟨ring', linked', moves⟩ := step_linked _ _ _ ring linked (tr.valid j lap.last.1)
    have readyQ := steadyQ j order le_rfl
    have meets (ready : Ptr → Bool) (turn : Turn ready ring ring') (isReady : ready q = true) :
        False := by
      obtain ⟨y, head, away, _⟩ := turn.ahead_ready waiting isReady
      have active : (tr.state (j + 1)).activeProc = y :=
        Option.some.inj (linked'.head.symm.trans head)
      exact away (active.symm.trans lap.last.2.2)
    have apart : q ≠ (tr.state j).activeProc := by
      intro same
      cases ring with
      | nil => exact absurd linked.isRing id
      | cons x rest =>
          have head : x = (tr.state j).activeProc := by simpa using linked.head
          have inside := List.takeWhile_subset _ waiting
          rw [same, ← head] at inside
          exact (List.nodup_cons.mp linked.isRing.nodup).1 inside
    generalize action : tr.act j = a at moves
    cases moves with
    | fork => simpa [action] using lap.last.2.1
    | unblock => simpa [action] using lap.last.2.1
    | block turn same => exact (meets _ turn ((same q apart).trans readyQ)).elim
    | scheduler turn same => exact (meets _ turn (by rw [same]; exact readyQ)).elim
  · exact ⟨selected, fun steady => (once steady).2⟩

theorem Trace.round_robin {n : Nat} (tr : Trace n) :
    (∀ m ≤ n, RingOk (tr.state m) ∧ SearchOk (tr.state m) ∧
      ((tr.state m).activeProc ≠ .idleProc →
        SearchOk (setState (tr.state m) (tr.state m).activeProc .waiting))) ∧
    ∀ i j p, tr.Lap i j p → ∀ q ∈ (tr.state (i + 1)).members, q ≠ p → tr.StaysReady i j q →
      (∃ m, i < m ∧ m < j ∧ tr.Selects m q) ∧
        (tr.StaysReady i j p → ∃! m, i < m ∧ m < j ∧ tr.Selects m q) := by
  refine ⟨?_, ?_⟩
  · intro m within
    obtain ⟨ring, linked⟩ := tr.linked m within
    refine ⟨linked_ringOk _ ring linked, linked_searchOk _ ring linked, fun notIdle => ?_⟩
    refine linked_searchOk _ ring (setState_linked _ _ _ ring linked ?_)
    rw [setState_ready, if_neg (Ne.symm notIdle)]
    exact linked.idle
  · intro i j p lap q present other steadyQ
    exact tr.lap_selects i j p q lap other present steadyQ

/-- Idle, init at page 0 and, once `forked`, its child at page 2. -/
def sampleState (forked : Bool) (init : ProcState) (old active : Ptr) (pid : UInt32) : State where
  procs := fun p =>
    if p = .heap 0 then ⟨1, init, if forked then .heap 2 else .idleProc⟩
    else if p = .heap 2 ∧ forked then ⟨2, .ready, .idleProc⟩
    else ⟨0, .ready, .heap 0⟩
  activeProc := active
  oldProc := old
  activePid := pid
  used := .low (if forked then 6 else 2)
  created := if forked then [.heap 2, .heap 0] else [.heap 0]

theorem initScheduler_sample :
    initScheduler (.low 0) = some (sampleState false .ready .idleProc .idleProc 0) := by
  rw [initScheduler, kmalloc_low 0 (by decide)]
  simp only [Option.bind_eq_bind, Option.bind_some]
  rw [kmalloc_low 1 (by decide)]
  simp [sampleState]

theorem scheduler_sample (forked : Bool) (init : ProcState) (old active p : Ptr) (pid : UInt32)
    (found : findNext (sampleState forked init old active pid).next
      (sampleState forked init old active pid).ready (2 ^ 32) active = some p) :
    scheduler (sampleState forked init old active pid) =
      some (sampleState forked init active p
        ((sampleState forked init old active pid).procs p).pid) := by
  have start : (sampleState forked init old active pid).activeProc = active := rfl
  rw [scheduler, start, found]
  rfl

theorem setState_sample (forked : Bool) (init state : ProcState) (old active : Ptr)
    (pid : UInt32) :
    setState (sampleState forked init old active pid) (.heap 0) state =
      sampleState forked state old active pid := by
  have same : Function.update (sampleState forked init old active pid).procs (.heap 0)
      { (sampleState forked init old active pid).procs (.heap 0) with state := state } =
      (sampleState forked state old active pid).procs := by
    funext p
    by_cases own : p = .heap 0
    · simp [sampleState, own]
    · simp [sampleState, own]
  rw [setState, same]
  rfl

theorem fork_sample :
    fork (sampleState false .ready .idleProc (.heap 0) 1) =
      some (sampleState true .ready .idleProc (.heap 0) 1) := by
  have used : (sampleState false .ready .idleProc (.heap 0) 1).used = .low 2 := rfl
  rw [fork, used, kmalloc_low 2 (by decide)]
  simp only [Option.bind_eq_bind, Option.bind_some]
  rw [kmalloc_low 3 (by decide), Option.bind_some, memCopy_low 4 (by decide), Option.bind_some,
    kmalloc_low 4 (by decide), Option.bind_some, memCopy_low 5 (by decide), Option.bind_some,
    kmalloc_low 5 (by decide), Option.bind_some]
  simp only [Option.pure_def, Option.some.injEq, sampleState, State.mk.injEq]
  refine ⟨?_, trivial, trivial, trivial, rfl, rfl⟩
  funext p
  by_cases own : p = .heap 0
  · simp [own]
  · by_cases child : p = .heap 2
    · simp [child]
    · simp [own, child]

/-- Init forks and blocks; the child goes on taking turns until init is unblocked. -/
def blockedState : Nat → State
  | 0 => sampleState false .ready .idleProc .idleProc 0
  | 1 => sampleState false .ready .idleProc (.heap 0) 1
  | 2 => sampleState true .ready .idleProc (.heap 0) 1
  | 3 => sampleState true .ready (.heap 0) (.heap 2) 2
  | 4 => sampleState true .ready (.heap 2) .idleProc 0
  | 5 => sampleState true .ready .idleProc (.heap 0) 1
  | 6 => sampleState true .waiting (.heap 0) (.heap 2) 2
  | 7 => sampleState true .waiting (.heap 2) .idleProc 0
  | 8 => sampleState true .waiting .idleProc (.heap 2) 2
  | 9 => sampleState true .ready .idleProc (.heap 2) 2
  | 10 => sampleState true .ready (.heap 2) .idleProc 0
  | _ => sampleState true .ready .idleProc (.heap 0) 1

def blockedAct : Nat → Act
  | 1 => .fork
  | 5 => .block
  | 8 => .unblock (.heap 0)
  | _ => .scheduler

def blockedTrace : Trace 11 where
  used := .low 0
  state := blockedState
  act := blockedAct
  start := initScheduler_sample
  valid := by
    intro m within
    interval_cases m
    case «1» => exact fork_sample
    case «5» =>
      rw [blockedAct, step, if_neg (by decide), block]
      simp only [blockedState]
      rw [show (sampleState true .ready .idleProc (.heap 0) 1).activeProc = .heap 0 from rfl, setState_sample]
      exact scheduler_sample _ _ _ _ _ _ (by decide +kernel)
    case «8» =>
      rw [blockedAct, step, if_pos (by decide), unblock]
      simp only [blockedState]
      rw [setState_sample]
    all_goals exact scheduler_sample _ _ _ _ _ _ (by decide +kernel)

theorem blocked_process_passed_over :
    ¬ ∀ (n : Nat) (tr : Trace n) (i j : Nat) (p : Ptr), tr.Lap i j p →
      ∀ q ∈ (tr.state (i + 1)).members, q ≠ p → tr.StaysReady i j q →
        ∃! m, i < m ∧ m < j ∧ tr.Selects m q := by
  intro once
  have selected : ∀ m < 11, 4 ≤ m →
      ((blockedState (m + 1)).activeProc = .heap 0 ↔ m = 4 ∨ m = 10) := by
    decide
  have steady : ∀ m < 11, 4 < m → (blockedState m).ready (.heap 2) = true := by
    decide
  have lap : blockedTrace.Lap 4 10 (.heap 0) := by
    refine ⟨by decide, ⟨by decide, .inl rfl, (selected 4 (by decide) le_rfl).mpr (.inl rfl)⟩,
      ⟨by decide, .inl rfl, (selected 10 (by decide) (by decide)).mpr (.inr rfl)⟩, ?_⟩
    rintro m low high ⟨within, _, same⟩
    have := (selected m within low.le).mp same
    omega
  obtain ⟨m, _, unique⟩ := once 11 blockedTrace 4 10 (.heap 0) lap (.heap 2)
    (show _ ∈ (blockedState 5).members by decide) (by decide)
    (fun m low high => steady m (by omega) low)
  have first : (5 : Nat) = m := unique 5 ⟨by decide, by decide, by decide, .inr rfl, rfl⟩
  have second : (7 : Nat) = m := unique 7 ⟨by decide, by decide, by decide, .inl rfl, rfl⟩
  omega

end TitorOS.Barrel.Scheduler
