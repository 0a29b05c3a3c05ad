import TitorOS.Lib.Run
import Mathlib.Tactic.Common
import Mathlib.Data.Nat.ModEq

/-! One queue pair of `drivers/nvme.c` against a controller that follows the NVMe
rules. Memory is physical, in dwords; the driver reaches it through the kernel's
page mapping and the controller directly. -/

namespace TitorOS.Barrel.Nvme

open TitorOS.Lib

abbrev Command := Fin 16 → UInt32

instance dwords_ne_zero : NeZero 16 := ⟨by decide⟩

/-- Where a queue pair lives: the heap pages of `sq_base` and `cq_base`, and the
frame `getpaddr` gives for each page. -/
structure Layout where
  sqPage : Nat
  cqPage : Nat
  frame : Nat → Nat
  distinct : frame sqPage ≠ frame cqPage

/-- `struct queue_pair`, less the two bases (in `Layout`) and `cq_tail`, which
nothing reads. -/
structure QueuePair where
  queueLength : UInt16
  sqTail : UInt16
  sqHead : UInt16
  cqHead : UInt16
  commandId : UInt16
  deriving DecidableEq, Repr

/-- The controller's side: `sqTail` and `cqHead` hold the last doorbell values. -/
structure Controller where
  size : Nat
  sqHead : Nat
  sqTail : Nat
  cqTail : Nat
  cqHead : Nat
  phase : Bool
  deriving DecidableEq, Repr

/-- `issued` and `posted` are ghosts: the commands in the order of `submit`, and
for each posted completion the command that the controller fetched for it. -/
structure State where
  mem : Nat → UInt32
  qp : QueuePair
  ctl : Controller
  waiting : Bool
  issued : List Command
  posted : List Command

/-- Physical dword behind the dword `offset` of a buffer that starts at `page`. -/
def Layout.physical (l : Layout) (page offset : Nat) : Nat :=
  l.frame (page + offset / 1024) * 1024 + offset % 1024

def Layout.driverSlot (l : Layout) (k : Nat) : Nat := l.physical l.sqPage (16 * k)

def Layout.fetchSlot (l : Layout) (k : Nat) : Nat := l.frame l.sqPage * 1024 + 16 * k

/-- Last dword (command id and status) of the completion entry the driver polls. -/
def Layout.pollDword (l : Layout) (k : Nat) : Nat := l.physical l.cqPage (4 * k + 3)

def Layout.postSlot (l : Layout) (k : Nat) : Nat := l.frame l.cqPage * 1024 + 4 * k

def writeCommand (mem : Nat → UInt32) (slot : Nat) (command : Command) : Nat → UInt32 := fun a =>
  if bound : slot ≤ a ∧ a < slot + 16 then command ⟨a - slot, by omega⟩ else mem a

def fetchCommand (mem : Nat → UInt32) (slot : Nat) : Command := fun i => mem (slot + i)

/-- Status above the command id, the phase in the status bit 0. -/
def completionDword (command : Command) (code : UInt16) (phase : Bool) : UInt32 :=
  UInt32.ofNat ((command 0).toNat / 65536 + 65536 * (2 * (code.toNat % 32768) + phase.toNat))

def writeCompletion (mem : Nat → UInt32) (slot : Nat) (result : UInt32) (sqHead : Nat)
    (status : UInt32) : Nat → UInt32 := fun a =>
  if a = slot then result
  else if a = slot + 1 then 0
  else if a = slot + 2 then UInt32.ofNat sqHead
  else if a = slot + 3 then status
  else mem a

def phaseBit (dword : UInt32) : Bool := dword.toNat / 65536 % 2 = 1

/-- `setup_queue`, the caller's fields, and `submit` up to its polling loop. -/
def issue (l : Layout) (s : State) (command : Command) : Option State :=
  if s.waiting then none
  else if (s.qp.sqTail.toNat : Int) - s.qp.sqHead.toNat = s.qp.queueLength.toNat then none
  else
    let qp := { s.qp with sqTail := s.qp.sqTail + 1, commandId := s.qp.commandId + 1 }
    some { s with
      mem := writeCommand s.mem (l.driverSlot s.qp.sqTail.toNat) command
      qp := qp
      ctl := { s.ctl with sqTail := (qp.sqTail % qp.queueLength).toNat }
      waiting := true
      issued := s.issued ++ [command] }

def polled (l : Layout) (s : State) : Bool :=
  phaseBit (s.mem (l.pollDword s.qp.cqHead.toNat))

def finish (l : Layout) (s : State) : Option State :=
  if s.waiting && polled l s then
    some { s with qp := { s.qp with cqHead := s.qp.cqHead + 1 }, waiting := false }
  else none

def Controller.full (c : Controller) : Bool := (c.cqTail + 1) % c.size = c.cqHead

def process (l : Layout) (s : State) (result : UInt32) (code : UInt16) : Option State :=
  if s.ctl.sqHead = s.ctl.sqTail ∨ s.ctl.full then none
  else
    let command := fetchCommand s.mem (l.fetchSlot s.ctl.sqHead)
    let sqHead := (s.ctl.sqHead + 1) % s.ctl.size
    let wraps := s.ctl.cqTail + 1 = s.ctl.size
    some { s with
      mem := writeCompletion s.mem (l.postSlot s.ctl.cqTail) result sqHead
        (completionDword command code s.ctl.phase)
      ctl := { s.ctl with
        sqHead := sqHead
        cqTail := (s.ctl.cqTail + 1) % s.ctl.size
        phase := if wraps then !s.ctl.phase else s.ctl.phase }
      posted := s.posted ++ [command] }

inductive Act where
  | issue (command : Command)
  | process (result : UInt32) (code : UInt16)
  | finish

def step (l : Layout) (s : State) : Act → Option State
  | .issue command => issue l s command
  | .process result code => process l s result code
  | .finish => finish l s

def QL : UInt16 := 0x80

/-- A pair as `init_admin` (or `create_iocq` and `create_iosq`) leaves it: the
controller reads the announced length as zero-based, and the first `QL`
completion entries have been cleared. -/
def initial (mem : Nat → UInt32) : State :=
  { mem := mem
    qp := ⟨QL, 0, 0, 0, 0⟩
    ctl := ⟨QL.toNat + 1, 0, 0, 0, 0, true⟩
    waiting := false
    issued := []
    posted := [] }

def Cleared (l : Layout) (mem : Nat → UInt32) : Prop :=
  ∀ a, a < 4 * QL.toNat → mem (l.frame l.cqPage * 1024 + a) = 0

def State.completed (s : State) (n : Nat) : Prop :=
  n < s.issued.length ∧ s.posted[n]? = s.issued[n]?

/-- While `submit` waits, its loop can end exactly when the completion of the
command it issued is there; and the controller has room for another entry. -/
def Protocol (l : Layout) (s : State) : Prop :=
  (s.waiting = true → (polled l s = true ↔ s.completed (s.issued.length - 1))) ∧
    s.ctl.full = false

/-- The slot of the next command is the memory the controller will fetch it from,
and no part of the completion queue. Every slot of the first page is. -/
def SlotMatches (l : Layout) (k : Nat) : Prop :=
  l.driverSlot k = l.fetchSlot k ∧
    l.frame (l.sqPage + 16 * k / 1024) ≠ l.frame l.cqPage

/-- A command is issued only while fewer than 127 have been, into a slot that
matches. -/
def WithinFirstLap (l : Layout) (s : State) : Act → Prop
  | .issue _ => s.issued.length < 127 ∧ SlotMatches l s.issued.length
  | _ => True

theorem slotMatches_firstPage (l : Layout) (k : Nat) (first : k < 64) : SlotMatches l k := by
  have page : 16 * k / 1024 = 0 := by omega
  refine ⟨?_, ?_⟩
  · simp only [Layout.driverSlot, Layout.fetchSlot, Layout.physical, page, Nat.add_zero]
    omega
  · simpa [page] using l.distinct

theorem pollDword_firstLap (l : Layout) (k : Nat) (bound : k < 256) :
    l.pollDword k = l.postSlot k + 3 := by
  have page : (4 * k + 3) / 1024 = 0 := by omega
  simp only [Layout.pollDword, Layout.physical, Layout.postSlot, page, Nat.add_zero]
  omega

theorem fetch_writeCommand (mem : Nat → UInt32) (slot : Nat) (command : Command) :
    fetchCommand (writeCommand mem slot command) slot = command := by
  funext i
  have bound : slot ≤ slot + i ∧ slot + i < slot + 16 := by omega
  simp [fetchCommand, writeCommand, bound]

theorem phaseBit_completionDword (command : Command) (code : UInt16) (phase : Bool) :
    phaseBit (completionDword command code phase) = phase := by
  have dword := (command 0).toNat_lt
  have phaseBound : phase.toNat ≤ 1 := phase.toNat_le
  have codeBound : code.toNat % 32768 < 32768 := Nat.mod_lt _ (by decide)
  have value : (completionDword command code phase).toNat =
      (command 0).toNat / 65536 + 65536 * (2 * (code.toNat % 32768) + phase.toNat) := by
    unfold completionDword
    exact UInt32.toNat_ofNat_of_lt' (by simp only [UInt32.size]; omega)
  have bit : (completionDword command code phase).toNat / 65536 % 2 = phase.toNat := by
    rw [value]
    omega
  cases phase <;> simp [phaseBit, bit]

theorem writeCommand_polled (l : Layout) (mem : Nat → UInt32) (command : Command) (k j : Nat)
    (matched : SlotMatches l k) (bound : j < 256) :
    writeCommand mem (l.driverSlot k) command (l.pollDword j) = mem (l.pollDword j) := by
  have outside : ¬ (l.driverSlot k ≤ l.pollDword j ∧ l.pollDword j < l.driverSlot k + 16) := by
    rw [pollDword_firstLap l j bound]
    have other := matched.2
    simp only [Layout.driverSlot, Layout.physical, Layout.postSlot]
    omega
  simp [writeCommand, outside]

theorem writeCompletion_polled (l : Layout) (mem : Nat → UInt32) (result status : UInt32)
    (sqHead k j : Nat) (bound : j < 256) :
    writeCompletion mem (l.postSlot k) result sqHead status (l.pollDword j) =
      if j = k then status else mem (l.pollDword j) := by
  rw [pollDword_firstLap l j bound]
  by_cases same : j = k
  · subst j
    simp [writeCompletion]
  · have apart : l.postSlot j + 3 ≠ l.postSlot k ∧ l.postSlot j + 3 ≠ l.postSlot k + 1 ∧
        l.postSlot j + 3 ≠ l.postSlot k + 2 ∧ l.postSlot j + 3 ≠ l.postSlot k + 3 := by
      simp only [Layout.postSlot]
      omega
    rw [writeCompletion, if_neg apart.1, if_neg apart.2.1, if_neg apart.2.2.1,
      if_neg apart.2.2.2, if_neg same]

structure FirstLap (l : Layout) (s : State) : Prop where
  count : s.issued.length ≤ 127
  length : s.qp.queueLength = QL
  sqHead : s.qp.sqHead = 0
  sqTail : s.qp.sqTail.toNat = s.issued.length
  cqHead : s.qp.cqHead.toNat + s.waiting.toNat = s.issued.length
  size : s.ctl.size = QL.toNat + 1
  ctlTail : s.ctl.sqTail = s.issued.length
  ctlHead : s.ctl.sqHead = s.posted.length
  ctlCqTail : s.ctl.cqTail = s.posted.length
  ctlCqHead : s.ctl.cqHead = 0
  phase : s.ctl.phase = true
  lag : s.posted.length ≤ s.issued.length ∧ s.issued.length ≤ s.posted.length + s.waiting.toNat
  fetched : s.posted = s.issued.take s.posted.length
  entries : ∀ j < 128, phaseBit (s.mem (l.pollDword j)) = decide (j < s.posted.length)
  pending : ∀ command, s.issued[s.posted.length]? = some command →
    fetchCommand s.mem (l.fetchSlot s.posted.length) = command

theorem initial_firstLap (l : Layout) (mem : Nat → UInt32) (cleared : Cleared l mem) :
    FirstLap l (initial mem) where
  count := by simp [initial]
  length := rfl
  sqHead := rfl
  sqTail := rfl
  cqHead := rfl
  size := rfl
  ctlTail := rfl
  ctlHead := rfl
  ctlCqTail := rfl
  ctlCqHead := rfl
  phase := rfl
  lag := by simp [initial]
  fetched := rfl
  entries := by
    intro j bound
    have zero : mem (l.pollDword j) = 0 := by
      rw [pollDword_firstLap l j (by omega), Layout.postSlot, Nat.add_assoc]
      exact cleared (4 * j + 3) (by simp only [QL]; simp; omega)
    simp [initial, zero, phaseBit]
  pending := by simp [initial]

theorem issue_firstLap (l : Layout) (s t : State) (command : Command) (inv : FirstLap l s)
    (few : s.issued.length < 127) (matched : SlotMatches l s.issued.length)
    (taken : issue l s command = some t) : FirstLap l t := by
  unfold issue at taken
  split at taken
  · cases taken
  rename_i idle
  have notWaiting : s.waiting = false := by simpa using idle
  split at taken
  · cases taken
  cases taken
  have level : s.posted.length = s.issued.length := by
    have lag := inv.lag
    simp only [notWaiting, Bool.toNat_false] at lag
    omega
  have tail : (s.qp.sqTail + 1).toNat = s.issued.length + 1 := by
    rw [UInt16.toNat_add, inv.sqTail, UInt16.toNat_one]
    omega
  have doorbell : ((s.qp.sqTail + 1) % s.qp.queueLength).toNat = s.issued.length + 1 := by
    rw [UInt16.toNat_mod, tail, inv.length]
    exact Nat.mod_eq_of_lt (by simp only [QL]; simp; omega)
  exact {
    count := by simp; omega
    length := inv.length
    sqHead := inv.sqHead
    sqTail := by simpa using tail
    cqHead := by
      have head := inv.cqHead
      simp only [notWaiting, Bool.toNat_false] at head
      simp [← head]
    size := inv.size
    ctlTail := by simpa using doorbell
    ctlHead := inv.ctlHead
    ctlCqTail := inv.ctlCqTail
    ctlCqHead := inv.ctlCqHead
    phase := inv.phase
    lag := by simp [level]
    fetched := by
      have fetched := inv.fetched
      simp only [level, List.take_length] at fetched
      simp [fetched]
    entries := by
      intro j bound
      simp only [inv.sqTail]
      rw [writeCommand_polled l s.mem command _ j matched (by omega)]
      exact inv.entries j bound
    pending := by
      intro next found
      have same : command = next := by simpa [level] using found
      simp only [inv.sqTail, level]
      rw [matched.1, fetch_writeCommand, same] }

theorem process_firstLap (l : Layout) (s t : State) (result : UInt32) (code : UInt16)
    (inv : FirstLap l s) (taken : process l s result code = some t) : FirstLap l t := by
  unfold process at taken
  split at taken
  · cases taken
  rename_i busy
  cases taken
  simp only [not_or, inv.ctlHead, inv.ctlTail] at busy
  have count := inv.count
  have lag := inv.lag
  have ahead : s.posted.length < s.issued.length := by omega
  have size : s.ctl.size = 129 := inv.size
  have next : (s.posted.length + 1) % 129 = s.posted.length + 1 := Nat.mod_eq_of_lt (by omega)
  have noWrap : s.posted.length + 1 ≠ 129 := by omega
  obtain ⟨command, found⟩ : ∃ command, s.issued[s.posted.length]? = some command :=
    ⟨s.issued[s.posted.length], List.getElem?_eq_getElem ahead⟩
  have fetched := inv.pending command found
  exact {
    count := count
    length := inv.length
    sqHead := inv.sqHead
    sqTail := inv.sqTail
    cqHead := inv.cqHead
    size := inv.size
    ctlTail := inv.ctlTail
    ctlHead := by simp [inv.ctlHead, size, next]
    ctlCqTail := by simp [inv.ctlCqTail, size, next]
    ctlCqHead := inv.ctlCqHead
    phase := by simp [inv.ctlCqTail, size, noWrap, inv.phase]
    lag := by simp; omega
    fetched := by
      simp only [inv.ctlHead, fetched, List.length_append, List.length_singleton]
      rw [List.take_add_one, ← inv.fetched, found, Option.toList_some]
    entries := by
      intro j bound
      simp only [inv.ctlCqTail, inv.phase, List.length_append, List.length_singleton]
      rw [writeCompletion_polled l s.mem _ _ _ _ j (by omega)]
      by_cases same : j = s.posted.length
      · simp [same, phaseBit_completionDword]
      · rw [if_neg same, inv.entries j bound]
        exact decide_eq_decide.mpr (by omega)
    pending := by
      intro later present
      have beyond : s.posted.length + 1 < s.issued.length :=
        (List.getElem?_eq_some_iff.mp (by simpa using present)).1
      have waits := s.waiting.toNat_le
      omega }

theorem finish_firstLap (l : Layout) (s t : State) (inv : FirstLap l s)
    (taken : finish l s = some t) : FirstLap l t := by
  unfold finish at taken
  split at taken
  · rename_i ready
    cases taken
    simp only [Bool.and_eq_true] at ready
    have head := inv.cqHead
    have lag := inv.lag
    have count := inv.count
    simp only [ready.1, Bool.toNat_true] at head lag
    have entry := inv.entries s.qp.cqHead.toNat (by omega)
    have seen : s.qp.cqHead.toNat < s.posted.length := by
      have bit : phaseBit (s.mem (l.pollDword s.qp.cqHead.toNat)) = true := ready.2
      simpa [bit] using entry
    have bump : (s.qp.cqHead + 1).toNat = s.qp.cqHead.toNat + 1 := by
      rw [UInt16.toNat_add, UInt16.toNat_one]
      omega
    exact { inv with
      cqHead := by simp [bump, head]
      lag := by simp; omega }
  · cases taken

theorem step_firstLap (l : Layout) (s : State) (a : Act) (t : State) (inv : FirstLap l s)
    (few : WithinFirstLap l s a) (taken : step l s a = some t) : FirstLap l t := by
  cases a with
  | issue command => exact issue_firstLap l s t command inv few.1 few.2 taken
  | process result code => exact process_firstLap l s t result code inv taken
  | finish => exact finish_firstLap l s t inv taken

theorem firstLap_protocol (l : Layout) (s : State) (inv : FirstLap l s) : Protocol l s := by
  have lag := inv.lag
  have count := inv.count
  refine ⟨?_, ?_⟩
  · intro waits
    have head := inv.cqHead
    simp only [waits, Bool.toNat_true] at head lag
    have last : s.issued.length - 1 = s.qp.cqHead.toNat := by omega
    have seen : polled l s = decide (s.qp.cqHead.toNat < s.posted.length) :=
      inv.entries _ (by omega)
    rw [seen, decide_eq_true_iff, State.completed, last]
    constructor
    · intro posted
      refine ⟨by omega, ?_⟩
      rw [inv.fetched, List.getElem?_take_of_lt posted]
    · rintro ⟨issued, same⟩
      rw [List.getElem?_eq_getElem issued] at same
      exact (List.getElem?_eq_some_iff.mp same).1
  · have small : (s.posted.length + 1) % 129 = s.posted.length + 1 := Nat.mod_eq_of_lt (by omega)
    have size : s.ctl.size = 129 := inv.size
    simp [Controller.full, inv.ctlCqTail, inv.ctlCqHead, size, small]

/-- In every interleaving of driver and controller in which a command is issued
only within the first lap, the completion protocol holds in every state. -/
theorem firstLap_run_protocol (l : Layout) (mem : Nat → UInt32) (s : State)
    (cleared : Cleared l mem) (run : Run (step l) (WithinFirstLap l) (initial mem) s) :
    Protocol l s :=
  firstLap_protocol l s
    (run.invariant (FirstLap l) (initial_firstLap l mem cleared) (step_firstLap l))

def plain : Layout := ⟨0, 2, id, by decide⟩

theorem plain_matches (k : Nat) (bound : k < 128) : SlotMatches plain k := by
  simp only [SlotMatches, plain, Layout.driverSlot, Layout.fetchSlot, Layout.physical, id]
  omega

theorem one_command_protocol :
    ∃ s, Run (step plain) (WithinFirstLap plain) (initial fun _ => 0) s ∧ s.waiting = true ∧
      Protocol plain s := by
  have first : WithinFirstLap plain (initial fun _ => 0) (.issue fun _ => 7) :=
    ⟨by decide, slotMatches_firstPage plain 0 (by decide)⟩
  have run : Run (step plain) (WithinFirstLap plain) (initial fun _ => 0) _ :=
    Run.refl.next (.issue fun _ => 7) first rfl
  exact ⟨_, run, rfl, firstLap_run_protocol plain (fun _ => 0) _ (fun _ _ => rfl) run⟩

theorem firstLap_round (s : State) (command : Command) (inv : FirstLap plain s)
    (idle : s.waiting = false) (few : s.issued.length < 127) :
    ∃ t, Run (step plain) anyStep s t ∧ FirstLap plain t ∧ t.waiting = false ∧
      t.issued.length = s.issued.length + 1 := by
  have notFull : ¬ (s.qp.sqTail.toNat : Int) - s.qp.sqHead.toNat = s.qp.queueLength.toNat := by
    rw [inv.sqTail, inv.sqHead, inv.length]
    simp only [QL, UInt16.toNat_zero, UInt16.reduceToNat]
    omega
  obtain ⟨t, issued⟩ : ∃ t, issue plain s command = some t := by simp [issue, idle, notFull]
  have invT := issue_firstLap plain s t command inv few (plain_matches _ (by omega)) issued
  have shape : t.waiting = true ∧ t.issued = s.issued ++ [command] ∧ t.posted = s.posted := by
    simp only [issue, idle, notFull, Bool.false_eq_true, if_false, Option.some.injEq] at issued
    subst t
    exact ⟨rfl, rfl, rfl⟩
  have level : s.posted.length = s.issued.length := by
    have lag := inv.lag
    simp only [idle, Bool.toNat_false] at lag
    omega
  have work : ¬ (t.ctl.sqHead = t.ctl.sqTail ∨ t.ctl.full = true) := by
    have room := (firstLap_protocol plain t invT).2
    simp [room, invT.ctlHead, invT.ctlTail, shape.2.1, shape.2.2, level]
  obtain ⟨u, processed⟩ : ∃ u, process plain t 0 0 = some u := by simp [process, work]
  have invU := process_firstLap plain t u 0 0 invT processed
  have same : u.waiting = t.waiting ∧ u.issued = t.issued ∧ u.qp = t.qp ∧
      u.posted.length = t.posted.length + 1 := by
    simp only [process, work, if_false, Option.some.injEq] at processed
    subst u
    simp
  have seen : polled plain u = true := by
    have head := invU.cqHead
    simp only [same.1, shape.1, same.2.1, shape.2.1, Bool.toNat_true, List.length_append,
      List.length_singleton] at head
    have entry : polled plain u = decide (u.qp.cqHead.toNat < u.posted.length) :=
      invU.entries _ (by omega)
    rw [entry, same.2.2.2, shape.2.2]
    exact decide_eq_true (by omega)
  obtain ⟨v, finished⟩ : ∃ v, finish plain u = some v := by
    simp [finish, seen, same.1, shape.1]
  have invV := finish_firstLap plain u v invU finished
  have after : v.waiting = false ∧ v.issued = u.issued := by
    simp only [finish, seen, same.1, shape.1, Bool.and_self, if_true, Option.some.injEq] at finished
    subst v
    exact ⟨rfl, rfl⟩
  refine ⟨v, ?_, invV, after.1, by simp [after.2, same.2.1, shape.2.1]⟩
  have first : step plain s (.issue command) = some t := issued
  have second : step plain t (.process 0 0) = some u := processed
  have third : step plain u .finish = some v := finished
  exact ((Run.refl.tail trivial first).tail trivial second).tail trivial third

theorem firstLap_reachable (n : Nat) (few : n ≤ 127) :
    ∃ s, Run (step plain) anyStep (initial fun _ => 0) s ∧ FirstLap plain s ∧
      s.waiting = false ∧ s.issued.length = n := by
  induction n with
  | zero =>
      exact ⟨_, .refl, initial_firstLap plain _ (fun _ _ => rfl), rfl, rfl⟩
  | succ n ih =>
      obtain ⟨s, run, inv, idle, count⟩ := ih (by omega)
      obtain ⟨t, more, invT, idleT, countT⟩ :=
        firstLap_round s (fun _ => 0) inv idle (by omega)
      exact ⟨t, run.trans more, invT, idleT, by omega⟩

/-- After 128 commands the controller's 129 entries are full: no head doorbell was
ever written. -/
theorem completion_queue_fills :
    ¬ ∀ (l : Layout) (mem : Nat → UInt32) (s : State), Cleared l mem →
      Run (step l) anyStep (initial mem) s → Protocol l s := by
  intro claim
  obtain ⟨s, run, inv, idle, count⟩ := firstLap_reachable 127 (by decide)
  have level : s.posted.length = 127 := by
    have lag := inv.lag
    simp only [idle, Bool.toNat_false] at lag
    omega
  have size : s.ctl.size = 129 := inv.size
  have tail : s.qp.sqTail = 127 := UInt16.toNat_inj.mp (by simpa [count] using inv.sqTail)
  have notFull : ¬ (s.qp.sqTail.toNat : Int) - s.qp.sqHead.toNat = s.qp.queueLength.toNat := by
    rw [tail, inv.sqHead, inv.length]
    decide
  have doorbell : ((s.qp.sqTail + 1) % s.qp.queueLength).toNat = 0 := by
    rw [tail, inv.length]
    decide
  obtain ⟨t, issued⟩ : ∃ t, step plain s (.issue fun _ => 0) = some t := by
    simp [step, issue, idle, notFull]
  have shape : t.ctl.sqHead = 127 ∧ t.ctl.sqTail = 0 ∧ t.ctl.cqTail = 127 ∧ t.ctl.cqHead = 0 ∧
      t.ctl.size = 129 := by
    simp only [step, issue, idle, notFull, Bool.false_eq_true, if_false, Option.some.injEq]
      at issued
    subst t
    exact ⟨by simp [inv.ctlHead, level], doorbell, by simp [inv.ctlCqTail, level],
      inv.ctlCqHead, size⟩
  have work : ¬ (t.ctl.sqHead = t.ctl.sqTail ∨ t.ctl.full = true) := by
    simp [Controller.full, shape]
  obtain ⟨u, processed⟩ : ∃ u, step plain t (.process 0 0) = some u := by
    simp [step, process, work]
  have full : u.ctl.full = true := by
    simp only [step, process, work, if_false, Option.some.injEq] at processed
    subst u
    simp [Controller.full, shape]
  have protocol := claim plain (fun _ => 0) u (fun _ _ => rfl)
    ((run.tail trivial issued).tail trivial processed)
  exact absurd protocol.2 (by simp [full])

/-! The submission ring: where the next command is built and where the controller
looks for it. -/

def QueuePair.full (qp : QueuePair) : Prop :=
  (qp.sqTail.toNat : Int) - qp.sqHead.toNat = qp.queueLength.toNat

/-- Entry `k` is one of those between the controller's head and the last doorbell. -/
def Controller.unconsumed (c : Controller) (k : Nat) : Prop :=
  k < c.size ∧ (k + c.size - c.sqHead) % c.size < (c.sqTail + c.size - c.sqHead) % c.size

/-- The next call of `setup_queue` clears a slot of the page at `sq_base`, it is the
entry the controller fetches for the doorbell that follows, and the queue is reported
full exactly when an entry in that slot has not been consumed. -/
structure RingSlot (l : Layout) (s : State) : Prop where
  inside : 64 * s.qp.sqTail.toNat + 64 ≤ 4096
  fetched : l.driverSlot s.qp.sqTail.toNat = l.fetchSlot (s.ctl.sqTail % s.ctl.size)
  full : s.qp.full ↔
    ∃ k, s.ctl.unconsumed k ∧ l.fetchSlot k = l.driverSlot s.qp.sqTail.toNat

/-- What holds of a pair however often it was used: `sq_head` is never advanced, so
`sq_tail` counts all commands and stops at the queue length. -/
structure Counted (l : Layout) (s : State) : Prop where
  length : s.qp.queueLength = QL
  sqHead : s.qp.sqHead = 0
  sqTail : s.qp.sqTail.toNat = s.issued.length
  count : s.issued.length ≤ 128
  early : s.issued.length ≤ 64 → FirstLap l s

theorem initial_counted (l : Layout) (mem : Nat → UInt32) (cleared : Cleared l mem) :
    Counted l (initial mem) where
  length := rfl
  sqHead := rfl
  sqTail := rfl
  count := by simp [initial]
  early := fun _ => initial_firstLap l mem cleared

theorem issue_counted (l : Layout) (s t : State) (command : Command) (inv : Counted l s)
    (taken : issue l s command = some t) : Counted l t := by
  have firstLap (few : s.issued.length < 64) : FirstLap l t :=
    issue_firstLap l s t command (inv.early (by omega)) (by omega)
      (slotMatches_firstPage l _ few) taken
  unfold issue at taken
  split at taken
  · cases taken
  split at taken
  · cases taken
  rename_i room
  cases taken
  rw [inv.sqTail, inv.sqHead, inv.length] at room
  have count := inv.count
  have few : s.issued.length < 128 := by
    simp only [QL, UInt16.toNat_zero, UInt16.reduceToNat] at room
    omega
  exact {
    length := inv.length
    sqHead := inv.sqHead
    sqTail := by
      simp only [UInt16.toNat_add, inv.sqTail, UInt16.toNat_one, List.length_append,
        List.length_singleton]
      omega
    count := by simp; omega
    early := by
      intro still
      simp only [List.length_append, List.length_singleton] at still
      exact firstLap (by omega) }

theorem step_counted (l : Layout) (s : State) (a : Act) (t : State) (inv : Counted l s)
    (_ : anyStep s a) (taken : step l s a = some t) : Counted l t := by
  cases a with
  | issue command => exact issue_counted l s t command inv taken
  | process result code =>
      have early (few : s.issued.length ≤ 64) :=
        process_firstLap l s t result code (inv.early few) taken
      simp only [step, process] at taken
      split at taken
      · cases taken
      · cases taken
        exact ⟨inv.length, inv.sqHead, inv.sqTail, inv.count, early⟩
  | finish =>
      have early (few : s.issued.length ≤ 64) := finish_firstLap l s t (inv.early few) taken
      simp only [step, finish] at taken
      split at taken
      · cases taken
        exact ⟨inv.length, inv.sqHead, inv.sqTail, inv.count, early⟩
      · cases taken

theorem firstPage_ringSlot (l : Layout) (s : State) (inv : FirstLap l s)
    (idle : s.waiting = false) (few : s.issued.length < 64) : RingSlot l s := by
  have level : s.posted.length = s.issued.length := by
    have lag := inv.lag
    simp only [idle, Bool.toNat_false] at lag
    omega
  have size : s.ctl.size = 129 := inv.size
  refine ⟨?_, ?_, ?_⟩
  · rw [inv.sqTail]
    omega
  · rw [inv.sqTail, inv.ctlTail, size, Nat.mod_eq_of_lt (by omega)]
    exact (slotMatches_firstPage l _ few).1
  · constructor
    · intro full
      rw [QueuePair.full, inv.sqTail, inv.sqHead, inv.length] at full
      simp only [QL, UInt16.toNat_zero, UInt16.reduceToNat] at full
      omega
    · -- the controller has caught up with the doorbell
      rintro ⟨k, ⟨_, pending⟩, _⟩
      rw [inv.ctlTail, inv.ctlHead, size, level] at pending
      omega

/-- Whenever the next command can be set up, its slot is right exactly when fewer than
64 commands, what one page holds, were submitted before. -/
theorem ringSlot_iff_firstPage (l : Layout) (mem : Nat → UInt32) (s : State)
    (cleared : Cleared l mem) (run : Run (step l) anyStep (initial mem) s)
    (idle : s.waiting = false) : RingSlot l s ↔ s.issued.length < 64 := by
  have inv := run.invariant (Counted l) (initial_counted l mem cleared) (step_counted l)
  constructor
  · intro ring
    have inside := ring.inside
    rw [inv.sqTail] at inside
    omega
  · intro few
    exact firstPage_ringSlot l s (inv.early (by omega)) idle few

theorem first_ringSlot : RingSlot plain (initial fun _ => 0) :=
  (ringSlot_iff_firstPage plain (fun _ => 0) _ (fun _ _ => rfl) .refl rfl).mpr (by decide)

theorem ring_leaves_page :
    ¬ ∀ (l : Layout) (mem : Nat → UInt32) (s : State), Cleared l mem →
      Run (step l) anyStep (initial mem) s → s.waiting = false → RingSlot l s := by
  intro claim
  obtain ⟨s, run, inv, idle, count⟩ := firstLap_reachable 64 (by decide)
  have inside := (claim plain _ s (fun _ _ => rfl) run idle).inside
  rw [inv.sqTail, count] at inside
  omega

end TitorOS.Barrel.Nvme
