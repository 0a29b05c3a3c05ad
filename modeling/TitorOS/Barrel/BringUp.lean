import TitorOS.Barrel.Nvme
import Mathlib.Data.List.Basic

/-! How `drivers/nvme.c` brings the controller up: `init_admin`, `init_ioq`, `create_iocq(1)` and
`create_iosq(1)`, one after another as `dev_enum` calls them. The controller follows the NVMe
rules for its reset, its admin queue and the creation of queues, and takes its steps at any time. -/

namespace TitorOS.Barrel.Nvme.BringUp

open TitorOS.Lib

/-- The heap pages of the four queues and the frames behind all pages. -/
structure Pages where
  frame : Nat → Nat
  sq0 : Nat
  cq0 : Nat
  sq1 : Nat
  cq1 : Nat
  distinct : ([sq0, cq0, sq1, cq1].map frame).Nodup
  bound : ∀ page, frame page < 2 ^ 20

def Pages.admin (p : Pages) : Layout :=
  ⟨p.sq0, p.cq0, p.frame, by have apart := p.distinct; simp at apart; tauto⟩

def Pages.io (p : Pages) : Layout :=
  ⟨p.sq1, p.cq1, p.frame, by have apart := p.distinct; simp at apart; tauto⟩

def Pages.getpaddr (p : Pages) (page : Nat) : UInt32 := UInt32.ofNat (4096 * p.frame page)

/-- The registers of `struct config` that are used. -/
structure Config where
  cc : UInt32
  csts : UInt32
  aqa : UInt32
  asq1 : UInt32
  asq2 : UInt32
  acq1 : UInt32
  acq2 : UInt32

/-! The controller. -/

/-- A queue in memory: its first dword, the dwords of an entry, the number of entries. -/
structure Ring where
  base : Nat
  entry : Nat
  size : Nat
  deriving DecidableEq

/-- A queue pair as the controller serves it. `posted` is a ghost: the commands it executed,
and whether with success. -/
structure Served where
  sq : Ring
  cq : Ring
  sqHead : Nat
  sqTail : Nat
  cqTail : Nat
  cqHead : Nat
  phase : Bool
  posted : List (Command × Bool)

def serve (sq cq : Ring) : Served := ⟨sq, cq, 0, 0, 0, 0, true, []⟩

def Served.ctl (a : Served) : Controller :=
  ⟨a.sq.size, a.sqHead, a.sqTail, a.cqTail, a.cqHead, a.phase⟩

/-- The I/O queues by number; a submission queue with the number of its completion queue. -/
structure Rings where
  sq : Nat → Option (Ring × Nat)
  cq : Nat → Option Ring

def noRings : Rings := ⟨fun _ => none, fun _ => none⟩

/-- The admin queues that the registers announce. -/
def Config.admin (c : Config) : Served :=
  serve ⟨(c.asq1.toNat + 2 ^ 32 * c.asq2.toNat) / 4096 * 1024, 16, c.aqa.toNat % 4096 + 1⟩
    ⟨(c.acq1.toNat + 2 ^ 32 * c.acq2.toNat) / 4096 * 1024, 4, c.aqa.toNat / 2 ^ 16 % 4096 + 1⟩

/-- The queue of a creation command: PRP1 is its first byte, and bits 31:16 of dword 10 count
its entries from zero. `exponent` is the size of an entry that `cc` announces. -/
def ringOf (c : Command) (exponent : Nat) : Ring :=
  ⟨((c 6).toNat + 2 ^ 32 * (c 7).toNat) / 4096 * 1024, 2 ^ exponent / 4,
    (c 10).toNat / 2 ^ 16 + 1⟩

/-- What a successful command does to the I/O queues; `none` where it cannot succeed. -/
def execute (config : Config) (c : Command) (rings : Rings) : Option Rings :=
  let number := (c 10).toNat % 2 ^ 16
  let contiguous := (c 11).toNat % 2 = 1
  if (c 0).toNat % 256 = 0x5 then
    if number ≠ 0 ∧ contiguous ∧ rings.cq number = none then
      some { rings with
        cq := Function.update rings.cq number (some (ringOf c (config.cc.toNat / 2 ^ 20 % 16))) }
    else none
  else if (c 0).toNat % 256 = 0x1 then
    let completion := (c 11).toNat / 2 ^ 16
    if number ≠ 0 ∧ contiguous ∧ rings.sq number = none ∧ rings.cq completion ≠ none then
      some { rings with
        sq := Function.update rings.sq number
          (some (ringOf c (config.cc.toNat / 2 ^ 16 % 16), completion)) }
    else none
  else some rings

/-! The driver. -/

/-- The calls after `init_admin`, each of which submits one command. -/
inductive Call where
  | initIoq
  | createIocq
  | createIosq
  deriving DecidableEq

/-- Where the driver is: in one of the three loops on `csts`, before a command is set up or in the
loop of `submit`. -/
inductive Pc where
  | ready
  | disabled
  | enabled
  | ask (call : Call)
  | await (call : Call)
  | done
  deriving DecidableEq

structure State where
  pc : Pc
  mem : Nat → UInt32
  qid0 : QueuePair
  qid1 : QueuePair
  issued : List Command
  config : Config
  admin : Option Served
  rings : Rings

def memSet (mem : Nat → UInt32) (start count : Nat) : Nat → UInt32 := fun a =>
  if start ≤ a ∧ a < start + count then 0 else mem a

def initIoqCommand (commandId : UInt16) : Command := fun i =>
  match i.val with
  | 0 => commandId.toUInt32 <<< 16 ||| 0x9
  | 10 => 0x7
  | 11 => 0x00010001
  | _ => 0

def createIocqCommand (commandId : UInt16) (cqBase : UInt32) (queueLength : UInt16) : Command :=
  fun i =>
    match i.val with
    | 0 => commandId.toUInt32 <<< 16 ||| 0x5
    | 6 => cqBase
    | 10 => queueLength.toUInt32 <<< 16 ||| 1
    | 11 => 0x1
    | _ => 0

def createIosqCommand (commandId : UInt16) (sqBase : UInt32) (queueLength : UInt16) : Command :=
  fun i =>
    match i.val with
    | 0 => commandId.toUInt32 <<< 16 ||| 0x1
    | 6 => sqBase
    | 10 => queueLength.toUInt32 <<< 16 ||| 1
    | 11 => (1 : UInt32) <<< 16 ||| 0x1
    | _ => 0

def prepared (qp : QueuePair) : Call → QueuePair
  | .initIoq => qp
  | .createIocq => { qp with queueLength := QL, cqHead := 0 }
  | .createIosq => { qp with sqHead := 0, sqTail := 0, commandId := 0 }

def commandOf (p : Pages) (commandId queueLength : UInt16) : Call → Command
  | .initIoq => initIoqCommand commandId
  | .createIocq => createIocqCommand commandId (p.getpaddr p.cq1) queueLength
  | .createIosq => createIosqCommand commandId (p.getpaddr p.sq1) queueLength

/-- `setup_queue(0)`, the fields of the command, and `submit(0)` up to its loop. -/
def ask (p : Pages) (s : State) (call : Call) : Option State :=
  if (s.qid0.sqTail.toNat : Int) - s.qid0.sqHead.toNat = s.qid0.queueLength.toNat then none
  else
    let qid1 := prepared s.qid1 call
    let command := commandOf p s.qid0.commandId qid1.queueLength call
    let qid0 := { s.qid0 with sqTail := s.qid0.sqTail + 1, commandId := s.qid0.commandId + 1 }
    some { s with
      pc := .await call
      mem := writeCommand s.mem (p.admin.driverSlot s.qid0.sqTail.toNat) command
      qid0 := qid0
      qid1 := qid1
      issued := s.issued ++ [command]
      admin := s.admin.map fun a => { a with sqTail := (qid0.sqTail % qid0.queueLength).toNat } }

/-- The end of the loop of `submit(0)`, and what the call does after it. -/
def answered (p : Pages) (s : State) (call : Call) : Option State :=
  if phaseBit (s.mem (p.admin.pollDword s.qid0.cqHead.toNat)) then
    let s := { s with qid0 := { s.qid0 with cqHead := s.qid0.cqHead + 1 } }
    match call with
    | .initIoq => some { s with pc := .ask .createIocq }
    | .createIocq =>
        some { s with pc := .ask .createIosq, mem := memSet s.mem (p.io.postSlot 0) (4 * QL.toNat) }
    | .createIosq => some { s with pc := .done }
  else none

/-- One step of the driver; `none` while a loop goes round. -/
def drive (p : Pages) (s : State) : Option State :=
  match s.pc with
  | .ready =>
      if s.config.csts = 1 then
        some { s with pc := .disabled, config := { s.config with cc := 0 } }
      else none
  | .disabled =>
      if s.config.csts = 0 then
        some { s with
          pc := .enabled
          config := { s.config with
            aqa := s.qid0.queueLength.toUInt32 <<< 16 ||| s.qid0.queueLength.toUInt32
            asq1 := p.getpaddr p.sq0
            asq2 := 0
            acq1 := p.getpaddr p.cq0
            acq2 := 0
            cc := 0x00460001 } }
      else none
  | .enabled =>
      if s.config.csts = 1 then
        some { s with
          pc := .ask .initIoq
          mem := memSet s.mem (p.admin.postSlot 0) (4 * s.qid0.queueLength.toNat) }
      else none
  | .ask call => ask p s call
  | .await call => answered p s call
  | .done => none

/-- `csts` follows bit 0 of `cc`. A controller that is switched off forgets its queues. -/
def settle (s : State) : Option State :=
  if s.config.cc.toNat % 2 = 1 ∧ s.config.csts = 0 then
    some { s with config := { s.config with csts := 1 }, admin := some s.config.admin }
  else if s.config.cc.toNat % 2 = 0 ∧ s.config.csts = 1 then
    some { s with config := { s.config with csts := 0 }, admin := none, rings := noRings }
  else none

/-- The completion of `command`, and the heads and tails behind it. -/
def Served.posting (a : Served) (command : Command) (granted : Bool) : Served :=
  { a with
    sqHead := (a.sqHead + 1) % a.sq.size
    cqTail := (a.cqTail + 1) % a.cq.size
    phase := if a.cqTail + 1 = a.cq.size then !a.phase else a.phase
    posted := a.posted ++ [(command, granted)] }

/-- The controller executes the next admin command with the status `code`. -/
def process (s : State) (result : UInt32) (code : UInt16) : Option State :=
  s.admin.bind fun a =>
    if a.sqHead = a.sqTail ∨ (a.cqTail + 1) % a.cq.size = a.cqHead then none
    else
      let command := fetchCommand s.mem (a.sq.base + a.sq.entry * a.sqHead)
      let granted := decide (code.toNat % 32768 = 0)
      (if granted then execute s.config command s.rings else some s.rings).map fun rings =>
        { s with
          mem := writeCompletion s.mem (a.cq.base + a.cq.entry * a.cqTail) result
            ((a.sqHead + 1) % a.sq.size) (completionDword command code a.phase)
          rings := rings
          admin := some (a.posting command granted) }

inductive Act where
  | drive
  | settle
  | process (result : UInt32) (code : UInt16)

def step (p : Pages) (s : State) : Act → Option State
  | .drive => drive p s
  | .settle => settle s
  | .process result code => process s result code

/-- `init_admin` before its first loop: what memory, the registers and the controller hold is
what the firmware left there. -/
def start (mem : Nat → UInt32) (qid1 : QueuePair) (config : Config) (admin : Option Served)
    (rings : Rings) : State :=
  ⟨.ready, mem, ⟨QL, 0, 0, 0, 0⟩, qid1, [], config, admin, rings⟩

/-! The controller's admin queue is the one of the protocol for a single pair. -/

def Pc.waits : Pc → Bool
  | .await _ => true
  | _ => false

def State.view (s : State) (a : Served) : Nvme.State :=
  ⟨s.mem, s.qid0, a.ctl, s.pc.waits, s.issued, a.posted.map Prod.fst⟩

def Pages.adminQueues (p : Pages) : Served :=
  serve ⟨p.admin.fetchSlot 0, 16, 129⟩ ⟨p.admin.postSlot 0, 4, 129⟩

/-- The I/O queues after the commands executed so far. -/
def replay (config : Config) (posted : List (Command × Bool)) : Option Rings :=
  posted.foldlM (fun rings entry => if entry.2 then execute config entry.1 rings else some rings)
    noRings

def commands (p : Pages) : List Command :=
  [initIoqCommand 0, createIocqCommand 1 (p.getpaddr p.cq1) QL,
    createIosqCommand 2 (p.getpaddr p.sq1) QL]

def Call.index : Call → Nat
  | .initIoq => 0
  | .createIocq => 1
  | .createIosq => 2

/-- Behind the `mem_set` of `create_iocq`. -/
def Pc.late : Pc → Prop
  | .ask .createIosq | .await .createIosq | .done => True
  | _ => False

structure Programmed (p : Pages) (c : Config) : Prop where
  cc : c.cc = 0x00460001
  aqa : c.aqa = 0x00800080
  asq : c.asq1 = p.getpaddr p.sq0 ∧ c.asq2 = 0
  acq : c.acq1 = p.getpaddr p.cq0 ∧ c.acq2 = 0

structure Kept (p : Pages) (s : State) (a : Served) : Prop where
  sq : a.sq = ⟨p.admin.fetchSlot 0, 16, 129⟩
  cq : a.cq = ⟨p.admin.postSlot 0, 4, 129⟩
  lap : FirstLap p.admin (s.view a)
  replayed : replay s.config a.posted = some s.rings

/-- The admin queue is in use and `sent` commands have been submitted to it. -/
structure Serving (p : Pages) (s : State) (sent : Nat) : Prop where
  programmed : Programmed p s.config
  ready : s.config.csts = 1
  issued : s.issued = (commands p).take sent
  commandId : s.qid0.commandId = UInt16.ofNat sent
  created : 2 ≤ sent → s.qid1.queueLength = QL ∧ s.qid1.cqHead = 0
  pair : 3 ≤ sent → s.qid1 = ⟨QL, 0, 0, 0, 0⟩
  cleared : s.pc.late → Cleared p.io s.mem
  served : ∃ a, s.admin = some a ∧ Kept p s a

structure Unused (s : State) : Prop where
  pair : s.qid0 = ⟨QL, 0, 0, 0, 0⟩
  issued : s.issued = []

def Inv (p : Pages) (s : State) : Prop :=
  match s.pc with
  | .ready => Unused s
  | .disabled => Unused s ∧ s.config.cc = 0 ∧
      (s.config.csts = 1 ∨ s.config.csts = 0 ∧ s.admin = none ∧ s.rings = noRings)
  | .enabled => Unused s ∧ Programmed p s.config ∧ s.rings = noRings ∧
      (s.config.csts = 0 ∧ s.admin = none ∨ s.config.csts = 1 ∧ s.admin = some p.adminQueues)
  | .ask call => Serving p s call.index
  | .await call => Serving p s (call.index + 1)
  | .done => Serving p s 3

section Memory

variable (p : Pages)

theorem Pages.apart : p.frame p.sq0 ≠ p.frame p.cq0 ∧ p.frame p.sq0 ≠ p.frame p.cq1 ∧
    p.frame p.cq0 ≠ p.frame p.cq1 := by
  have apart := p.distinct
  simp only [List.map_cons, List.map_nil, List.nodup_cons, List.mem_cons, not_or] at apart
  exact ⟨apart.1.1, apart.1.2.2.1, apart.2.1.2.1⟩

theorem Pages.getpaddr_toNat (page : Nat) : (p.getpaddr page).toNat = 4096 * p.frame page := by
  have bound := p.bound page
  exact UInt32.toNat_ofNat_of_lt' (by simp only [UInt32.size]; omega)

theorem Programmed.admin {p : Pages} {c : Config} (programmed : Programmed p c) :
    c.admin = p.adminQueues := by
  have sq : 4096 * p.frame p.sq0 / 4096 = p.frame p.sq0 := by omega
  have cq : 4096 * p.frame p.cq0 / 4096 = p.frame p.cq0 := by omega
  simp [Config.admin, programmed.aqa, programmed.asq, programmed.acq, p.getpaddr_toNat, sq, cq,
    Pages.adminQueues, Layout.fetchSlot, Layout.postSlot, Pages.admin]

theorem writeCommand_cleared {mem : Nat → UInt32} {command : Command} {k : Nat} (first : k < 64)
    (cleared : Cleared p.io mem) :
    Cleared p.io (writeCommand mem (p.admin.driverSlot k) command) := by
  intro a inside
  have slot := (slotMatches_firstPage p.admin k first).1
  have other : p.frame p.sq0 ≠ p.frame p.cq1 := p.apart.2.1
  have bound : a < 512 := inside
  have outside : ¬ (p.admin.driverSlot k ≤ p.io.frame p.io.cqPage * 1024 + a ∧
      p.io.frame p.io.cqPage * 1024 + a < p.admin.driverSlot k + 16) := by
    rw [slot]
    simp only [Layout.fetchSlot, Pages.admin, Pages.io]
    omega
  rw [writeCommand, dif_neg outside]
  exact cleared a inside

theorem writeCompletion_cleared {mem : Nat → UInt32} {result status : UInt32} {sqHead k : Nat}
    (first : k < 256) (cleared : Cleared p.io mem) :
    Cleared p.io (writeCompletion mem (p.admin.postSlot k) result sqHead status) := by
  intro a inside
  have other : p.frame p.cq0 ≠ p.frame p.cq1 := p.apart.2.2
  have bound : a < 512 := inside
  have outside (i : Nat) (small : i < 4) :
      p.io.frame p.io.cqPage * 1024 + a ≠ p.admin.postSlot k + i := by
    simp only [Layout.postSlot, Pages.admin, Pages.io]
    omega
  have zeroth := outside 0 (by decide)
  rw [Nat.add_zero] at zeroth
  rw [writeCompletion, if_neg zeroth, if_neg (outside 1 (by decide)), if_neg (outside 2 (by decide)),
    if_neg (outside 3 (by decide))]
  exact cleared a inside

theorem memSet_cleared (l : Layout) (mem : Nat → UInt32) :
    Cleared l (memSet mem (l.postSlot 0) (4 * QL.toNat)) := by
  intro a inside
  have within : l.postSlot 0 ≤ l.frame l.cqPage * 1024 + a ∧
      l.frame l.cqPage * 1024 + a < l.postSlot 0 + 4 * QL.toNat := by
    simp only [Layout.postSlot]
    omega
  rw [memSet, if_pos within]

theorem memSet_polled (mem : Nat → UInt32) {j : Nat} (bound : j < 128) :
    memSet mem (p.io.postSlot 0) (4 * QL.toNat) (p.admin.pollDword j) =
      mem (p.admin.pollDword j) := by
  have other : p.frame p.cq0 ≠ p.frame p.cq1 := p.apart.2.2
  have length : QL.toNat = 128 := rfl
  have outside : ¬ (p.io.postSlot 0 ≤ p.admin.pollDword j ∧
      p.admin.pollDword j < p.io.postSlot 0 + 4 * QL.toNat) := by
    rw [pollDword_firstLap p.admin j (by omega), length]
    simp only [Layout.postSlot, Pages.admin, Pages.io]
    omega
  rw [memSet, if_neg outside]

end Memory

/-! What each step does to the invariant. -/

section Steps

variable {p : Pages} {s t : State} {a : Served}

theorem Kept.fetchSlot (kept : Kept p s a) (k : Nat) :
    a.sq.base + a.sq.entry * k = p.admin.fetchSlot k := by
  simp only [kept.sq, Layout.fetchSlot]
  omega

theorem Kept.postSlot (kept : Kept p s a) (k : Nat) :
    a.cq.base + a.cq.entry * k = p.admin.postSlot k := by
  simp only [kept.cq, Layout.postSlot]
  omega

theorem replay_append (config : Config) (posted : List (Command × Bool)) (entry : Command × Bool) :
    replay config (posted ++ [entry]) = (replay config posted).bind fun rings =>
      if entry.2 then execute config entry.1 rings else some rings := by
  rw [replay, List.foldlM_append]
  refine congrArg (Option.bind _) (funext fun rings => ?_)
  exact bind_pure _

theorem Served.posting_view (busy : ¬ (a.sqHead = a.sqTail ∨ (a.cqTail + 1) % a.cq.size = a.cqHead))
    (kept : Kept p s a) (result : UInt32) (code : UInt16) (granted : Bool) (rings : Rings) :
    Nvme.process p.admin (s.view a) result code = some (State.view
      { s with
        mem := writeCompletion s.mem (p.admin.postSlot a.cqTail) result
          ((a.sqHead + 1) % a.sq.size)
          (completionDword (fetchCommand s.mem (p.admin.fetchSlot a.sqHead)) code a.phase)
        rings := rings }
      (a.posting (fetchCommand s.mem (p.admin.fetchSlot a.sqHead)) granted)) := by
  have size : a.sq.size = a.cq.size := by rw [kept.sq, kept.cq]
  have work : ¬ ((s.view a).ctl.sqHead = (s.view a).ctl.sqTail ∨ (s.view a).ctl.full = true) := by
    simpa [State.view, Served.ctl, Controller.full, size] using busy
  rw [Nvme.process, if_neg work]
  simp [State.view, Served.ctl, Served.posting, size]

theorem process_serving {sent : Nat} {result : UInt32} {code : UInt16}
    (serving : Serving p s sent) (taken : process s result code = some t) :
    Serving p t sent ∧ t.pc = s.pc := by
  obtain ⟨a, present, kept⟩ := serving.served
  rw [process, present, Option.bind_some] at taken
  split at taken
  · cases taken
  rename_i busy
  rw [kept.fetchSlot, kept.postSlot] at taken
  rcases Option.map_eq_some_iff.mp taken with ⟨rings, done, rfl⟩
  have tail : a.cqTail < 256 := by
    have level := kept.lap.ctlCqTail
    have count := kept.lap.count
    have lag := kept.lap.lag
    simp only [State.view, Served.ctl] at level count lag
    omega
  refine ⟨?_, rfl⟩
  exact {
    programmed := serving.programmed
    ready := serving.ready
    issued := serving.issued
    commandId := serving.commandId
    created := serving.created
    pair := serving.pair
    cleared := fun late => writeCompletion_cleared p tail (serving.cleared late)
    served := by
      refine ⟨_, rfl, ?_⟩
      exact {
        sq := kept.sq
        cq := kept.cq
        lap := process_firstLap _ _ _ _ _ kept.lap (Served.posting_view busy kept result code _ rings)
        replayed := by
          rw [Served.posting, replay_append, kept.replayed]
          exact done } }

theorem commands_succ (p : Pages) (call : Call) (queueLength : UInt16)
    (length : call ≠ .initIoq → queueLength = QL) :
    (commands p).take (call.index + 1) = (commands p).take call.index ++
      [commandOf p (UInt16.ofNat call.index) queueLength call] := by
  cases call with
  | initIoq => rfl
  | createIocq =>
      rw [length (by decide)]
      rfl
  | createIosq =>
      rw [length (by decide)]
      rfl

theorem ask_serving {call : Call} (serving : Serving p s call.index) (asking : s.pc = .ask call)
    (taken : ask p s call = some t) : Serving p t (call.index + 1) ∧ t.pc = .await call := by
  obtain ⟨a, present, kept⟩ := serving.served
  have few : s.issued.length < 64 := by
    rw [serving.issued, List.length_take, commands]
    simp
  have count : (s.view a).issued.length = s.issued.length := rfl
  have tail : s.qid0.sqTail.toNat = s.issued.length := kept.lap.sqTail
  have length : call ≠ .initIoq → (prepared s.qid1 call).queueLength = QL := by
    intro later
    cases call with
    | initIoq => exact absurd rfl later
    | createIocq => rfl
    | createIosq => exact (serving.created (by decide)).1
  rw [ask, present] at taken
  split at taken
  · cases taken
  rename_i room
  rcases Option.some.inj taken with rfl
  refine ⟨?_, rfl⟩
  exact {
    programmed := serving.programmed
    ready := serving.ready
    issued := by
      rw [commands_succ p call _ length, ← serving.issued, ← serving.commandId]
    commandId := by
      simp only [serving.commandId]
      cases call <;> rfl
    created := by
      cases call with
      | initIoq => exact fun many => absurd many (by decide)
      | createIocq => exact fun _ => ⟨rfl, rfl⟩
      | createIosq => exact fun _ => serving.created (by decide)
    pair := by
      cases call with
      | initIoq => exact fun many => absurd many (by decide)
      | createIocq => exact fun many => absurd many (by decide)
      | createIosq =>
          intro _
          have created := serving.created (by decide)
          simp only [prepared, created]
    cleared := by
      intro late
      refine writeCommand_cleared p (by omega) (serving.cleared ?_)
      rw [asking]
      cases call with
      | initIoq => exact late
      | createIocq => exact late
      | createIosq => trivial
    served := by
      refine ⟨_, rfl, kept.sq, kept.cq, ?_, kept.replayed⟩
      refine issue_firstLap p.admin (s.view a) _
        (commandOf p s.qid0.commandId (prepared s.qid1 call).queueLength call) kept.lap
        (by omega) (slotMatches_firstPage p.admin _ (by omega)) ?_
      rw [issue, if_neg (by simp [State.view, asking, Pc.waits])]
      exact if_neg room }

theorem FirstLap.memory {l : Layout} {u v : Nvme.State} (lap : FirstLap l u)
    (same : v = { u with mem := v.mem }) (idle : u.waiting = false)
    (entries : ∀ j < 128, v.mem (l.pollDword j) = u.mem (l.pollDword j)) : FirstLap l v := by
  rw [same]
  exact { lap with
    entries := by
      intro j bound
      rw [entries j bound]
      exact lap.entries j bound
    pending := by
      intro command found
      have there : u.posted.length < u.issued.length := (List.getElem?_eq_some_iff.mp found).1
      have lag := lap.lag.2
      rw [idle, Bool.toNat_false] at lag
      omega }

theorem answered_serving {call : Call} (serving : Serving p s (call.index + 1))
    (asked : s.pc = .await call) (taken : answered p s call = some t) : Inv p t := by
  obtain ⟨a, present, kept⟩ := serving.served
  rw [answered] at taken
  split at taken
  swap
  · cases taken
  rename_i seen
  have polled : Nvme.finish p.admin (s.view a) = some
      { s.view a with
        qp := { s.qid0 with cqHead := s.qid0.cqHead + 1 }
        waiting := false } := by
    rw [finish, if_pos (by simpa [State.view, asked, Pc.waits, polled] using seen)]
    rfl
  have lap := finish_firstLap _ _ _ kept.lap polled
  have next (pc : Pc) (mem : Nat → UInt32) (quiet : pc.waits = false)
      (cleared : pc.late → Cleared p.io mem)
      (entries : ∀ j < 128, mem (p.admin.pollDword j) = s.mem (p.admin.pollDword j)) :
      Serving p { s with
        pc := pc
        mem := mem
        qid0 := { s.qid0 with cqHead := s.qid0.cqHead + 1 } } (call.index + 1) :=
    { programmed := serving.programmed
      ready := serving.ready
      issued := serving.issued
      commandId := serving.commandId
      created := serving.created
      pair := serving.pair
      cleared := cleared
      served := by
        refine ⟨a, present, kept.sq, kept.cq, ?_, kept.replayed⟩
        refine FirstLap.memory lap ?_ rfl entries
        rw [State.view, quiet]
        rfl }
  cases call with
  | initIoq =>
      rcases Option.some.inj taken with rfl
      exact next _ s.mem rfl False.elim fun _ _ => rfl
  | createIocq =>
      rcases Option.some.inj taken with rfl
      exact next _ _ rfl (fun _ => memSet_cleared p.io s.mem) fun _ bound =>
        memSet_polled p s.mem bound
  | createIosq =>
      rcases Option.some.inj taken with rfl
      refine next _ s.mem rfl (fun _ => serving.cleared ?_) fun _ _ => rfl
      rw [asked]
      trivial

theorem Serving.settled {sent : Nat} (serving : Serving p s sent) : settle s = none := by
  have on : s.config.cc.toNat % 2 = 1 := by rw [serving.programmed.cc]; decide
  rw [settle, if_neg (by simp [serving.ready]), if_neg (by omega)]

theorem settle_inv (inv : Inv p s) (taken : settle s = some t) : Inv p t := by
  have running {sent : Nat} (serving : Serving p s sent) : False := by
    rw [serving.settled] at taken
    cases taken
  cases at_pc : s.pc with
  | ready =>
      simp only [Inv, at_pc] at inv
      rw [settle] at taken
      split at taken
      · rcases Option.some.inj taken with rfl
        simp only [Inv, at_pc]
        exact ⟨inv.pair, inv.issued⟩
      · split at taken
        · rcases Option.some.inj taken with rfl
          simp only [Inv, at_pc]
          exact ⟨inv.pair, inv.issued⟩
        · cases taken
  | disabled =>
      simp only [Inv, at_pc] at inv
      have off : s.config.cc.toNat % 2 = 0 := by rw [inv.2.1]; rfl
      rw [settle, if_neg (by omega)] at taken
      split at taken
      · rcases Option.some.inj taken with rfl
        simp only [Inv, at_pc]
        exact ⟨⟨inv.1.pair, inv.1.issued⟩, inv.2.1, .inr ⟨trivial, trivial, trivial⟩⟩
      · cases taken
  | enabled =>
      simp only [Inv, at_pc] at inv
      obtain ⟨unused, programmed, empty, _⟩ := inv
      have on : s.config.cc.toNat % 2 = 1 := by rw [programmed.cc]; decide
      rw [settle] at taken
      split at taken
      · rcases Option.some.inj taken with rfl
        rw [programmed.admin]
        simp only [Inv, at_pc]
        exact ⟨⟨unused.pair, unused.issued⟩,
          ⟨programmed.cc, programmed.aqa, programmed.asq, programmed.acq⟩, empty,
          .inr ⟨trivial, trivial⟩⟩
      · rw [if_neg (by omega)] at taken
        cases taken
  | ask call =>
      simp only [Inv, at_pc] at inv
      exact (running inv).elim
  | await call =>
      simp only [Inv, at_pc] at inv
      exact (running inv).elim
  | done =>
      simp only [Inv, at_pc] at inv
      exact (running inv).elim

theorem process_frame {result : UInt32} {code : UInt16} (taken : process s result code = some t) :
    t.pc = s.pc ∧ t.config = s.config ∧ t.qid0 = s.qid0 ∧ t.issued = s.issued ∧
      ∃ a, s.admin = some a ∧ a.sqHead ≠ a.sqTail := by
  rcases Option.bind_eq_some_iff.mp taken with ⟨a, present, taken⟩
  split at taken
  · cases taken
  rename_i busy
  rcases Option.map_eq_some_iff.mp taken with ⟨rings, _, rfl⟩
  exact ⟨rfl, rfl, rfl, rfl, a, present, fun same => busy (.inl same)⟩

theorem process_inv {result : UInt32} {code : UInt16} (inv : Inv p s)
    (taken : process s result code = some t) : Inv p t := by
  obtain ⟨pc, config, qid0, issued, a, present, busy⟩ := process_frame taken
  have unused (unused : Unused s) : Unused t := ⟨qid0.trans unused.pair, issued.trans unused.issued⟩
  cases at_pc : s.pc with
  | ready =>
      simp only [Inv, pc, at_pc] at inv ⊢
      exact unused inv
  | disabled =>
      simp only [Inv, pc, at_pc, config] at inv ⊢
      obtain ⟨before, off, on | ⟨_, none, _⟩⟩ := inv
      · exact ⟨unused before, off, .inl on⟩
      · rw [none] at present
        cases present
  | enabled =>
      simp only [Inv, at_pc] at inv
      obtain ⟨_, _, _, ⟨_, none⟩ | ⟨_, idle⟩⟩ := inv
      · rw [none] at present
        cases present
      · rw [idle] at present
        cases present
        exact absurd rfl busy
  | ask call =>
      simp only [Inv, pc, at_pc] at inv ⊢
      exact (process_serving inv taken).1
  | await call =>
      simp only [Inv, pc, at_pc] at inv ⊢
      exact (process_serving inv taken).1
  | done =>
      simp only [Inv, pc, at_pc] at inv ⊢
      exact (process_serving inv taken).1

theorem drive_inv (inv : Inv p s) (taken : drive p s = some t) : Inv p t := by
  cases at_pc : s.pc with
  | ready =>
      simp only [Inv, at_pc] at inv
      simp only [drive, at_pc] at taken
      split at taken
      · rename_i up
        rcases Option.some.inj taken with rfl
        exact ⟨⟨inv.pair, inv.issued⟩, rfl, .inl up⟩
      · cases taken
  | disabled =>
      simp only [Inv, at_pc] at inv
      simp only [drive, at_pc] at taken
      obtain ⟨unused, off, state⟩ := inv
      split at taken
      · rename_i down
        rcases Option.some.inj taken with rfl
        have none : s.admin = none ∧ s.rings = noRings := by
          rcases state with up | down
          · rw [up] at down
            cases down
          · exact down.2
        refine ⟨⟨unused.pair, unused.issued⟩, ⟨rfl, ?_, ⟨rfl, rfl⟩, ⟨rfl, rfl⟩⟩, none.2, ?_⟩
        · simp only [unused.pair]
          rfl
        · exact .inl ⟨down, none.1⟩
      · cases taken
  | enabled =>
      simp only [Inv, at_pc] at inv
      simp only [drive, at_pc] at taken
      obtain ⟨unused, programmed, empty, state⟩ := inv
      split at taken
      · rename_i up
        rcases Option.some.inj taken with rfl
        have there : s.admin = some p.adminQueues := by
          rcases state with down | up
          · rw [down.1] at up
            cases up
          · exact up.2
        exact {
          programmed := ⟨programmed.cc, programmed.aqa, programmed.asq, programmed.acq⟩
          ready := up
          issued := unused.issued
          commandId := by simp only [unused.pair]; rfl
          created := fun many => absurd many (by decide)
          pair := fun many => absurd many (by decide)
          cleared := False.elim
          served := by
            refine ⟨p.adminQueues, there, rfl, rfl, ?_, ?_⟩
            · have start := initial_firstLap p.admin _ (memSet_cleared p.admin s.mem)
              simpa [State.view, initial, unused.pair, unused.issued, Pc.waits, Served.ctl,
                Pages.adminQueues, serve, QL] using start
            · exact congrArg some empty.symm }
      · cases taken
  | ask call =>
      simp only [Inv, at_pc] at inv
      simp only [drive, at_pc] at taken
      obtain ⟨serving, pc⟩ := ask_serving inv at_pc taken
      simpa only [Inv, pc] using serving
  | await call =>
      simp only [Inv, at_pc] at inv
      simp only [drive, at_pc] at taken
      exact answered_serving inv at_pc taken
  | done =>
      simp only [drive, at_pc] at taken
      cases taken

theorem step_inv (s : State) (act : Act) (t : State) (inv : Inv p s) (_ : anyStep s act)
    (taken : step p s act = some t) : Inv p t := by
  cases act with
  | drive => exact drive_inv inv taken
  | settle => exact settle_inv inv taken
  | process result code => exact process_inv inv taken

end Steps

/-! What the driver and the controller have at the end. -/

/-- The I/O queues in the pages of `qid[1]`, as the driver announces them. -/
def Pages.submission (p : Pages) : Ring := ⟨p.io.fetchSlot 0, 16, 129⟩

def Pages.completion (p : Pages) : Ring := ⟨p.io.postSlot 0, 4, 129⟩

section End

variable {p : Pages} {s : State}

theorem initIoq_executed (config : Config) (rings : Rings) :
    execute config (initIoqCommand 0) rings = some rings := by
  have opcode : initIoqCommand 0 0 = 0x9 := rfl
  rw [execute, opcode]
  rfl

theorem createIocq_dwords (base : UInt32) :
    createIocqCommand 1 base QL 0 = 0x10005 ∧ createIocqCommand 1 base QL 6 = base ∧
      createIocqCommand 1 base QL 7 = 0 ∧ createIocqCommand 1 base QL 10 = 0x800001 ∧
      createIocqCommand 1 base QL 11 = 1 :=
  ⟨rfl, rfl, rfl, rfl, rfl⟩

theorem createIosq_dwords (base : UInt32) :
    createIosqCommand 2 base QL 0 = 0x20001 ∧ createIosqCommand 2 base QL 6 = base ∧
      createIosqCommand 2 base QL 7 = 0 ∧ createIosqCommand 2 base QL 10 = 0x800001 ∧
      createIosqCommand 2 base QL 11 = 0x10001 :=
  ⟨rfl, rfl, rfl, rfl, rfl⟩

theorem createIocq_executed {config : Config} (programmed : Programmed p config) :
    execute config (createIocqCommand 1 (p.getpaddr p.cq1) QL) noRings =
      some { noRings with cq := Function.update noRings.cq 1 (some p.completion) } := by
  obtain ⟨opcode, base, high, size, flags⟩ := createIocq_dwords (p.getpaddr p.cq1)
  have page : 4096 * p.frame p.cq1 / 4096 = p.frame p.cq1 := by omega
  have ring : ringOf (createIocqCommand 1 (p.getpaddr p.cq1) QL) 4 = p.completion := by
    simp [ringOf, base, high, size, p.getpaddr_toNat, page, Pages.completion, Pages.io,
      Layout.postSlot]
  have exponent : config.cc.toNat / 2 ^ 20 % 16 = 4 := by rw [programmed.cc]; rfl
  rw [execute, exponent, ring]
  simp [opcode, size, flags, noRings]

theorem createIosq_executed {config : Config} (programmed : Programmed p config) (rings : Rings)
    (free : rings.sq 1 = none) :
    execute config (createIosqCommand 2 (p.getpaddr p.sq1) QL) rings =
      if rings.cq 1 ≠ none then
        some { rings with sq := Function.update rings.sq 1 (some (p.submission, 1)) }
      else none := by
  obtain ⟨opcode, base, high, size, flags⟩ := createIosq_dwords (p.getpaddr p.sq1)
  have page : 4096 * p.frame p.sq1 / 4096 = p.frame p.sq1 := by omega
  have ring : ringOf (createIosqCommand 2 (p.getpaddr p.sq1) QL) 6 = p.submission := by
    simp [ringOf, base, high, size, p.getpaddr_toNat, page, Pages.submission, Pages.io,
      Layout.fetchSlot]
  have exponent : config.cc.toNat / 2 ^ 16 % 16 = 6 := by rw [programmed.cc]; rfl
  rw [execute, exponent, ring]
  simp [opcode, size, flags, free]

/-- What the controller knows of queue pair 1 after it answered the three commands, each with
success or not. -/
def Announced (p : Pages) (s : State) (posted : List (Command × Bool)) : Prop :=
  ∃ features completion submission, posted =
      (commands p).zip [features, completion, submission] ∧
    (submission = true → completion = true) ∧
    s.rings.cq 1 = (if completion then some p.completion else none) ∧
    s.rings.sq 1 = (if submission then some (p.submission, 1) else none)

theorem replay_announced {posted : List (Command × Bool)} (programmed : Programmed p s.config)
    (sent : posted.map Prod.fst = commands p) (replayed : replay s.config posted = some s.rings) :
    Announced p s posted := by
  have zipped : posted = (commands p).zip (posted.map Prod.snd) := by
    rw [← sent, ← List.unzip_fst, ← List.unzip_snd, List.zip_unzip]
  have three : (posted.map Prod.snd).length = 3 := by
    rw [List.length_map, ← List.length_map Prod.fst, sent]
    rfl
  obtain ⟨features, completion, submission, answers⟩ := List.length_eq_three.mp three
  rw [answers] at zipped
  refine ⟨features, completion, submission, zipped, ?_⟩
  rw [zipped] at replayed
  simp only [replay, commands, List.zip_cons_cons, List.zip_nil_right, List.foldlM_cons,
    List.foldlM_nil, initIoq_executed, ite_self, Option.bind_eq_bind, Option.bind_some,
    createIocq_executed programmed] at replayed
  cases completion with
  | false =>
      rw [if_neg (by decide), Option.bind_some] at replayed
      cases submission with
      | false =>
          rw [← Option.some.inj replayed]
          exact ⟨by decide, rfl, rfl⟩
      | true =>
          -- without its completion queue the submission queue cannot have been granted
          rw [if_pos rfl, createIosq_executed programmed noRings rfl,
            if_neg (by simp [noRings])] at replayed
          cases replayed
  | true =>
      rw [if_pos rfl, Option.bind_some] at replayed
      cases submission with
      | false =>
          rw [← Option.some.inj replayed]
          exact ⟨fun _ => rfl, rfl, rfl⟩
      | true =>
          rw [if_pos rfl, createIosq_executed programmed _ rfl, if_pos (by simp)] at replayed
          rw [← Option.some.inj replayed]
          exact ⟨fun _ => rfl, rfl, rfl⟩

theorem Serving.posted {sent : Nat} (serving : Serving p s sent) (idle : s.pc.waits = false) :
    ∃ a, s.admin = some a ∧ Kept p s a ∧ a.posted.map Prod.fst = s.issued := by
  obtain ⟨a, present, kept⟩ := serving.served
  refine ⟨a, present, kept, ?_⟩
  have fetched : a.posted.map Prod.fst = s.issued.take (a.posted.map Prod.fst).length :=
    kept.lap.fetched
  have lag := kept.lap.lag.2
  simp only [State.view, idle, Bool.toNat_false, Nat.add_zero] at lag
  rwa [List.take_of_length_le lag] at fetched

/-- Queue pair 1 is in the state from which the protocol of a pair starts, in memory, in `qid[1]`
and, where it granted the queues, in the controller. -/
structure HandedOver (p : Pages) (s : State) : Prop where
  pair : s.qid1 = (initial s.mem).qp
  cleared : Cleared p.io s.mem
  answered : ∃ a, s.admin = some a ∧ Announced p s a.posted
  fresh : (serve p.submission p.completion).ctl = (initial s.mem).ctl
  slots : ∀ k, p.submission.base + p.submission.entry * k = p.io.fetchSlot k ∧
    p.completion.base + p.completion.entry * k = p.io.postSlot k
  protocol : ∀ t, Run (Nvme.step p.io) (WithinFirstLap p.io) (initial s.mem) t → Protocol p.io t

theorem Serving.handedOver (serving : Serving p s 3) (finished : s.pc = .done) :
    HandedOver p s := by
  obtain ⟨a, present, kept, posted⟩ := serving.posted (by rw [finished]; rfl)
  have cleared : Cleared p.io s.mem := serving.cleared (by rw [finished]; trivial)
  exact {
    pair := serving.pair (Nat.le_refl 3)
    cleared := cleared
    answered := ⟨a, present,
      replay_announced serving.programmed (posted.trans serving.issued) kept.replayed⟩
    fresh := rfl
    slots := by
      intro k
      simp only [Pages.submission, Pages.completion, Layout.fetchSlot, Layout.postSlot]
      omega
    protocol := by
      intro t run
      have lap := run.invariant (FirstLap p.io) (initial_firstLap p.io s.mem cleared)
        (step_firstLap p.io)
      exact firstLap_protocol p.io t lap }

end End

/-- However driver and controller take turns, whatever the firmware left behind and whatever the
controller answers: when `create_iosq` returns, queue pair 1 is as `initial` has it. -/
theorem bring_up_hands_over (p : Pages) (mem : Nat → UInt32) (qid1 : QueuePair) (config : Config)
    (admin : Option Served) (rings : Rings) (s : State)
    (run : Run (step p) anyStep (start mem qid1 config admin rings) s)
    (finished : s.pc = .done) : HandedOver p s := by
  have begun : Inv p (start mem qid1 config admin rings) := ⟨rfl, rfl⟩
  have inv := run.invariant (Inv p) begun step_inv
  simp only [Inv, finished] at inv
  exact inv.handedOver finished

def samplePages : Pages where
  frame page := page % 2 ^ 20
  sq0 := 0
  cq0 := 1
  sq1 := 2
  cq1 := 3
  distinct := by decide
  bound page := Nat.mod_lt _ (by decide)

/-- The firmware has used the controller. -/
def sampleConfig : Config := ⟨1, 1, 0, 0, 0, 0, 0⟩

theorem sample_handed_over :
    ∃ s, Run (step samplePages) anyStep
        (start (fun _ => 7) ⟨0, 0, 0, 0, 0⟩ sampleConfig none noRings) s ∧
      s.pc = .done ∧ HandedOver samplePages s := by
  have goes : (runList (step samplePages)
      (start (fun _ => 7) ⟨0, 0, 0, 0, 0⟩ sampleConfig none noRings)
      [.drive, .settle, .drive, .settle, .drive, .drive, .process 0 0, .drive, .drive,
        .process 0 0, .drive, .drive, .process 0 0, .drive]).map State.pc = some .done := by
    decide +kernel
  rcases Option.map_eq_some_iff.mp goes with ⟨s, reached, finished⟩
  have run : Run (step samplePages) anyStep _ s :=
    Run.of_runList _ (fun _ _ _ => trivial) reached
  exact ⟨s, run, finished,
    bring_up_hands_over samplePages _ _ sampleConfig none noRings s run finished⟩

/-! Whether the bring-up gets to its end. -/

def Pc.rank : Pc → Nat
  | .ready => 0
  | .disabled => 1
  | .enabled => 2
  | .ask call => 3 + 2 * call.index
  | .await call => 4 + 2 * call.index
  | .done => 9

section Progress

variable {p : Pages} {s t : State}

theorem goes_on (act : Act) (taken : step p s act = some t) : Run (step p) anyStep s t :=
  Run.refl.tail trivial taken

theorem Pc.rank_lt {pc : Pc} (unfinished : pc ≠ .done) : pc.rank < 9 := by
  cases pc with
  | ready => decide
  | disabled => decide
  | enabled => decide
  | ask call => cases call <;> decide
  | await call => cases call <;> decide
  | done => exact absurd rfl unfinished

theorem drive_rank (taken : drive p s = some t) : s.pc.rank < t.pc.rank := by
  cases at_pc : s.pc with
  | ready =>
      simp only [drive, at_pc, Option.ite_none_right_eq_some] at taken
      rcases taken with ⟨_, ⟨⟩⟩
      simp [Pc.rank]
  | disabled =>
      simp only [drive, at_pc, Option.ite_none_right_eq_some] at taken
      rcases taken with ⟨_, ⟨⟩⟩
      simp [Pc.rank]
  | enabled =>
      simp only [drive, at_pc, Option.ite_none_right_eq_some] at taken
      rcases taken with ⟨_, ⟨⟩⟩
      simp [Pc.rank, Call.index]
  | ask call =>
      simp only [drive, at_pc, ask, Option.ite_none_left_eq_some] at taken
      rcases taken with ⟨_, ⟨⟩⟩
      simp only [Pc.rank]
      omega
  | await call =>
      simp only [drive, at_pc, answered, Option.ite_none_right_eq_some] at taken
      cases call with
      | initIoq =>
          rcases taken with ⟨_, ⟨⟩⟩
          simp [Pc.rank, Call.index]
      | createIocq =>
          rcases taken with ⟨_, ⟨⟩⟩
          simp [Pc.rank, Call.index]
      | createIosq =>
          rcases taken with ⟨_, ⟨⟩⟩
          simp [Pc.rank, Call.index]
  | done =>
      simp only [drive, at_pc] at taken
      cases taken

theorem Serving.polled {sent : Nat} {a : Served} (serving : Serving p s sent)
    (present : s.admin = some a) (waits : s.pc.waits = true)
    (caught : a.posted.length = s.issued.length) :
    phaseBit (s.mem (p.admin.pollDword s.qid0.cqHead.toNat)) = true := by
  obtain ⟨a', present', kept⟩ := serving.served
  rw [present] at present'
  cases present'
  have head := kept.lap.cqHead
  have count := kept.lap.count
  simp only [State.view, waits, Bool.toNat_true] at head count
  have entry := kept.lap.entries s.qid0.cqHead.toNat (by omega)
  simp only [State.view, List.length_map] at entry
  rw [entry, decide_eq_true_iff]
  omega

theorem Serving.process_pending {sent : Nat} {a : Served} (serving : Serving p s sent)
    (present : s.admin = some a) (pending : a.posted.length ≠ s.issued.length) :
    ∃ t b, process s 0 1 = some t ∧ t.admin = some b ∧
      b.posted.length = a.posted.length + 1 := by
  obtain ⟨a', present', kept⟩ := serving.served
  rw [present] at present'
  cases present'
  have size : a.cq.size = a.sq.size := by rw [kept.sq, kept.cq]
  have head : a.sqHead = a.posted.length := by
    simpa [State.view, Served.ctl] using kept.lap.ctlHead
  have tail : a.sqTail = s.issued.length := kept.lap.ctlTail
  have room := (firstLap_protocol p.admin _ kept.lap).2
  have free : ¬ (a.cqTail + 1) % a.cq.size = a.cqHead := by
    rw [size]
    exact of_decide_eq_false room
  have busy : ¬ (a.sqHead = a.sqTail ∨ (a.cqTail + 1) % a.cq.size = a.cqHead) := by
    rintro (same | full)
    · exact pending (by omega)
    · exact free full
  refine ⟨_, _, by rw [process, present, Option.bind_some, if_neg busy]; rfl, rfl, ?_⟩
  simp [Served.posting]

theorem unblocked (inv : Inv p s) (past : s.pc ≠ .ready) (unfinished : s.pc ≠ .done) :
    ∃ u, Run (step p) anyStep s u ∧ u.pc = s.pc ∧ (drive p u).isSome = true := by
  cases at_pc : s.pc with
  | ready => exact absurd at_pc past
  | disabled =>
      simp only [Inv, at_pc] at inv
      obtain ⟨_, off, up | down⟩ := inv
      · have even : s.config.cc.toNat % 2 = 0 := by rw [off]; rfl
        have settled : step p s .settle = some
            { s with config := { s.config with csts := 0 }, admin := none, rings := noRings } := by
          rw [step, settle, if_neg (by omega), if_pos ⟨even, up⟩]
        exact ⟨_, goes_on .settle settled, at_pc, by simp [drive, at_pc]⟩
      · exact ⟨s, .refl, at_pc, by simp [drive, at_pc, down.1]⟩
  | enabled =>
      simp only [Inv, at_pc] at inv
      obtain ⟨_, programmed, _, down | up⟩ := inv
      · have odd : s.config.cc.toNat % 2 = 1 := by rw [programmed.cc]; rfl
        have settled : step p s .settle = some
            { s with config := { s.config with csts := 1 }, admin := some s.config.admin } := by
          rw [step, settle, if_pos ⟨odd, down.1⟩]
        exact ⟨_, goes_on .settle settled, at_pc, by simp [drive, at_pc]⟩
      · exact ⟨s, .refl, at_pc, by simp [drive, at_pc, up.1]⟩
  | ask call =>
      simp only [Inv, at_pc] at inv
      obtain ⟨a, _, kept⟩ := inv.served
      have few : s.issued.length ≤ 3 := by
        rw [inv.issued, List.length_take, commands]
        simp
      have tail : s.qid0.sqTail.toNat = s.issued.length := kept.lap.sqTail
      have head : s.qid0.sqHead = 0 := kept.lap.sqHead
      have length : s.qid0.queueLength = QL := kept.lap.length
      have room : ¬ (s.qid0.sqTail.toNat : Int) - s.qid0.sqHead.toNat =
          s.qid0.queueLength.toNat := by
        rw [tail, head, length]
        simp only [QL, UInt16.toNat_zero, UInt16.reduceToNat]
        omega
      exact ⟨s, .refl, at_pc, by simp [drive, at_pc, ask, room]⟩
  | await call =>
      simp only [Inv, at_pc] at inv
      have waits (u : State) (pc : u.pc = .await call) : u.pc.waits = true := by rw [pc]; rfl
      have goes (u : State) (pc : u.pc = .await call)
          (seen : phaseBit (u.mem (p.admin.pollDword u.qid0.cqHead.toNat)) = true) :
          (drive p u).isSome = true := by
        cases call <;> simp [drive, pc, answered, seen]
      obtain ⟨a, present, kept⟩ := inv.served
      by_cases caught : a.posted.length = s.issued.length
      · exact ⟨s, .refl, at_pc, goes s at_pc (inv.polled present (waits s at_pc) caught)⟩
      · obtain ⟨u, b, taken, there, longer⟩ := inv.process_pending present caught
        obtain ⟨serving, same⟩ := process_serving inv taken
        have issued : u.issued = s.issued := (process_frame taken).2.2.2.1
        have lag := kept.lap.lag
        simp only [State.view, waits s at_pc, Bool.toNat_true, List.length_map] at lag
        have level : b.posted.length = u.issued.length := by
          rw [longer, issued]
          omega
        have pc : u.pc = .await call := same.trans at_pc
        have answer : step p s (.process 0 1) = some u := taken
        exact ⟨u, goes_on (.process 0 1) answer, pc, goes u pc (serving.polled there (waits u pc) level)⟩
  | done => exact absurd at_pc unfinished

theorem reaches_done (inv : Inv p s) (past : s.pc ≠ .ready) :
    ∃ t, Run (step p) anyStep s t ∧ t.pc = .done := by
  induction left : 9 - s.pc.rank using Nat.strong_induction_on generalizing s with
  | _ n ih =>
      by_cases finished : s.pc = .done
      · exact ⟨s, .refl, finished⟩
      · obtain ⟨u, before, pc, goes⟩ := unblocked inv past finished
        obtain ⟨v, taken⟩ := Option.isSome_iff_exists.mp goes
        have later := drive_rank taken
        have run : Run (step p) anyStep s v := before.trans (goes_on .drive taken)
        have invV : Inv p v := run.invariant (Inv p) inv step_inv
        have bound := Pc.rank_lt finished
        have pastV : v.pc ≠ .ready := by
          intro back
          rw [back] at later
          exact absurd later (by simp [Pc.rank])
        obtain ⟨t, onward, last⟩ := ih (9 - v.pc.rank) (by rw [pc] at later; omega) invV pastV rfl
        exact ⟨t, run.trans onward, last⟩

end Progress

/-- The driver gets through exactly when the firmware left the controller ready, or switched on and
about to be; otherwise it waits in the first loop for ever. Once behind that loop it is never
stuck, whatever the controller answers. -/
theorem bring_up_finishes_iff (p : Pages) (mem : Nat → UInt32) (qid1 : QueuePair)
    (config : Config) (admin : Option Served) (rings : Rings) :
    ((∃ s, Run (step p) anyStep (start mem qid1 config admin rings) s ∧ s.pc = .done) ↔
      config.csts = 1 ∨ config.csts = 0 ∧ config.cc.toNat % 2 = 1) ∧
    ∀ s, Run (step p) anyStep (start mem qid1 config admin rings) s → s.pc ≠ .ready →
      ∃ t, Run (step p) anyStep s t ∧ t.pc = .done := by
  have begun : Inv p (start mem qid1 config admin rings) := ⟨rfl, rfl⟩
  have behind (s : State) (run : Run (step p) anyStep (start mem qid1 config admin rings) s)
      (past : s.pc ≠ .ready) : ∃ t, Run (step p) anyStep s t ∧ t.pc = .done :=
    reaches_done (run.invariant (Inv p) begun step_inv) past
  refine ⟨⟨?_, ?_⟩, behind⟩
  · rintro ⟨s, run, finished⟩
    by_contra never
    rw [not_or, not_and] at never
    have stuck : s.pc = .ready ∧ s.config = config := by
      refine run.invariant (fun s => s.pc = .ready ∧ s.config = config) ⟨rfl, rfl⟩ ?_
      rintro s act t ⟨pc, same⟩ _ taken
      cases act with
      | drive =>
          rw [step, drive, pc] at taken
          simp only [same, if_neg never.1] at taken
          cases taken
      | settle =>
          rw [step, settle, same, if_neg, if_neg] at taken
          · cases taken
          · exact fun down => never.1 down.2
          · exact fun up => never.2 up.2 up.1
      | process result code =>
          have frame := process_frame taken
          exact ⟨frame.1.trans pc, frame.2.1.trans same⟩
    rw [finished] at stuck
    cases stuck.1
  · have first (config' : Config) (admin' : Option Served) (up : config'.csts = 1)
        (before : Run (step p) anyStep (start mem qid1 config admin rings)
          (start mem qid1 config' admin' rings)) :
        ∃ s, Run (step p) anyStep (start mem qid1 config admin rings) s ∧ s.pc = .done := by
      have taken : step p (start mem qid1 config' admin' rings) .drive = some
          { start mem qid1 config' admin' rings with
            pc := .disabled
            config := { config' with cc := 0 } } := by
        rw [step, drive, start]
        exact if_pos up
      have run := before.trans (goes_on .drive taken)
      obtain ⟨t, onward, finished⟩ := behind _ run (by simp)
      exact ⟨t, run.trans onward, finished⟩
    rintro (up | ⟨down, on⟩)
    · exact first config admin up .refl
    · have settled : step p (start mem qid1 config admin rings) .settle = some
          (start mem qid1 { config with csts := 1 } (some config.admin) rings) := by
        rw [step, settle, start, if_pos ⟨on, down⟩]
        rfl
      exact first _ _ rfl (goes_on .settle settled)

end TitorOS.Barrel.Nvme.BringUp
