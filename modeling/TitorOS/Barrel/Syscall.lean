import TitorOS.Barrel.Isr
import Mathlib.Data.UInt

/-! System calls from the prototype in `libc/syscalls.h` over the stub in `syscalls.asm` to the
dispatcher in `kernel/syscall.c`. What the kernel functions return is a parameter;
`none` there stands for one that does not return. They leave the words of the stub on the
user's stack alone. -/

namespace TitorOS.Barrel.Syscall

open TitorOS.Barrel.Isr (Regs)

/-- A call of a kernel function, with arguments of its parameters' types. -/
inductive Call where
  | open (path : UInt32) (mode : UInt8)
  | write (fd : UInt8) (buf count : UInt32)
  | read (fd : UInt8) (buf count : UInt32)
  | clearscreen
  | mmap (hint length : UInt32) (flags : UInt8)
  | fork
  | exec (binary : UInt32)
  deriving DecidableEq

/-- The results of the kernel functions; that of `fork` is the pid it stores in `isr_stack`. -/
structure Kernel where
  open_ : UInt32 → UInt8 → Option UInt8
  write : UInt8 → UInt32 → UInt32 → Option Unit
  read : UInt8 → UInt32 → UInt32 → Option UInt8
  clearscreen : Option Unit
  mmap : UInt32 → UInt32 → UInt8 → Option UInt32
  fork : Option UInt32
  exec : UInt32 → Option Unit

/-- `isr_stack_t`: the saved registers, and whether `exec` has set `eip` and `user_esp`. -/
structure Frame where
  regs : Regs
  fresh : Bool

def Frame.setEax (stack : Frame) (value : UInt32) : Frame :=
  { stack with regs := { stack.regs with eax := value } }

/-- The calls made, and the frame if `syscall` returns. -/
def syscall (kernel : Kernel) (stack : Frame) : List Call × Option Frame :=
  let eax := stack.regs.eax
  let ebx := stack.regs.ebx
  let ecx := stack.regs.ecx
  match stack.regs.edx.toNat with
  | 0 => ([.open eax ebx.toUInt8],
      (kernel.open_ eax ebx.toUInt8).map fun fd => stack.setEax fd.toUInt32)
  | 1 => ([.write ebx.toUInt8 eax ecx], (kernel.write ebx.toUInt8 eax ecx).map fun _ => stack)
  | 2 => ([.read ebx.toUInt8 eax ecx], (kernel.read ebx.toUInt8 eax ecx).map fun _ => stack)
  | 3 => ([.clearscreen], kernel.clearscreen.map fun _ => stack)
  | 4 => ([.mmap eax ebx ecx.toUInt8], (kernel.mmap eax ebx ecx.toUInt8).map stack.setEax)
  | 5 => ([.fork], kernel.fork.map stack.setEax)
  | 6 => ([.exec eax], (kernel.exec eax).map fun _ => { stack with fresh := true })
  | 7 => ([], some stack)
  | _ => ([], none)

inductive Reg where
  | eax | ecx | edx | ebx
  deriving DecidableEq

/-- The instructions of the stubs; `load dst offset` is `mov dst, [esp + offset]`. -/
inductive Instr where
  | load (dst : Reg) (offset : UInt32)
  | mov (dst : Reg) (value : UInt32)
  | push (src : Reg)
  | pop (dst : Reg)
  | int80
  | ret

/-- `mem` holds the words of the user's stack; `eip` is where `ret` goes to. -/
structure User where
  regs : Regs
  mem : UInt32 → UInt32
  eip : UInt32

def getReg (r : Regs) : Reg → UInt32
  | .eax => r.eax
  | .ecx => r.ecx
  | .edx => r.edx
  | .ebx => r.ebx

def setReg (r : Regs) (value : UInt32) : Reg → Regs
  | .eax => { r with eax := value }
  | .ecx => { r with ecx := value }
  | .edx => { r with edx := value }
  | .ebx => { r with ebx := value }

/-- `pusha`, the handler, `popa` and `iret`; `none` if the caller is not returned to. -/
def int80 (kernel : Kernel) (regs : Regs) : List Call × Option Regs :=
  let (calls, frame) := syscall kernel ⟨regs, false⟩
  (calls, frame.bind fun frame =>
    if frame.fresh then none else some { frame.regs with esp := regs.esp })

def run (kernel : Kernel) : List Instr → User → List Call × Option User
  | [], _ => ([], none)
  | .load dst offset :: rest, s =>
      run kernel rest { s with regs := setReg s.regs (s.mem (s.regs.esp + offset)) dst }
  | .mov dst value :: rest, s => run kernel rest { s with regs := setReg s.regs value dst }
  | .push src :: rest, s =>
      let esp := s.regs.esp - 4
      run kernel rest { s with
        regs := { s.regs with esp := esp }
        mem := Function.update s.mem esp (getReg s.regs src) }
  | .pop dst :: rest, s =>
      let regs := setReg s.regs (s.mem s.regs.esp) dst
      run kernel rest { s with regs := { regs with esp := regs.esp + 4 } }
  | .int80 :: rest, s =>
      let (calls, regs) := int80 kernel s.regs
      match regs with
      | none => (calls, none)
      | some regs =>
          let (more, after) := run kernel rest { s with regs := regs }
          (calls ++ more, after)
  | .ret :: _, s =>
      ([], some { s with
        regs := { s.regs with esp := s.regs.esp + 4 }
        eip := s.mem s.regs.esp })

/-- The shape of every stub: arguments to registers, then the call by number in `edx`. -/
def stub (loads : List (Reg × UInt32)) (number : UInt32) : List Instr :=
  loads.map (fun (dst, offset) => .load dst offset) ++
    [.push .edx, .mov .edx number, .int80, .pop .edx, .ret]

def openStub : List Instr := stub [(.ebx, 8), (.eax, 4)] 0
def writeStub : List Instr := stub [(.ecx, 12), (.eax, 8), (.ebx, 4)] 1
def readStub : List Instr := stub [(.ecx, 12), (.eax, 8), (.ebx, 4)] 2
def mmapStub : List Instr := stub [(.ecx, 12), (.ebx, 8), (.eax, 4)] 4
def forkStub : List Instr := stub [] 5
def execStub : List Instr := stub [(.eax, 4)] 6

/-- A call in a C program, with the values of its arguments. -/
inductive Request where
  | open (path mode : UInt32)
  | write (fd buf count : UInt32)
  | read (fd buf count : UInt32)
  | mmap (hint length flags : UInt32)
  | fork
  | exec (binary : UInt32)

def Request.stub : Request → List Instr
  | .open _ _ => openStub
  | .write _ _ _ => writeStub
  | .read _ _ _ => readStub
  | .mmap _ _ _ => mmapStub
  | .fork => forkStub
  | .exec _ => execStub

/-- The words on the stack: each argument converted to the type in the libc prototype. -/
def Request.words : Request → List UInt32
  | .open path mode => [path, mode.toUInt8.toUInt32]
  | .write fd buf count => [fd.toUInt8.toUInt32, buf, count]
  | .read fd buf count => [fd, buf, count.toUInt8.toUInt32]
  | .mmap hint length flags => [hint, length, flags.toUInt8.toUInt32]
  | .fork => []
  | .exec binary => [binary]

/-- The kernel function of the same name, with each argument converted to its parameter's type. -/
def Request.call : Request → Call
  | .open path mode => .open path mode.toUInt8
  | .write fd buf count => .write fd.toUInt8 buf count
  | .read fd buf count => .read fd.toUInt8 buf count
  | .mmap hint length flags => .mmap hint length flags.toUInt8
  | .fork => .fork
  | .exec binary => .exec binary

def Kernel.result (kernel : Kernel) : Call → Option UInt32
  | .open path mode => (kernel.open_ path mode).map UInt8.toUInt32
  | .read fd buf count => (kernel.read fd buf count).map UInt8.toUInt32
  | .mmap hint length flags => kernel.mmap hint length flags
  | .fork => kernel.fork
  | _ => none

structure Entered (s : User) (words : List UInt32) (back : UInt32) : Prop where
  back : s.mem s.regs.esp = back
  args : ∀ i word, words[i]? = some word → s.mem (s.regs.esp + UInt32.ofNat (4 * (i + 1))) = word

/-- The caller after the stub: back behind the call, with the result, and its registers kept. -/
structure Returned (s : User) (back : UInt32) (result : Option UInt32) (after : User) : Prop where
  eip : after.eip = back
  eax : ∀ value, result = some value → after.regs.eax = value
  ebx : after.regs.ebx = s.regs.ebx
  esi : after.regs.esi = s.regs.esi
  edi : after.regs.edi = s.regs.edi
  ebp : after.regs.ebp = s.regs.ebp
  esp : after.regs.esp = s.regs.esp + 4

structure Agrees (kernel : Kernel) (request : Request) (s : User) (back : UInt32) : Prop where
  calls : (run kernel request.stub s).1 = [request.call]
  returned : ∀ after, (run kernel request.stub s).2 = some after →
    Returned s back (kernel.result request.call) after

/-- `ebx` already holds the word that the stub puts there, where the call returns at all; a count
of bytes to read fits the libc prototype, and what `read` returns is the address of the buffer. -/
def Fits (kernel : Kernel) (ebx : UInt32) : Request → Prop
  | .open path mode =>
      (kernel.open_ path mode.toUInt8).isSome → ebx = mode.toUInt8.toUInt32
  | .write fd buf count =>
      (kernel.write fd.toUInt8 buf count).isSome → ebx = fd.toUInt8.toUInt32
  | .read fd buf count =>
      count < 256 ∧ ∀ result, kernel.read fd.toUInt8 buf count = some result →
        result.toUInt32 = buf ∧ ebx = fd
  | .mmap hint length flags => (kernel.mmap hint length flags.toUInt8).isSome → ebx = length
  | .fork => True
  | .exec _ => True

def loadRegs (s : User) (loads : List (Reg × UInt32)) : Regs :=
  loads.foldl (fun r (dst, offset) => setReg r (s.mem (s.regs.esp + offset)) dst) s.regs

@[simp] theorem setReg_esp (r : Regs) (value : UInt32) (dst : Reg) :
    (setReg r value dst).esp = r.esp := by
  cases dst <;> rfl

theorem run_loads (kernel : Kernel) (loads : List (Reg × UInt32)) (rest : List Instr) (s : User) :
    run kernel (loads.map (fun (dst, offset) => .load dst offset) ++ rest) s =
      run kernel rest { s with regs := loadRegs s loads } ∧
      (loadRegs s loads).esp = s.regs.esp := by
  induction loads generalizing s with
  | nil => exact ⟨rfl, rfl⟩
  | cons first loads ih =>
      rcases first with ⟨dst, offset⟩
      set next : User := { s with regs := setReg s.regs (s.mem (s.regs.esp + offset)) dst } with shape
      have same : loadRegs next loads = loadRegs s ((dst, offset) :: loads) := by
        rw [loadRegs, loadRegs, List.foldl_cons, shape]
        simp only [setReg_esp]
      rcases ih next with ⟨onward, esp⟩
      rw [same] at onward esp
      refine ⟨onward, ?_⟩
      rw [esp, shape]
      exact setReg_esp ..

theorem int80_esp (kernel : Kernel) (regs after : Regs) (back : (int80 kernel regs).2 = some after) :
    after.esp = regs.esp := by
  simp only [int80, Option.bind_eq_some_iff] at back
  rcases back with ⟨frame, _, kept⟩
  split at kept
  · cases kept
  · cases kept
    rfl

/-- A stub makes the system call with the loaded registers, and comes back with those the call
leaves, `edx` restored. -/
theorem run_stub (kernel : Kernel) (loads : List (Reg × UInt32)) (number : UInt32) (s : User) :
    run kernel (stub loads number) s =
      ((int80 kernel { loadRegs s loads with edx := number, esp := s.regs.esp - 4 }).1,
        (int80 kernel { loadRegs s loads with edx := number, esp := s.regs.esp - 4 }).2.map
          fun regs =>
            { regs := { regs with edx := (loadRegs s loads).edx, esp := s.regs.esp + 4 }
              mem := Function.update s.mem (s.regs.esp - 4) (loadRegs s loads).edx
              eip := s.mem s.regs.esp }) := by
  rcases run_loads kernel loads [.push .edx, .mov .edx number, .int80, .pop .edx, .ret] s with
    ⟨loaded, esp⟩
  have other : s.regs.esp ≠ s.regs.esp - 4 := by
    intro same
    have zero : (4 : UInt32) = 0 := sub_eq_self.mp same.symm
    exact absurd zero (by decide)
  rw [stub, loaded]
  simp only [run, setReg, getReg, esp]
  cases back : (int80 kernel { loadRegs s loads with edx := number, esp := s.regs.esp - 4 }).2 with
  | none => rfl
  | some after =>
      have same := int80_esp kernel _ after back
      simp only at same
      simp only [same, sub_add_cancel, Function.update_self, Function.update_of_ne other,
        List.append_nil, Option.map_some]

theorem syscall_kept (kernel : Kernel) (stack frame : Frame)
    (handled : (syscall kernel stack).2 = some frame) :
    frame.regs = { stack.regs with eax := frame.regs.eax } := by
  simp only [syscall] at handled
  split at handled
  all_goals simp only [Option.map_eq_some_iff, Option.some.injEq, reduceCtorEq] at handled
  all_goals
    rcases handled with ⟨_, _, rfl⟩
    rfl

theorem int80_kept (kernel : Kernel) (regs after : Regs)
    (back : (int80 kernel regs).2 = some after) :
    after = { regs with eax := after.eax } := by
  simp only [int80, Option.bind_eq_some_iff] at back
  rcases back with ⟨frame, handled, kept⟩
  have same := syscall_kept kernel _ frame handled
  split at kept
  · cases kept
  · cases kept
    rw [same]

/-- A stub agrees with the dispatcher if the loaded registers give the right call, its result
ends in `eax`, and `ebx` ends as it was. -/
theorem agrees_iff {α : Type} (kernel : Kernel) (request : Request) (s : User) (back : UInt32)
    (loads : List (Reg × UInt32)) (number : UInt32) (shape : request.stub = stub loads number)
    (entered : s.mem s.regs.esp = back) (regs : Regs) (loaded : loadRegs s loads = regs)
    (plain : regs.esi = s.regs.esi ∧ regs.edi = s.regs.edi ∧ regs.ebp = s.regs.ebp)
    (call : Call) (outcome : Option α) (leave : α → Regs)
    (made : int80 kernel { regs with edx := number, esp := s.regs.esp - 4 } =
      ([call], outcome.map leave)) :
    Agrees kernel request s back ↔
      call = request.call ∧ ∀ a, outcome = some a →
        (∀ value, kernel.result request.call = some value → (leave a).eax = value) ∧
          regs.ebx = s.regs.ebx := by
  have ran := run_stub kernel loads number s
  rw [← shape, loaded, made] at ran
  have kept : ∀ a, outcome = some a →
      leave a = { regs with edx := number, esp := s.regs.esp - 4, eax := (leave a).eax } := by
    intro a returns
    exact int80_kept kernel _ (leave a) (by rw [made, returns]; rfl)
  rcases plain with ⟨esi, edi, ebp⟩
  constructor
  · intro agrees
    have calls := agrees.calls
    rw [ran, List.singleton_inj] at calls
    refine ⟨calls, ?_⟩
    intro a returns
    have returned := agrees.returned _ (by rw [ran, returns]; rfl)
    refine ⟨returned.eax, ?_⟩
    rw [← returned.ebx, kept a returns]
  · intro both
    rcases both with ⟨calls, results⟩
    refine ⟨by rw [ran, calls], ?_⟩
    intro after returns
    rw [ran, Option.map_map, Option.map_eq_some_iff] at returns
    rcases returns with ⟨a, returns, rfl⟩
    rcases results a returns with ⟨eax, ebx⟩
    rw [Function.comp_apply, kept a returns]
    exact ⟨entered, eax, ebx, esi, edi, ebp, rfl⟩

theorem int80_open (kernel : Kernel) (regs : Regs) (number : regs.edx.toNat = 0) :
    int80 kernel regs = ([.open regs.eax regs.ebx.toUInt8],
      (kernel.open_ regs.eax regs.ebx.toUInt8).map fun fd => { regs with eax := fd.toUInt32 }) := by
  simp only [int80, syscall, number]
  cases kernel.open_ regs.eax regs.ebx.toUInt8 <;> rfl

theorem int80_write (kernel : Kernel) (regs : Regs) (number : regs.edx.toNat = 1) :
    int80 kernel regs = ([.write regs.ebx.toUInt8 regs.eax regs.ecx],
      (kernel.write regs.ebx.toUInt8 regs.eax regs.ecx).map fun _ => regs) := by
  simp only [int80, syscall, number]
  cases kernel.write regs.ebx.toUInt8 regs.eax regs.ecx <;> rfl

theorem int80_read (kernel : Kernel) (regs : Regs) (number : regs.edx.toNat = 2) :
    int80 kernel regs = ([.read regs.ebx.toUInt8 regs.eax regs.ecx],
      (kernel.read regs.ebx.toUInt8 regs.eax regs.ecx).map fun _ => regs) := by
  simp only [int80, syscall, number]
  cases kernel.read regs.ebx.toUInt8 regs.eax regs.ecx <;> rfl

theorem int80_mmap (kernel : Kernel) (regs : Regs) (number : regs.edx.toNat = 4) :
    int80 kernel regs = ([.mmap regs.eax regs.ebx regs.ecx.toUInt8],
      (kernel.mmap regs.eax regs.ebx regs.ecx.toUInt8).map fun base => { regs with eax := base }) := by
  simp only [int80, syscall, number]
  cases kernel.mmap regs.eax regs.ebx regs.ecx.toUInt8 <;> rfl

theorem int80_fork (kernel : Kernel) (regs : Regs) (number : regs.edx.toNat = 5) :
    int80 kernel regs = ([.fork], kernel.fork.map fun pid => { regs with eax := pid }) := by
  simp only [int80, syscall, number]
  cases kernel.fork <;> rfl

theorem int80_exec (kernel : Kernel) (regs : Regs) (number : regs.edx.toNat = 6) :
    int80 kernel regs = ([.exec regs.eax], (none : Option Unit).map fun _ => regs) := by
  simp only [int80, syscall, number]
  cases kernel.exec regs.eax <;> rfl

theorem outcome_iff {α : Type} (outcome : Option α) (result : Option UInt32) (eax : α → UInt32)
    (same : Prop)
    (carried : ∀ a, outcome = some a → ∀ value, result = some value → eax a = value) :
    (∀ a, outcome = some a → (∀ value, result = some value → eax a = value) ∧ same) ↔
      (outcome.isSome → same) := by
  constructor
  · intro all returns
    rcases Option.isSome_iff_exists.mp returns with ⟨a, shape⟩
    exact (all a shape).2
  · intro kept a shape
    exact ⟨carried a shape, kept (by rw [shape]; rfl)⟩

theorem agrees_open (kernel : Kernel) (path mode : UInt32) (s : User) (back : UInt32)
    (entered : Entered s (Request.open path mode).words back) :
    Agrees kernel (.open path mode) s back ↔ Fits kernel s.regs.ebx (.open path mode) := by
  have first := entered.args 0 path rfl
  have second := entered.args 1 _ rfl
  have regs : loadRegs s [(.ebx, 8), (.eax, 4)] =
      { s.regs with ebx := mode.toUInt8.toUInt32, eax := path } := by
    simp only [loadRegs, List.foldl_cons, List.foldl_nil, setReg]
    rw [← first, ← second]
    rfl
  have made := int80_open kernel
    { s.regs with ebx := mode.toUInt8.toUInt32, eax := path, edx := 0, esp := s.regs.esp - 4 } rfl
  dsimp only at made
  rw [UInt8.toUInt8_toUInt32] at made
  rw [agrees_iff kernel _ s back _ 0 rfl entered.back _ regs ⟨rfl, rfl, rfl⟩ _ _ _ made,
    and_iff_right (by rfl), outcome_iff]
  · exact imp_congr_right fun _ => eq_comm
  · intro fd returns value result
    have same : (kernel.open_ path mode.toUInt8).map UInt8.toUInt32 = some value := result
    rw [returns] at same
    exact Option.some.inj same

theorem loadRegs_fd (s : User) (fd buf count back : UInt32)
    (entered : Entered s [fd, buf, count] back) :
    loadRegs s [(.ecx, 12), (.eax, 8), (.ebx, 4)] =
      { s.regs with ecx := count, eax := buf, ebx := fd } := by
  have first := entered.args 0 fd rfl
  have second := entered.args 1 buf rfl
  have third := entered.args 2 count rfl
  simp only [loadRegs, List.foldl_cons, List.foldl_nil, setReg]
  rw [← first, ← second, ← third]
  rfl

theorem agrees_write (kernel : Kernel) (fd buf count : UInt32) (s : User) (back : UInt32)
    (entered : Entered s (Request.write fd buf count).words back) :
    Agrees kernel (.write fd buf count) s back ↔ Fits kernel s.regs.ebx (.write fd buf count) := by
  have regs := loadRegs_fd s _ _ _ back entered
  have made := int80_write kernel
    { s.regs with ecx := count, eax := buf, ebx := fd.toUInt8.toUInt32, edx := 1
                  esp := s.regs.esp - 4 } rfl
  dsimp only at made
  rw [UInt8.toUInt8_toUInt32] at made
  rw [agrees_iff kernel _ s back _ 1 rfl entered.back _ regs ⟨rfl, rfl, rfl⟩ _ _ _ made,
    and_iff_right (by rfl), outcome_iff]
  · exact imp_congr_right fun _ => eq_comm
  · intro _ _ _ result
    cases result

theorem toUInt8_eq_iff (count : UInt32) : count.toUInt8.toUInt32 = count ↔ count < 256 := by
  rw [← UInt32.toNat_inj, UInt8.toNat_toUInt32, UInt32.toNat_toUInt8, UInt32.lt_iff_toNat_lt]
  have bound : (256 : UInt32).toNat = 256 := rfl
  omega

theorem agrees_read (kernel : Kernel) (fd buf count : UInt32) (s : User) (back : UInt32)
    (entered : Entered s (Request.read fd buf count).words back) :
    Agrees kernel (.read fd buf count) s back ↔ Fits kernel s.regs.ebx (.read fd buf count) := by
  have regs := loadRegs_fd s _ _ _ back entered
  have made := int80_read kernel
    { s.regs with ecx := count.toUInt8.toUInt32, eax := buf, ebx := fd, edx := 2
                  esp := s.regs.esp - 4 } rfl
  dsimp only at made
  have call : Call.read fd.toUInt8 buf count.toUInt8.toUInt32 = (Request.read fd buf count).call ↔
      count < 256 := by
    rw [Request.call, Call.read.injEq, toUInt8_eq_iff]
    exact ⟨fun same => same.2.2, fun small => ⟨rfl, rfl, small⟩⟩
  rw [agrees_iff kernel _ s back _ 2 rfl entered.back _ regs ⟨rfl, rfl, rfl⟩ _ _ _ made, call, Fits]
  refine and_congr_right fun small => ?_
  rw [(toUInt8_eq_iff count).mpr small]
  refine forall₂_congr fun result returns => and_congr ?_ eq_comm
  have value : kernel.result (Request.read fd buf count).call = some result.toUInt32 := by
    change (kernel.read fd.toUInt8 buf count).map UInt8.toUInt32 = _
    rw [returns]
    rfl
  rw [value]
  exact ⟨fun all => (all _ rfl).symm, fun same _ shape => (Option.some.inj shape).symm.trans same |>.symm⟩

theorem agrees_mmap (kernel : Kernel) (hint length flags : UInt32) (s : User) (back : UInt32)
    (entered : Entered s (Request.mmap hint length flags).words back) :
    Agrees kernel (.mmap hint length flags) s back ↔
      Fits kernel s.regs.ebx (.mmap hint length flags) := by
  have first := entered.args 0 hint rfl
  have second := entered.args 1 length rfl
  have third := entered.args 2 _ rfl
  have regs : loadRegs s [(.ecx, 12), (.ebx, 8), (.eax, 4)] =
      { s.regs with ecx := flags.toUInt8.toUInt32, ebx := length, eax := hint } := by
    simp only [loadRegs, List.foldl_cons, List.foldl_nil, setReg]
    rw [← first, ← second, ← third]
    rfl
  have made := int80_mmap kernel
    { s.regs with ecx := flags.toUInt8.toUInt32, ebx := length, eax := hint, edx := 4
                  esp := s.regs.esp - 4 } rfl
  dsimp only at made
  rw [UInt8.toUInt8_toUInt32] at made
  rw [agrees_iff kernel _ s back _ 4 rfl entered.back _ regs ⟨rfl, rfl, rfl⟩ _ _ _ made,
    and_iff_right (by rfl), outcome_iff]
  · exact imp_congr_right fun _ => eq_comm
  · intro base returns value result
    exact Option.some.inj (returns.symm.trans result)

theorem agrees_fork (kernel : Kernel) (s : User) (back : UInt32)
    (entered : Entered s Request.fork.words back) : Agrees kernel .fork s back := by
  rw [agrees_iff kernel _ s back [] 5 rfl entered.back s.regs rfl ⟨rfl, rfl, rfl⟩ _ _ _
    (int80_fork _ _ rfl)]
  refine ⟨rfl, ?_⟩
  intro pid returns
  refine ⟨?_, rfl⟩
  intro value result
  exact Option.some.inj (returns.symm.trans result)

theorem agrees_exec (kernel : Kernel) (binary : UInt32) (s : User) (back : UInt32)
    (entered : Entered s (Request.exec binary).words back) : Agrees kernel (.exec binary) s back := by
  have first := entered.args 0 binary rfl
  have regs : loadRegs s [(.eax, 4)] = { s.regs with eax := binary } := by
    simp only [loadRegs, List.foldl_cons, List.foldl_nil, setReg]
    rw [← first]
    rfl
  rw [agrees_iff kernel _ s back _ 6 rfl entered.back _ regs ⟨rfl, rfl, rfl⟩ _ _ _
    (int80_exec _ _ rfl)]
  refine ⟨rfl, ?_⟩
  intro _ returns
  cases returns

/-- Prototype, stub and dispatcher agree on a call exactly when the stub's use of `ebx` goes
unnoticed and, for `read`, the count fits a byte and the dropped result is the buffer's address. -/
theorem stub_agrees_iff (kernel : Kernel) (request : Request) (s : User) (back : UInt32)
    (entered : Entered s request.words back) :
    Agrees kernel request s back ↔ Fits kernel s.regs.ebx request := by
  match request, entered with
  | .open path mode, entered => exact agrees_open kernel path mode s back entered
  | .write fd buf count, entered => exact agrees_write kernel fd buf count s back entered
  | .read fd buf count, entered => exact agrees_read kernel fd buf count s back entered
  | .mmap hint length flags, entered => exact agrees_mmap kernel hint length flags s back entered
  | .fork, entered => exact iff_of_true (agrees_fork kernel s back entered) trivial
  | .exec binary, entered => exact iff_of_true (agrees_exec kernel binary s back entered) trivial

def idleKernel : Kernel where
  open_ _ _ := some 3
  write _ _ _ := some ()
  read _ _ _ := some 0
  clearscreen := some ()
  mmap _ _ _ := some 0x10000000
  fork := some 2
  exec _ := some ()

def sampleUser (ebx first second : UInt32) : User where
  regs := ⟨0, 0, 0, ebx, 0x1000, 0, 0, 0⟩
  mem a := if a = 0x1000 then 0x40 else if a = 0x1004 then first else if a = 0x1008 then second else 0
  eip := 0

theorem sampleUser_entered (ebx first second : UInt32) :
    Entered (sampleUser ebx first second) [first, second] 0x40 where
  back := rfl
  args := by
    intro i word here
    match i with
    | 0 =>
        cases here
        rfl
    | 1 =>
        cases here
        rfl
    | i + 2 => simp at here

theorem open_same_ebx_agrees :
    Entered (sampleUser 1 0x2000 1) [0x2000, 1] 0x40 ∧
      Agrees idleKernel (.open 0x2000 1) (sampleUser 1 0x2000 1) 0x40 :=
  ⟨sampleUser_entered 1 0x2000 1,
    (stub_agrees_iff idleKernel (.open 0x2000 1) _ 0x40 (sampleUser_entered 1 0x2000 1)).mpr
      fun _ => rfl⟩

theorem open_clobbers_ebx :
    ¬∀ (kernel : Kernel) (request : Request) (s : User) (back : UInt32),
      Entered s request.words back → Agrees kernel request s back := by
  intro claim
  have agrees := claim idleKernel (.open 0x2000 1) (sampleUser 5 0x2000 1) 0x40
    (sampleUser_entered 5 0x2000 1)
  have fits := (agrees_open idleKernel 0x2000 1 _ 0x40 (sampleUser_entered 5 0x2000 1)).mp agrees
  exact absurd (fits rfl) (by decide)

end TitorOS.Barrel.Syscall
