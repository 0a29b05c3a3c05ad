import TitorOS.Lib.Run
import TitorOS.Lib.Preserve
import TitorOS.Barrel.Scheduler
import TitorOS.Barrel.Getnode

/-! Who a process is: its pid, and the descriptor table that `fd_tables` has at that pid. `fork`,
`scheduler`, `open` and `close` in one system, with the pages that the tables lie in. -/

namespace TitorOS.Barrel.Vfs

open TitorOS.Lib

section Held

variable {vol : Volume} {q : Nat}

/-- The page is in use. -/
def Held (q : Nat) (k : Kernel) : Prop := k.heap q = true

theorem kmalloc_held : Preserves (Held q) kmalloc (· ≠ q) := by
  intro k page k' held ran
  rcases Option.map_eq_some_iff.mp ran with ⟨⟨taken, heap⟩, allocated, same⟩
  cases same
  rcases kmalloc_spec _ _ _ allocated with ⟨_, free, _⟩
  refine ⟨kmalloc_keeps _ _ _ _ allocated held, ?_⟩
  intro equal
  rw [equal] at free
  exact absurd (held.symm.trans free) (by decide)

theorem kfree_held {page : Nat} (other : page ≠ q) :
    Preserves (Held q) (kfree page) fun _ => True := by
  apply Preserves.update
  intro k held
  exact (Function.update_of_ne other.symm _ _).trans held

theorem memCopy_held : Preserves (Held q) memCopy fun _ => True := by
  intro k a k' held ran
  rcases Option.map_eq_some_iff.mp ran with ⟨heap, copied, same⟩
  cases same
  rw [memCopy_eq _ _ copied]
  exact ⟨held, trivial⟩

theorem setNode_held (node : NodePtr) (f : Vnode → Vnode) :
    Preserves (Held q) (modify (Kernel.setNode · node f)) fun _ => True := by
  apply Preserves.update
  intro k held
  cases node with
  | root => exact held
  | dirent page slot => exact held

theorem seek_held (volume : Nat) (count : UInt32) (whence : UInt8) :
    Preserves (Held q) (seek volume count whence) fun _ => True := by
  rw [seek]
  apply Preserves.get.bind
  intro k held
  split
  · exact .failure
  · exact .store held

theorem read_held (volume : Nat) : Preserves (Held q) (read vol volume) fun _ => True := by
  rw [read]
  apply Preserves.get.bind
  intro k _
  split
  · exact .failure
  · dsimp only
    split
    · exact .pure trivial
    · exact .failure

theorem close_held (volume : Nat) : Preserves (Held q) (close volume) fun _ => True := by
  rw [close]
  apply Preserves.get.bind
  intro k held
  split
  · exact .failure
  · split
    · exact .failure_bind
    · exact .store held

theorem newVnode_held (parent : NodePtr) (name : List Char) :
    Preserves (Held q) (newVnode parent name) fun _ => True := by
  rw [newVnode]
  apply Preserves.get.bind
  intro k _
  dsimp only
  split
  · exact .failure
  · split
    · exact .failure_bind
    · apply (setNode_held _ _).bind
      intro _ _
      apply (setNode_held _ _).bind
      intro _ _
      apply kmalloc_held.bind
      intro page _
      apply (setNode_held _ _).bind
      intro _ _
      apply (setNode_held _ _).bind
      intro _ _
      exact .pure trivial

section Drivers

variable {getnode : List Char → Op NodePtr}
  (inner : ∀ path, Preserves (Held q) (getnode path) fun _ => True)

include inner

theorem open_held (path : List Char) (mode : UInt8) :
    Preserves (Held q) (open_ getnode path mode) fun _ => True := by
  rw [open_]
  apply Preserves.get.bind
  intro k _
  split
  case' isTrue =>
    apply kmalloc_held.bind
    intro page _
    refine .modify_bind (fun _ held => held) ?_
  -- what is left is the same with a table and without one
  all_goals
    apply (inner path).bind
    intro vnode _
    apply Preserves.get.bind
    intro k held
    split
    · exact .failure
    · split
      · exact .failure
      · exact .set_bind held (.pure trivial)

theorem getInode_held (vnode : NodePtr) :
    Preserves (Held q) (getInode vol getnode vnode) (·.1 ≠ q) := by
  rw [getInode]
  apply Preserves.get.bind
  intro k _
  apply kmalloc_held.bind
  intro inodeTable other
  apply (open_held inner volumePath 1).bind
  intro volume _
  apply (seek_held volume _ 0).bind
  intro _ _
  apply (read_held volume).bind
  intro table _
  apply kmalloc_held.bind
  intro inode fresh
  apply memCopy_held.bind
  intro _ _
  apply (kfree_held other).bind
  intro _ _
  apply (close_held volume).bind
  intro _ _
  exact .pure fresh

theorem enumEntry_held (vnode : NodePtr) (entry : Dirent) :
    Preserves (Held q) (enumEntry vol getnode vnode entry) fun _ => True := by
  rw [enumEntry]
  apply memCopy_held.bind
  intro _ _
  apply (newVnode_held vnode _).bind
  intro node _
  apply (setNode_held node _).bind
  intro _ _
  apply (getInode_held inner node).bind
  intro inode _
  exact setNode_held node _

theorem enumEntries_held (vnode : NodePtr) (block : Buffer) (rounds offset : Nat) :
    Preserves (Held q) (enumEntries vol getnode vnode block rounds offset) fun _ => True := by
  induction rounds generalizing offset with
  | zero => exact .failure
  | succ rounds ih =>
      rw [enumEntries]
      dsimp only
      split
      · exact .failure_bind
      · split
        · exact .pure trivial
        · split
          · exact .failure_bind
          · apply Preserves.get.bind
            intro k _
            split
            · apply (enumEntry_held inner vnode _).bind
              intro _ _
              exact ih _
            · exact ih _

theorem ext2Enum_held (vnode : NodePtr) :
    Preserves (Held q) (ext2Enum vol getnode vnode) fun _ => True := by
  rw [ext2Enum]
  apply (getInode_held inner vnode).bind
  intro inode other
  apply kmalloc_held.bind
  intro _ _
  apply (open_held inner volumePath 1).bind
  intro volume _
  apply (seek_held volume _ 0).bind
  intro _ _
  apply (read_held volume).bind
  intro block _
  apply kmalloc_held.bind
  intro name fresh
  apply (enumEntries_held inner vnode block 512 0).bind
  intro _ _
  apply (setNode_held vnode _).bind
  intro _ _
  apply (kfree_held fresh).bind
  intro _ _
  apply (kfree_held other).bind
  intro _ _
  exact close_held volume

theorem enumdir_held (vnode : NodePtr) :
    Preserves (Held q) (enumdir vol getnode vnode) fun _ => True := by
  rw [enumdir]
  apply Preserves.get.bind
  intro k _
  split
  · exact .modify_bind (fun _ held => held) (ext2Enum_held inner vnode)
  · exact .pure trivial

end Drivers

theorem navigate_held {enum : NodePtr → Op Unit}
    (looks : ∀ vnode, Preserves (Held q) (enum vnode) fun _ => True) (vnode : NodePtr)
    (part : List Char) (tries i : Nat) :
    Preserves (Held q) (navigate enum vnode part tries i) fun _ => True := by
  induction tries generalizing i with
  | zero => exact .failure
  | succ tries ih =>
      rw [navigate]
      apply Preserves.get.bind
      intro k _
      split
      · exact .failure_bind
      · apply (looks vnode).bind
        intro _ _
        apply Preserves.get.bind
        intro k _
        dsimp only
        split
        · exact .pure trivial
        · split
          · exact .failure
          · exact ih (i + 1)

theorem descend_held {enum : NodePtr → Op Unit}
    (looks : ∀ vnode, Preserves (Held q) (enum vnode) fun _ => True) (path : List Char)
    (rounds : Nat) (currentpath : List Char) (pathpart : Option (List Char)) (vnode : NodePtr) :
    Preserves (Held q) (descend enum path rounds currentpath pathpart vnode) fun _ => True := by
  induction rounds generalizing currentpath pathpart vnode with
  | zero => exact .failure
  | succ rounds ih =>
      cases pathpart with
      | none =>
          rw [descend]
          split
          · exact .pure trivial
          · exact .failure
      | some part =>
          rw [descend]
          split
          · exact .pure trivial
          · apply (navigate_held looks vnode part 256 0).bind
            intro node _
            refine .modify_bind (fun _ held => held) ?_
            apply Preserves.get.bind
            intro k _
            exact ih _ _ node

theorem getnode_held (depth : Nat) (path : List Char) :
    Preserves (Held q) (getnode vol depth path) fun _ => True := by
  induction depth generalizing path with
  | zero => exact .failure
  | succ depth ih =>
      rw [getnode]
      apply kmalloc_held.bind
      intro currentpath other
      apply kmalloc_held.bind
      intro pathpartPage other'
      split
      · exact .failure_bind
      · refine .modify_bind (fun _ held => held) ?_
        apply Preserves.get.bind
        intro k _
        apply (descend_held (enumdir_held ih) path _ _ _ _).bind
        intro node _
        apply (kfree_held other).bind
        intro _ _
        apply (kfree_held other').bind
        intro _ _
        exact .pure trivial

end Held

end TitorOS.Barrel.Vfs

namespace TitorOS.Barrel

open TitorOS.Lib
open TitorOS.Barrel.Scheduler (Ptr Linked)

/-- `fdTables` are the pointers of `fd_tables`, by pid; `tables` the heap pages read as tables of
descriptors. -/
structure System where
  sched : Scheduler.State
  root : Vnode
  pages : Nat → Nat → Vnode
  token : Option (List Char)
  fdTables : UInt32 → Option Nat
  tables : Nat → Nat → Fd

def System.pid (s : System) (p : Ptr) : UInt32 := (s.sched.procs p).pid

/-- The table that `fd_tables` has for a process, with the page it lies in. -/
def System.tableOf (s : System) (p : Ptr) : Option (Nat × (Nat → Fd)) :=
  (s.fdTables (s.pid p)).map fun page => (page, s.tables page)

/-- What the copy of the table to `page` reads. Where there is no table that is `found`: at address
zero, if something is mapped there, or in the new page itself when the parent's pid is the
child's. -/
def System.copySource (found : Option (Nat → Fd)) (s : System) (fdTables : UInt32 → Option Nat)
    (page : Nat) : Option (Nat → Fd) :=
  match fdTables s.sched.activePid with
  | some table => if table = page then found else some (s.tables table)
  | none => found

def System.fork (found : Option (Nat → Fd)) (s : System) : Option System := do
  let (new, used) ← kmalloc s.sched.used
  let pid : UInt32 := 2
  let (page, used) ← kmalloc used
  let fdTables := Function.update s.fdTables pid (some page)
  let used ← memCopy used
  let source ← s.copySource found fdTables page
  let (_, used) ← kmalloc used
  let used ← memCopy used
  let parent := s.sched.procs s.sched.activeProc
  let procs := Function.update s.sched.procs (.heap new) ⟨pid, parent.state, parent.next⟩
  let procs := Function.update procs s.sched.activeProc { parent with next := .heap new }
  let (_, used) ← kmalloc used
  return { s with
    sched := { s.sched with procs := procs, used := used, created := .heap new :: s.sched.created }
    fdTables := fdTables
    tables := Function.update s.tables page source }

/-- What the file system sees of it. -/
def System.kernel (s : System) : Vfs.Kernel where
  root := s.root
  pages := s.pages
  heap := s.sched.used
  fds := (s.fdTables s.sched.activePid).map s.tables
  token := s.token

/-- A call on the file system by the active process. -/
def System.perform {α : Type} (op : Vfs.Op α) (s : System) : Option System := do
  let (_, k) ← op s.kernel
  let tables := match s.fdTables s.sched.activePid, k.fds with
    | some page, some table => Function.update s.tables page table
    | _, _ => s.tables
  return { s with
    sched := { s.sched with used := k.heap }
    root := k.root
    pages := k.pages
    token := k.token
    tables := tables }

/-- The check at the start of `open`. -/
def System.ensureTable (s : System) : Option System :=
  if (s.fdTables s.sched.activePid).isNone then do
    let (page, used) ← kmalloc s.sched.used
    return { s with
      sched := { s.sched with used := used }
      fdTables := Function.update s.fdTables s.sched.activePid (some page)
      tables := Function.update s.tables page fun _ => ⟨.root, 0, 0⟩ }
  else some s

inductive SystemCall where
  | fork (found : Option (Nat → Fd))
  | scheduler
  | open_ (path : List Char) (mode : UInt8)
  | close (fd : UInt8)

def System.step (vol : Vfs.Volume) (depth : Nat) (s : System) : SystemCall → Option System
  | .fork found => s.fork found
  | .scheduler => do
      let sched ← Scheduler.scheduler s.sched
      return { s with sched := sched }
  | .open_ path mode => do
      let s ← s.ensureTable
      s.perform (Vfs.open_ (Vfs.getnode vol depth) path mode)
  | .close fd => s.perform (Vfs.close fd.toNat)

/-- No process has the pid that `fork` gives away. -/
def PidFree (s : System) : SystemCall → Prop
  | .fork _ => ∀ p ∈ s.sched.members, s.pid p ≠ 2
  | _ => True

/-- After `init_vfs` and `init_scheduler`. -/
def System.boot (sched : Scheduler.State) (root : Vnode) (pages : Nat → Nat → Vnode)
    (token : Option (List Char)) (tables : Nat → Nat → Fd) : System :=
  ⟨sched, root, pages, token, fun _ => none, tables⟩

/-- Each process has a pid of its own, and each table a page of its own. -/
structure Separate (s : System) : Prop where
  linked : ∃ ring, Linked s.sched ring
  active : s.sched.activePid = s.pid s.sched.activeProc
  pids : ∀ p ∈ s.sched.members, ∀ q ∈ s.sched.members, s.pid p = s.pid q → p = q
  inUse : ∀ pid page, s.fdTables pid = some page → s.sched.used page = true
  apart : ∀ pid pid' page, s.fdTables pid = some page → s.fdTables pid' = some page → pid = pid'

/-- What a call of the active process leaves to the others. -/
structure Untouched (s t : System) : Prop where
  pids : ∀ p ∈ s.sched.members, t.pid p = s.pid p
  tables : ∀ p ∈ s.sched.members, p ≠ s.sched.activeProc → t.tableOf p = s.tableOf p

section Calls

variable {s t : System}

theorem Separate.active_member (x : Separate s) : s.sched.activeProc ∈ s.sched.members := by
  rcases x.linked with ⟨ring, linked⟩
  exact (linked.members _).mp (List.mem_of_mem_head? (by rw [linked.head]; rfl))

theorem Separate.other_pid (x : Separate s) {p : Ptr} (member : p ∈ s.sched.members)
    (other : p ≠ s.sched.activeProc) : s.pid p ≠ s.sched.activePid := by
  intro same
  rw [x.active] at same
  exact other (x.pids p member _ x.active_member same)

theorem linked_grow {sched : Scheduler.State} {ring : List Ptr} (linked : Linked sched ring)
    {used : Kheap} (grows : ∀ page, sched.used page = true → used page = true) :
    Linked { sched with used := used } ring where
  isRing := linked.isRing
  head := linked.head
  members := linked.members
  pages := by
    intro p member
    rcases linked.pages p member with ⟨page, same, inside, held⟩
    exact ⟨page, same, inside, grows page held⟩
  idle := linked.idle

theorem Separate.settle (x : Separate s) (used : Kheap)
    (sched : t.sched = { s.sched with used := used })
    (grows : ∀ page, s.sched.used page = true → used page = true)
    (others : ∀ pid, pid ≠ s.sched.activePid → t.fdTables pid = s.fdTables pid)
    (own : ∀ page, t.fdTables s.sched.activePid = some page → used page = true ∧
      ∀ pid, pid ≠ s.sched.activePid → s.fdTables pid ≠ some page)
    (contents : ∀ pid page, pid ≠ s.sched.activePid → s.fdTables pid = some page →
      t.tables page = s.tables page) : Separate t ∧ Untouched s t := by
  have pid (p : Ptr) : t.pid p = s.pid p := by
    rw [System.pid, sched]
    rfl
  have members : t.sched.members = s.sched.members := by
    rw [sched]
    rfl
  constructor
  · constructor
    · rcases x.linked with ⟨ring, linked⟩
      rw [sched]
      exact ⟨ring, linked_grow linked grows⟩
    · rw [pid, sched]
      exact x.active
    · rw [members]
      intro p first q second same
      rw [pid, pid] at same
      exact x.pids p first q second same
    · intro i page table
      rw [sched]
      by_cases active : i = s.sched.activePid
      · rw [active] at table
        exact (own page table).1
      · rw [others i active] at table
        exact grows page (x.inUse i page table)
    · intro i j page first second
      by_cases active : i = s.sched.activePid
      · by_cases active' : j = s.sched.activePid
        · rw [active, active']
        · rw [active] at first
          rw [others j active'] at second
          exact absurd second ((own page first).2 j active')
      · by_cases active' : j = s.sched.activePid
        · rw [active'] at second
          rw [others i active] at first
          exact absurd first ((own page second).2 i active)
        · rw [others i active] at first
          rw [others j active'] at second
          exact x.apart i j page first second
  · constructor
    · exact fun p _ => pid p
    · intro p member other
      have elsewhere := x.other_pid member other
      rw [System.tableOf, System.tableOf, pid, others _ elsewhere]
      cases table : s.fdTables (s.pid p) with
      | none => rfl
      | some page => rw [Option.map_some, Option.map_some, contents _ _ elsewhere table]

theorem Untouched.refl (s : System) : Untouched s s := ⟨fun _ _ => rfl, fun _ _ _ => rfl⟩

theorem Untouched.trans {u : System} (first : Untouched s u) (second : Untouched u t)
    (members : u.sched.members = s.sched.members)
    (active : u.sched.activeProc = s.sched.activeProc) : Untouched s t := by
  constructor
  · intro p member
    rw [second.pids p (members ▸ member), first.pids p member]
  · intro p member other
    rw [second.tables p (members ▸ member) (active ▸ other), first.tables p member other]

theorem Separate.perform {α : Type} {op : Vfs.Op α} (x : Separate s)
    (held : ∀ q, Preserves (Vfs.Held q) op fun _ => True) (done : s.perform op = some t) :
    Separate t ∧ Untouched s t := by
  simp only [System.perform, Option.bind_eq_bind, Option.bind_eq_some_iff, Option.pure_def,
    Option.some.injEq, Prod.exists] at done
  rcases done with ⟨a, k, ran, rfl⟩
  have grows (page : Nat) (inUse : s.sched.used page = true) : k.heap page = true :=
    (held page s.kernel a k inUse ran).1
  apply x.settle k.heap rfl grows
  · exact fun _ _ => rfl
  · intro page table
    refine ⟨grows page (x.inUse _ page table), ?_⟩
    intro pid other same
    exact other (x.apart pid _ page same table)
  · intro pid page other table
    dsimp only
    split
    · rename_i own _ mine _
      have elsewhere : page ≠ own := by
        intro same
        rw [same] at table
        exact other (x.apart pid _ own table mine)
      exact Function.update_of_ne elsewhere _ _
    · rfl

theorem Separate.ensureTable (x : Separate s) (done : s.ensureTable = some t) :
    (Separate t ∧ Untouched s t) ∧ ∃ used, t.sched = { s.sched with used := used } := by
  rw [System.ensureTable] at done
  split at done
  · simp only [Option.bind_eq_bind, Option.bind_eq_some_iff, Option.pure_def, Option.some.injEq,
      Prod.exists] at done
    rcases done with ⟨page, used, allocated, rfl⟩
    rcases kmalloc_spec _ _ _ allocated with ⟨_, free, taken⟩
    have fresh (pid : UInt32) : s.fdTables pid ≠ some page := by
      intro table
      have inUse := x.inUse pid page table
      rw [free] at inUse
      cases inUse
    refine ⟨x.settle used rfl (fun q => kmalloc_keeps _ _ _ q allocated) ?_ ?_ ?_, used, rfl⟩
    · intro pid other
      exact Function.update_of_ne other _ _
    · intro own table
      change Function.update s.fdTables s.sched.activePid (some page) s.sched.activePid = _ at table
      rw [Function.update_self, Option.some.injEq] at table
      rw [← table]
      refine ⟨?_, fun pid _ => fresh pid⟩
      rw [taken, Function.update_self]
    · intro pid q _ table
      have elsewhere : q ≠ page := by
        intro same
        rw [same] at table
        exact fresh pid table
      exact Function.update_of_ne elsewhere _ _
  · cases done
    exact ⟨⟨x, .refl s⟩, s.sched.used, rfl⟩

theorem fork_sched {found : Option (Nat → Fd)} (done : s.fork found = some t) :
    Scheduler.fork s.sched = some t.sched := by
  simp only [System.fork, Option.bind_eq_bind, Option.bind_eq_some_iff, Option.pure_def,
    Option.some.injEq, Prod.exists] at done
  rcases done with ⟨new, used₁, first, page, used₂, second, used₃, copied, source, _, dir, used₄,
    third, used₅, copied', stack, used₆, last, rfl⟩
  simp only [Scheduler.fork, first, second, copied, third, copied', last, Option.bind_eq_bind,
    Option.bind_some, Option.pure_def]

/-- The child gets the pid 2 and a page that was free; nothing else of the tables changes. -/
theorem fork_tables {found : Option (Nat → Fd)} (done : s.fork found = some t) :
    ∃ new page source, s.sched.used new = false ∧ s.sched.used page = false ∧
      t.sched.used page = true ∧ (∀ q, s.sched.used q = true → t.sched.used q = true) ∧
      t.sched.members = .idleProc :: .heap new :: s.sched.created ∧
      t.sched.activePid = s.sched.activePid ∧
      t.fdTables = Function.update s.fdTables 2 (some page) ∧
      t.tables = Function.update s.tables page source ∧
      ∀ p, t.pid p = if p = s.sched.activeProc then s.pid p
        else if p = .heap new then 2 else s.pid p := by
  simp only [System.fork, Option.bind_eq_bind, Option.bind_eq_some_iff, Option.pure_def,
    Option.some.injEq, Prod.exists] at done
  rcases done with ⟨new, used₁, first, page, used₂, second, used₃, copied, source, _, dir, used₄,
    third, used₅, copied', stack, used₆, last, rfl⟩
  rw [memCopy_eq _ _ copied] at third
  rw [memCopy_eq _ _ copied'] at last
  rcases kmalloc_spec _ _ _ first with ⟨_, free, grown⟩
  rcases kmalloc_spec _ _ _ second with ⟨_, free', grown'⟩
  have grow (q : Nat) (inUse : used₂ q = true) : used₆ q = true :=
    kmalloc_keeps _ _ _ _ last (kmalloc_keeps _ _ _ _ third inUse)
  refine ⟨new, page, source, free, ?_, ?_, ?_, rfl, rfl, rfl, rfl, ?_⟩
  · cases held : s.sched.used page with
    | false => rfl
    | true =>
        have still := kmalloc_keeps _ _ _ _ first held
        rw [free'] at still
        cases still
  · apply grow
    rw [grown', Function.update_self]
  · intro q inUse
    exact grow q (kmalloc_keeps _ _ _ _ second (kmalloc_keeps _ _ _ _ first inUse))
  · intro p
    simp only [System.pid, Function.update_apply]
    split
    · rename_i parent
      rw [parent]
    · split
      · rfl
      · rfl

theorem Separate.fork (x : Separate s) {found : Option (Nat → Fd)}
    (free : ∀ p ∈ s.sched.members, s.pid p ≠ 2) (done : s.fork found = some t) :
    Separate t ∧ Untouched s t := by
  rcases fork_tables done with ⟨new, page, source, unused, unused', inUse, grows, members, active,
    fdTables, tables, pids⟩
  rcases x.linked with ⟨ring, linked⟩
  rcases Scheduler.fork_linked _ _ ring linked (fork_sched done) with
    ⟨_, rest, y, _, _, linked', _, activeProc⟩
  have outside : Ptr.heap new ∉ s.sched.members := by
    intro member
    rcases List.mem_cons.mp member with idle | made
    · cases idle
    · rcases linked.pages _ made with ⟨q, same, _, held⟩
      cases same
      rw [unused] at held
      cases held
  have old (p : Ptr) (member : p ∈ s.sched.members) : t.pid p = s.pid p := by
    have other : p ≠ .heap new := by
      intro same
      exact outside (same ▸ member)
    rw [pids, if_neg other, ite_self]
  have child : t.pid (.heap new) = 2 := by
    have other : Ptr.heap new ≠ s.sched.activeProc := by
      intro same
      exact outside (same ▸ x.active_member)
    rw [pids, if_neg other, if_pos rfl]
  have listed (p : Ptr) : p ∈ t.sched.members ↔ p = .heap new ∨ p ∈ s.sched.members := by
    rw [members, Scheduler.State.members, List.mem_cons, List.mem_cons, List.mem_cons]
    exact or_left_comm
  have fresh (pid : UInt32) : s.fdTables pid ≠ some page := by
    intro table
    have held := x.inUse pid page table
    rw [unused'] at held
    cases held
  constructor
  · constructor
    · exact ⟨_, linked'⟩
    · rw [active, activeProc, old _ x.active_member]
      exact x.active
    · intro p first q second same
      rcases (listed p).mp first with rfl | first
      · rcases (listed q).mp second with rfl | second
        · rfl
        · rw [child, old q second] at same
          exact absurd same.symm (free q second)
      · rcases (listed q).mp second with rfl | second
        · rw [child, old p first] at same
          exact absurd same (free p first)
        · rw [old p first, old q second] at same
          exact x.pids p first q second same
    · intro pid q table
      rw [fdTables, Function.update_apply] at table
      split at table
      · cases table
        exact inUse
      · exact grows q (x.inUse pid q table)
    · intro i j q first second
      rw [fdTables, Function.update_apply] at first second
      split at first
      · cases first
        split at second
        · rename_i left right
          rw [left, right]
        · exact absurd second (fresh j)
      · split at second
        · cases second
          exact absurd first (fresh i)
        · exact x.apart i j q first second
  · constructor
    · exact old
    · intro p member _
      rw [System.tableOf, System.tableOf, old p member, fdTables,
        Function.update_of_ne (free p member), tables]
      cases table : s.fdTables (s.pid p) with
      | none => rfl
      | some q =>
          have elsewhere : q ≠ page := by
            intro same
            rw [same] at table
            exact fresh _ table
          rw [Option.map_some, Option.map_some, Function.update_of_ne elsewhere]

theorem Separate.scheduler (x : Separate s) {sched : Scheduler.State}
    (done : Scheduler.scheduler s.sched = some sched) :
    Separate { s with sched := sched } ∧ Untouched s { s with sched := sched } := by
  rcases x.linked with ⟨ring, linked⟩
  rcases Scheduler.scheduler_linked _ ring linked with ⟨u, ring', same, _, linked', _, _⟩
  cases same.symm.trans done
  rcases Option.map_eq_some_iff.mp done with ⟨p, _, rfl⟩
  constructor
  · exact ⟨⟨ring', linked'⟩, rfl, x.pids, x.inUse, x.apart⟩
  · exact ⟨fun _ _ => rfl, fun _ _ _ => rfl⟩

theorem Separate.step {vol : Vfs.Volume} {depth : Nat} (x : Separate s) {c : SystemCall}
    (free : PidFree s c) (done : s.step vol depth c = some t) : Separate t ∧ Untouched s t := by
  cases c with
  | fork found => exact x.fork free done
  | scheduler =>
      rcases Option.bind_eq_some_iff.mp done with ⟨sched, ran, same⟩
      cases same
      exact x.scheduler ran
  | open_ path mode =>
      rcases Option.bind_eq_some_iff.mp done with ⟨u, ensured, ran⟩
      rcases x.ensureTable ensured with ⟨⟨y, first⟩, used, sched⟩
      have held (q : Nat) : Preserves (Vfs.Held q)
          (Vfs.open_ (Vfs.getnode vol depth) path mode) fun _ => True :=
        Vfs.open_held (Vfs.getnode_held depth) path mode
      rcases y.perform held ran with ⟨z, second⟩
      refine ⟨z, first.trans second ?_ ?_⟩
      · rw [sched]
        rfl
      · rw [sched]
  | close fd => exact x.perform (fun q => Vfs.close_held fd.toNat) done

end Calls

theorem boot_separate {used : Kheap} {sched : Scheduler.State}
    (start : Scheduler.initScheduler used = some sched) (root : Vnode) (pages : Nat → Nat → Vnode)
    (token : Option (List Char)) (tables : Nat → Nat → Fd) :
    Separate (System.boot sched root pages token tables) := by
  have linked := Scheduler.initScheduler_linked used sched start
  simp only [Scheduler.initScheduler, Option.bind_eq_bind, Option.bind_eq_some_iff,
    Option.pure_def, Option.some.injEq, Prod.exists] at start
  rcases start with ⟨page, used₁, _, stack, used₂, _, rfl⟩
  constructor
  · exact linked
  · rfl
  · intro p first q second same
    simp only [System.boot, Scheduler.State.members, List.mem_cons, List.not_mem_nil,
      or_false] at first second
    rcases first with rfl | rfl
    · rcases second with rfl | rfl
      · rfl
      · simp [System.boot, System.pid] at same
    · rcases second with rfl | rfl
      · simp [System.boot, System.pid] at same
      · rfl
  · intro pid q table
    cases table
  · intro i j q table
    cases table

/-- As long as `fork` is only called while the pid it gives away is free, the processes of the ring
have different pids, and no call of one process changes the table of another. -/
theorem identity_run (vol : Vfs.Volume) (depth : Nat) {used : Kheap} {sched : Scheduler.State}
    (start : Scheduler.initScheduler used = some sched) (root : Vnode) (pages : Nat → Nat → Vnode)
    (token : Option (List Char)) (tables : Nat → Nat → Fd) {s : System}
    (run : Run (System.step vol depth) PidFree (System.boot sched root pages token tables) s) :
    (∃ ring, Linked s.sched ring ∧ (ring.map s.pid).Nodup) ∧
      ∀ c t, PidFree s c → s.step vol depth c = some t → Untouched s t := by
  have x : Separate s := by
    apply run.invariant Separate (boot_separate start root pages token tables)
    intro t c u inv free done
    exact (inv.step free done).1
  constructor
  · rcases x.linked with ⟨ring, linked⟩
    refine ⟨ring, linked, ?_⟩
    apply List.Nodup.map_on _ linked.isRing.nodup
    intro p first q second same
    exact x.pids p ((linked.members p).mp first) q ((linked.members q).mp second) same
  · intro c t free done
    exact (x.step free done).2

instance (s : System) (c : SystemCall) : Decidable (PidFree s c) :=
  match c with
  | .fork _ => inferInstanceAs (Decidable (∀ p ∈ s.sched.members, s.pid p ≠ 2))
  | .scheduler => inferInstanceAs (Decidable True)
  | .open_ _ _ => inferInstanceAs (Decidable True)
  | .close _ => inferInstanceAs (Decidable True)

/-- A volume that nothing is read from. -/
def emptyVolume : Vfs.Volume :=
  ⟨1, 128, fun _ => 0, 0, fun _ _ => 0, Vfs.one_inode_groups, Vfs.small_inodes⟩

def sampleBoot (sched : Scheduler.State) : System :=
  .boot sched ⟨[], Vfs.DIRECTORY, 0, .tmpfs, 0, 0, 0⟩ (fun _ _ => Vfs.blankNode) none
    fun _ _ => ⟨.root, 0, 0⟩

/-- The mode of a process's first descriptor. -/
def firstMode (s : System) (p : Ptr) : Option UInt8 := (s.tableOf p).map fun table => (table.2 0).mode

theorem first_child_separate :
    ∃ sched s t, Scheduler.initScheduler (.low 0) = some sched ∧
      Run (System.step emptyVolume 1) PidFree (sampleBoot sched) s ∧
      s.step emptyVolume 1 (.close 0) = some t ∧
      (∃ ring, Linked s.sched ring ∧ (ring.map s.pid).Nodup) ∧ Untouched s t ∧
      firstMode s (.heap 3) = some 1 ∧ firstMode t (.heap 3) = some 0 := by
  have check : (Scheduler.initScheduler (.low 0)).any (fun sched =>
      (runList (fun s c => if PidFree s c then s.step emptyVolume 1 c else none) (sampleBoot sched)
        [.scheduler, .open_ [] 1, .fork none, .scheduler]).any (fun s =>
          firstMode s (.heap 3) = some 1 ∧ (s.step emptyVolume 1 (.close 0)).any (fun t =>
            firstMode t (.heap 3) = some 0) = true)) = true := by
    decide +kernel
  rcases (Option.any_eq_true _ _).mp check with ⟨sched, start, rest⟩
  rcases (Option.any_eq_true _ _).mp rest with ⟨s, sample, facts⟩
  rcases of_decide_eq_true facts with ⟨before, closes⟩
  rcases (Option.any_eq_true _ _).mp closes with ⟨t, done, after⟩
  have run : Run (System.step emptyVolume 1) PidFree (sampleBoot sched) s := .of_guarded _ sample
  rcases identity_run emptyVolume 1 start _ _ _ _ run with ⟨apart, calls⟩
  exact ⟨sched, s, t, start, run, done, apart, calls (.close 0) t trivial done, before,
    of_decide_eq_true after⟩

theorem second_child_same_pid :
    ∃ sched s t, Scheduler.initScheduler (.low 0) = some sched ∧
      Run (System.step emptyVolume 1) anyStep (sampleBoot sched) s ∧
      s.step emptyVolume 1 (.fork none) = some t ∧
      (.heap 3 ∈ t.sched.members ∧ .heap 7 ∈ t.sched.members ∧ t.pid (.heap 3) = t.pid (.heap 7)) ∧
      .heap 3 ∈ s.sched.members ∧ s.sched.activeProc = .heap 0 ∧
      t.tableOf (.heap 3) ≠ s.tableOf (.heap 3) := by
  have check : (Scheduler.initScheduler (.low 0)).any (fun sched =>
      (runList (System.step emptyVolume 1) (sampleBoot sched)
        [.scheduler, .open_ [] 1, .fork none, .close 0]).any (fun s =>
          .heap 3 ∈ s.sched.members ∧ s.sched.activeProc = .heap 0 ∧
            firstMode s (.heap 3) = some 1 ∧ (s.step emptyVolume 1 (.fork none)).any (fun t =>
              .heap 3 ∈ t.sched.members ∧ .heap 7 ∈ t.sched.members ∧
                t.pid (.heap 3) = t.pid (.heap 7) ∧ firstMode t (.heap 3) = some 0) = true)) =
      true := by
    decide +kernel
  rcases (Option.any_eq_true _ _).mp check with ⟨sched, start, rest⟩
  rcases (Option.any_eq_true _ _).mp rest with ⟨s, sample, facts⟩
  rcases of_decide_eq_true facts with ⟨member, active, before, forks⟩
  rcases (Option.any_eq_true _ _).mp forks with ⟨t, done, result⟩
  rcases of_decide_eq_true result with ⟨first, second, same, after⟩
  have run : Run (System.step emptyVolume 1) anyStep (sampleBoot sched) s :=
    .of_runList _ (fun _ _ _ => trivial) sample
  refine ⟨sched, s, t, start, run, done, ⟨first, second, same⟩, member, active, ?_⟩
  intro equal
  rw [firstMode, equal] at after
  rw [firstMode, after] at before
  cases before

end TitorOS.Barrel
