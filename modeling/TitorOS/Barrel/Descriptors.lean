import TitorOS.Barrel.LookupCost

/-! The descriptors of one process: which of them `open` hands out, whatever the lookups open and
close in the same table meanwhile, and how many it must find free. -/

namespace TitorOS.Barrel.Vfs

open TitorOS.Lib

/-- `held` lists what `open` has returned and `close` has not been given since. -/
structure Process where
  kernel : Kernel
  held : List Nat

inductive FdCall where
  | open_ (path : List Char) (mode : UInt8)
  | close (fd : Nat)
  deriving DecidableEq

def fdStep (vol : Volume) (depth : Nat) (s : Process) : FdCall → Option Process
  | .open_ path mode =>
      (open_ (getnode vol (depth + 2)) path mode s.kernel).map fun (fd, k) => ⟨k, fd :: s.held⟩
  | .close fd => (close fd s.kernel).map fun (_, k) => ⟨k, s.held.erase fd⟩

structure Lowest (held : List Nat) (i : Nat) : Prop where
  inside : i < FD_TABLE_SIZE
  fresh : i ∉ held
  first : ∀ j < i, j ∈ held

/-- What a call does to the table: `open` adds the lowest descriptor, and every other one keeps
its node, mode and position. -/
def Allocates (s : Process) : FdCall → Process → Prop
  | .open_ _ _, t => ∃ i, t.held = i :: s.held ∧ Lowest s.held i ∧
      ∀ j ≠ i, t.kernel.table j = s.kernel.table j
  | .close fd, t => fd ∈ s.held ∧ t.held = s.held.erase fd ∧
      ∀ j ≠ fd, t.kernel.table j = s.kernel.table j

/-- The same, but a slot that is not held need only keep its mode. -/
def AllocatesHeld (s : Process) : FdCall → Process → Prop
  | .open_ _ _, t => ∃ i, t.held = i :: s.held ∧ Lowest s.held i ∧ ∀ j ≠ i,
      (t.kernel.table j).mode = (s.kernel.table j).mode ∧
        (j ∈ s.held → t.kernel.table j = s.kernel.table j)
  | .close fd, t => Allocates s (.close fd) t

/-- The mode byte marks the slot as used. -/
def Marked (_ : Process) : FdCall → Prop
  | .open_ _ mode => mode ≠ 0
  | .close _ => True

/-- The lookup opens nothing itself: the path comes by no ext2 directory. -/
def QuietCall (s : Process) : FdCall → Prop
  | .open_ path _ => QuietPath s.kernel path
  | .close _ => True

section Allocation

variable {vol : Volume} {depth : Nat} {s t : Process}

structure Holding (s : Process) : Prop where
  tree : ∃ nodes, Tree s.kernel nodes
  nodup : s.held.Nodup
  held : ∀ i, i ∈ s.held ↔ (s.kernel.table i).mode ≠ 0

/-- What an `open` that returns has done. -/
structure OpenedAt (s : Process) (mode : UInt8) (i : Nat) (t : Process) : Prop where
  tree : ∃ nodes, Tree t.kernel nodes
  held : t.held = i :: s.held
  lowest : Lowest s.held i
  entry : (t.kernel.table i).mode = mode
  others : ∀ j ≠ i, (t.kernel.table j).mode = (s.kernel.table j).mode ∧
    (j ∈ s.held → t.kernel.table j = s.kernel.table j)

theorem Holding.open_ {path : List Char} {mode : UInt8} (holding : Holding s)
    (ran : fdStep vol depth s (.open_ path mode) = some t) : ∃ i, OpenedAt s mode i t := by
  obtain ⟨⟨i, k'⟩, opened, rfl⟩ := Option.map_eq_some_iff.mp ran
  obtain ⟨nodes, tree⟩ := holding.tree
  obtain ⟨k₁, nodes', node, grown, _, first, same⟩ := tree.open_grown opened
  have table : k'.table = Function.update k₁.table i ⟨node, mode, 0⟩ := by
    rw [same]
    rfl
  -- the lookup has left every mode as it was
  have modes (j : Nat) : (k₁.table j).mode = (s.kernel.table j).mode := by
    by_cases free : (s.kernel.table j).mode = 0
    · rw [free, grown.closed j free]
    · rw [grown.kept j free]
  have used (j : Nat) : modeUsed k₁.table j = true ↔ j ∈ s.held := by
    rw [holding.held, modeUsed, modes, decide_eq_true_iff]
  refine ⟨i, ⟨nodes', ?_⟩, rfl, ⟨(firstFree_some first).1, ?_, ?_⟩, ?_, ?_⟩
  · refine grown.tree.congr (by rw [same]) (by rw [same]) ?_
    rw [same]
    exact grown.tree.used
  · rw [← used, (firstFree_some first).2]
    decide
  · intro j below
    exact (used j).mp (firstFree_below first below)
  · rw [table, Function.update_self]
  · intro j other
    rw [table, Function.update_of_ne other]
    refine ⟨modes j, ?_⟩
    intro member
    exact grown.kept j ((holding.held j).mp member)

theorem Holding.opened {mode : UInt8} {i : Nat} (holding : Holding s) (marked : mode ≠ 0)
    (opened : OpenedAt s mode i t) : Holding t where
  tree := opened.tree
  nodup := by
    rw [opened.held]
    exact List.nodup_cons.mpr ⟨opened.lowest.fresh, holding.nodup⟩
  held j := by
    rw [opened.held, List.mem_cons]
    by_cases new : j = i
    · rw [new, opened.entry]
      exact iff_of_true (.inl rfl) marked
    · rw [(opened.others j new).1, holding.held]
      exact or_iff_right new

theorem Holding.close_ {fd : Nat} (holding : Holding s)
    (ran : fdStep vol depth s (.close fd) = some t) :
    Holding t ∧ Allocates s (.close fd) t := by
  obtain ⟨⟨_, k'⟩, closed, rfl⟩ := Option.map_eq_some_iff.mp ran
  obtain ⟨used, same⟩ := close_ran closed
  have table : k'.table = Function.update s.kernel.table fd
      { s.kernel.table fd with mode := 0 } := by
    rw [same]
    rfl
  refine ⟨⟨?_, holding.nodup.erase fd, ?_⟩, (holding.held fd).mpr used, rfl, ?_⟩
  · obtain ⟨nodes, tree⟩ := holding.tree
    refine ⟨nodes, tree.congr (by rw [same]) (by rw [same]) ?_⟩
    rw [same]
    exact tree.used
  · intro j
    rw [holding.nodup.mem_erase_iff, holding.held, table]
    by_cases shut : j = fd
    · rw [shut, Function.update_self]
      exact iff_of_false (fun h => h.1 rfl) (fun h => h rfl)
    · rw [Function.update_of_ne shut]
      exact and_iff_right shut
  · intro j other
    rw [table, Function.update_of_ne other]

theorem QuietPath.congr {k k' : Kernel} {path : List Char} (quiet : QuietPath k path)
    (root : k'.root = k.root) (pages : k'.pages = k.pages) : QuietPath k' path := by
  rcases quiet with ⟨parts, proper, same, there⟩
  refine ⟨parts, proper, same, ?_⟩
  rw [treeNode_congr root pages]
  exact there

theorem QuietPath.openEntry_others {k k' : Kernel} {path : List Char} {mode : UInt8} {i : Nat}
    (quiet : QuietPath k path)
    (ran : openEntry (getnode vol (depth + 2)) path mode k = some (i, k')) (j : Nat) (other : j ≠ i) :
    k'.table j = k.table j := by
  rw [openEntry] at ran
  rcases bind_some ran with ⟨p, k₁, found, steps⟩
  have short := (getnode_ran found).1
  rcases quiet with ⟨parts, proper, rfl, there⟩
  rcases Option.isSome_iff_exists.mp there with ⟨node, resolved⟩
  rcases (getnode_quiet_costs vol (depth + 1) short proper resolved).of_some found with
    ⟨_, _, _, _, fds⟩
  rw [get_bind, fds] at steps
  cases entries : k.fds with
  | none =>
      rw [entries] at steps
      cases steps
  | some table =>
      rw [entries] at steps
      cases first : firstFree FD_TABLE_SIZE (modeUsed table) with
      | none =>
          simp only [first] at steps
          cases steps
      | some slot =>
          simp only [first] at steps
          cases steps
          rw [Kernel.table_eq entries]
          exact Function.update_of_ne other _ _

theorem QuietPath.open_others {k k' : Kernel} {path : List Char} {mode : UInt8} {i : Nat}
    (quiet : QuietPath k path)
    (ran : open_ (getnode vol (depth + 2)) path mode k = some (i, k')) (j : Nat) (other : j ≠ i) :
    k'.table j = k.table j := by
  cases entries : k.fds with
  | some table =>
      rw [open_some (Kernel.fds_eq entries)] at ran
      exact quiet.openEntry_others ran j other
  | none =>
      rw [open_none entries] at ran
      rcases bind_some ran with ⟨page, k₁, made, steps⟩
      rcases (kmalloc_costs k).of_some made with ⟨_, _, _, _, rfl⟩
      rw [modify_bind] at steps
      refine (QuietPath.openEntry_others (quiet.congr ?_ ?_) steps j other).trans ?_
      · rfl
      · rfl
      · rw [Kernel.table, Kernel.table, entries]
        rfl

theorem Holding.step (holding : Holding s) {c : FdCall} (ran : fdStep vol depth s c = some t) :
    AllocatesHeld s c t ∧ (QuietCall s c → Allocates s c t) ∧ (Marked s c → Holding t) := by
  cases c with
  | open_ path mode =>
      obtain ⟨i, opened⟩ := holding.open_ ran
      refine ⟨⟨i, opened.held, opened.lowest, opened.others⟩, ?_,
        fun marked => holding.opened marked opened⟩
      intro quiet
      obtain ⟨⟨slot, k'⟩, entered, rfl⟩ := Option.map_eq_some_iff.mp ran
      obtain ⟨same, -⟩ := List.cons_eq_cons.mp opened.held
      exact ⟨i, opened.held, opened.lowest, fun j other =>
        quiet.open_others entered j (same ▸ other)⟩
  | close fd =>
      obtain ⟨after, allocates⟩ := holding.close_ ran
      exact ⟨allocates, fun _ => allocates, fun _ => after⟩

/-- In every run of opens and closes in which every mode byte marks its slot, the descriptors held
are distinct, and the next call, of whatever mode, hands out and takes back the descriptor it
should; if its lookup opens nothing, every other slot stays as it was. -/
theorem marked_run_allocates (vol : Volume) (depth : Nat) (boot : Kernel) (nodes : Nat → Prop)
    (booted : Boot boot nodes) (s : Process)
    (run : Run (fdStep vol depth) Marked ⟨boot, []⟩ s) :
    s.held.Nodup ∧ ∀ c t, fdStep vol depth s c = some t →
      AllocatesHeld s c t ∧ (QuietCall s c → Allocates s c t) := by
  have start : Holding ⟨boot, []⟩ :=
    ⟨⟨nodes, booted.tree⟩, List.nodup_nil, fun i => by simp [booted.closed i]⟩
  have holding : Holding s := by
    refine run.invariant Holding start ?_
    intro t c u holding marked ran
    exact (holding.step ran).2.2 marked
  exact ⟨holding.nodup, fun c t ran => ⟨(holding.step ran).1, (holding.step ran).2.1⟩⟩

theorem closed_descriptor_reused :
    ∃ s t, Run (fdStep (smallVolume packedBlock) 0) Marked ⟨mounted, []⟩ s ∧ s.held = [] ∧
      fdStep (smallVolume packedBlock) 0 s (.open_ "/dev".toList 2) = some t ∧ t.held = [0] ∧
      Allocates s (.open_ "/dev".toList 2) t := by
  have runs : ((runList (fdStep (smallVolume packedBlock) 0) ⟨mounted, []⟩
      [.open_ "/mnt/a".toList 1, .close 0]).map fun s => decide (s.held = [] ∧
        (treeNode s.kernel .root ["dev".toList]).isSome ∧ (fdStep (smallVolume packedBlock) 0 s (.open_ "/dev".toList 2)).map (·.held) =
          some [0])) = some true := by
    decide +kernel
  obtain ⟨s, reached, holds⟩ := Option.map_eq_some_iff.mp runs
  obtain ⟨none, found, again⟩ := of_decide_eq_true holds
  obtain ⟨t, ran, first⟩ := Option.map_eq_some_iff.mp again
  have run : Run (fdStep (smallVolume packedBlock) 0) Marked ⟨mounted, []⟩ s := by
    refine Run.of_runList _ ?_ reached
    intro c member state
    rcases List.mem_cons.mp member with rfl | member
    · exact (by decide : (1 : UInt8) ≠ 0)
    · rw [List.mem_singleton.mp member]
      trivial
  have quiet : QuietCall s (.open_ "/dev".toList 2) := ⟨["dev".toList], by decide, rfl, found⟩
  exact ⟨s, t, run, none, ran, first,
    ((marked_run_allocates (smallVolume packedBlock) 0 mounted (· < 4) mounted_boot s run).2 _ t
      ran).2 quiet⟩

theorem unmarked_open_shared :
    ¬ ∀ (vol : Volume) (depth : Nat) (boot : Kernel) (nodes : Nat → Prop), Boot boot nodes →
      ∀ s : Process, Run (fdStep vol depth) anyStep ⟨boot, []⟩ s →
        s.held.Nodup ∧ ∀ c t, fdStep vol depth s c = some t → Allocates s c t := by
  intro claim
  have runs : ((runList (fdStep (smallVolume packedBlock) 0) ⟨mounted, []⟩
      [.open_ "/dev/nvme5".toList 0, .open_ "/dev/nvme5".toList 0]).map (·.held)) =
        some [0, 0] := by
    decide +kernel
  obtain ⟨s, reached, twice⟩ := Option.map_eq_some_iff.mp runs
  have nodup := (claim (smallVolume packedBlock) 0 mounted (· < 4) mounted_boot s
    (Run.of_runList _ (fun _ _ _ => trivial) reached)).1
  rw [twice] at nodup
  exact absurd nodup (by decide)

end Allocation

section Capacity

variable {vol : Volume} {k k' : Kernel} {nodes : Nat → Prop} {depth : Nat} {path : List Char}

/-- The same state with every descriptor free. -/
def Kernel.unopened (k : Kernel) : Kernel :=
  { k with fds := k.fds.map fun table i => { table i with mode := 0 } }

theorem unopened_none (fds : k.fds = none) : k.unopened = k := by
  cases k with
  | mk root pages heap table token =>
      cases fds
      rfl

theorem unopened_fds (table : k.fds = some k.table) :
    k.unopened.fds = some k.unopened.table := by
  rw [Kernel.table, Kernel.unopened, table]
  rfl

theorem openEntry_returns {getnode : List Char → Op NodePtr} {need net : Int × Int}
    {post : NodePtr → Kernel → Prop} (mode : UInt8)
    (costs : Costs room (getnode path) k need net post) (level : net.1 = 0)
    (fds : ∀ p k', post p k' → k'.fds = some k'.table) (enough : need ≤ room k)
    (free : freeFds k ≠ 0) : openEntry getnode path mode k ≠ none := by
  rcases costs.enough enough with ⟨p, k₁, ran, left, holds⟩
  have same : (freeFds k₁ : Int) = freeFds k - net.1 := congrArg Prod.fst left
  have open_ : firstFree FD_TABLE_SIZE (modeUsed k₁.table) ≠ none := by
    rw [Ne, firstFree_none_iff, ← freeFds_eq]
    omega
  rcases Option.ne_none_iff_exists'.mp open_ with ⟨i, first⟩
  rw [openEntry, bind_run ran, get_bind]
  simp only [fds p k₁ holds, first]
  exact Option.some_ne_none _

theorem QuietPath.open_returns (quiet : QuietPath k path) (vol : Volume) (depth : Nat) (mode : UInt8)
    (table : k.fds = some k.table) (short : path.length < 4096) (enough : 2 ≤ freePages k)
    (free : freeFds k ≠ 0) : open_ (getnode vol (depth + 2)) path mode k ≠ none := by
  rcases quiet with ⟨parts, proper, rfl, there⟩
  rcases Option.isSome_iff_exists.mp there with ⟨node, found⟩
  rw [open_some table]
  refine openEntry_returns mode (getnode_quiet_costs vol (depth + 1) short proper found) rfl ?_ ?_ free
  · intro p k' ⟨_, _, same⟩
    rw [Kernel.table, same, table]
    rfl
  · rw [le_room]
    omega

theorem DiskPath.costs {dirents : List Dirent} {slot : Nat}
    (disk : DiskPath vol k path dirents slot) (tree : Tree k nodes) (depth : Nat) :
    Costs room (getnode vol (depth + 2) path) k
      (lookNeed (tablePage k) dirents.length slot + (0, 2))
      (lookNet (tablePage k) dirents.length slot) fun _ k' => k'.fds = some k'.table := by
  rcases disk with ⟨short, front, last, parent, entry, proper, rfl, found, there⟩
  refine (tree.getnode_disk_costs depth short proper found there).mono ?_
  intro _ _ beside
  exact beside.fds

theorem DiskPath.congr {dirents : List Dirent} {slot : Nat}
    (disk : DiskPath vol k path dirents slot) (root : k'.root = k.root)
    (pages : k'.pages = k.pages) : DiskPath vol k' path dirents slot := by
  rcases disk with ⟨short, front, last, parent, entry, proper, same, found, there⟩
  exact ⟨short, front, last, parent, entry, proper, same,
    (treeNode_congr root pages .root front).trans found, there.congr root pages⟩

theorem open_getnode {getnode : List Char → Op NodePtr} {mode : UInt8}
    (table : k.fds = some k.table) (returns : open_ getnode path mode k ≠ none) :
    ∃ p k', getnode path k = some (p, k') := by
  rcases Option.ne_none_iff_exists'.mp returns with ⟨⟨i, k'⟩, ran⟩
  rw [open_some table, openEntry] at ran
  rcases bind_some ran with ⟨p, k₁, found, _⟩
  exact ⟨p, k₁, found⟩

/-- For every state of a process and every path that `open` can open while no descriptor is in
use: a failure of `open` means that all of them are in use, if and only if not just one is free,
or the path comes by no ext2 directory. -/
theorem open_fails_full_iff (vol : Volume) (k : Kernel) (nodes : Nat → Prop) (path : List Char)
    (mode : UInt8) (depth : Nat) (tree : Tree k nodes)
    (resolves : open_ (getnode vol (depth + 2)) path mode k.unopened ≠ none) :
    (open_ (getnode vol (depth + 2)) path mode k = none → freeFds k = 0) ↔
      freeFds k ≠ 1 ∨ QuietPath k path := by
  cases fds : k.fds with
  | none =>
      rw [unopened_none fds] at resolves
      have eight : freeFds k = FD_TABLE_SIZE := by rw [freeFds, fds]
      refine iff_of_true (fun fails => absurd fails resolves) (.inl ?_)
      rw [eight]
      decide
  | some entries =>
      have table := Kernel.fds_eq fds
      rcases open_getnode (unopened_fds table) resolves with ⟨p, k', found⟩
      have tree' : Tree k.unopened nodes := tree.congr rfl rfl tree.used
      rcases getnode_ran found with ⟨short, room'⟩
      have enough : 2 ≤ freePages k := by
        have pages := (le_room.mp room').2
        have same : freePages k.unopened = freePages k := rfl
        omega
      constructor
      · intro full
        by_cases one : freeFds k = 1
        · right
          have returns : open_ (getnode vol (depth + 2)) path mode k ≠ none := by
            intro fails
            have := full fails
            omega
          rcases open_getnode table returns with ⟨q, k₁, ran⟩
          rcases tree.getnode_path ran with quiet | ⟨dirents, slot, disk⟩
          · exact quiet
          · rcases (disk.costs tree depth).of_some ran with ⟨need, _, _⟩
            have two : (2 : Int) ≤ freeFds k := need.1
            omega
        · exact .inl one
      · intro plenty fails
        by_contra free
        have loud : ¬ QuietPath k path := by
          intro quiet
          exact quiet.open_returns vol depth mode table short enough free fails
        rcases tree'.getnode_path found with quiet | ⟨dirents, slot, disk⟩
        · exact loud (quiet.congr rfl rfl)
        · have need := ((disk.costs tree' depth).of_some found).1
          rw [tablePage_some (unopened_fds table), ← tablePage_some table] at need
          have two : (2 : Int) ≤ freeFds k := by
            have several := plenty.resolve_right loud
            omega
          have here : DiskPath vol k path dirents slot := disk.congr rfl rfl
          rw [open_some table] at fails
          exact openEntry_returns mode (here.costs tree depth) rfl (fun _ _ there => there)
            ⟨two, need.2⟩ free fails

def opened (n : Nat) : Kernel :=
  { mounted with fds := some fun i => ⟨.dirent 1 0, if i < n then 1 else 0, 0⟩ }

theorem two_free_file_opened :
    freeFds (opened 6) = 2 ∧
      (open_ (getnode (smallVolume packedBlock) 2) "/mnt/a".toList 1 (opened 6)).isSome := by
  have tree : Tree (opened 6) (· < 4) := mounted_boot.tree.congr rfl rfl mounted_boot.tree.used
  have resolves : open_ (getnode (smallVolume packedBlock) 2) "/mnt/a".toList 1
      (opened 6).unopened ≠ none := by
    rw [← Option.isSome_iff_ne_none]
    decide +kernel
  have two : freeFds (opened 6) = 2 := by decide
  have full := (open_fails_full_iff (smallVolume packedBlock) (opened 6) (· < 4) "/mnt/a".toList 1 0
    tree resolves).mpr (.inl (by rw [two]; decide))
  refine ⟨two, Option.isSome_iff_ne_none.mpr ?_⟩
  intro fails
  have none_free := full fails
  omega

theorem one_free_file_fails :
    ¬ ∀ (vol : Volume) (boot k : Kernel) (nodes : Nat → Prop) (path : List Char) (mode : UInt8)
      (depth : Nat), Boot boot nodes → Run (call vol depth) anyStep boot k →
        open_ (getnode vol (depth + 2)) path mode k.unopened ≠ none →
          open_ (getnode vol (depth + 2)) path mode k = none → freeFds k = 0 := by
  intro full
  have runs : ((runList (call (smallVolume packedBlock) 0) mounted
      (List.replicate 7 (.open_ "/dev/nvme5".toList 1))).map fun k => decide (freeFds k = 1 ∧
        (open_ (getnode (smallVolume packedBlock) 2) "/mnt/a".toList 1 k.unopened).isSome ∧
          (open_ (getnode (smallVolume packedBlock) 2) "/mnt/a".toList 1 k).isNone)) =
            some true := by
    decide +kernel
  rcases Option.map_eq_some_iff.mp runs with ⟨k, reached, holds⟩
  rcases of_decide_eq_true holds with ⟨one, resolves, fails⟩
  have none_free := full (smallVolume packedBlock) mounted k (· < 4) "/mnt/a".toList 1 0 mounted_boot
    (Run.of_runList _ (fun _ _ _ => trivial) reached) (Option.isSome_iff_ne_none.mp resolves)
    (Option.isNone_iff_eq_none.mp fails)
  omega

end Capacity

end TitorOS.Barrel.Vfs
