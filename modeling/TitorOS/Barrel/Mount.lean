import TitorOS.Barrel.Boot

/-! `mount` of `kernel/vfs.c`, and what `kernel()` does up to it. The two pages that it maps for the
first program in between are not of the kernel's heap. -/

namespace TitorOS.Barrel.Vfs

open TitorOS.Lib

/-- The other two file systems have no `mount` function: their member is NULL. -/
def mount (vol : Volume) (depth : Nat) (mountee mountpoint : List Char) (fs : Fs) : Op Mounted := do
  let _ ← getnode vol (depth + 2) mountee
  let mountpointNode ← getnode vol (depth + 2) mountpoint
  let k ← get
  if (k.node mountpointNode).flags &&& DIRECTORY = 0 then failure
  if (k.pages (k.node mountpointNode).dirents 0).name ≠ [] then failure
  modify (Kernel.setNode · mountpointNode fun n => { n with fs := fs })
  match fs with
  | .ext2fs => ext2Mount vol (getnode vol (depth + 2)) mountee mountpoint
  | _ => failure

section Quiet

variable {vol : Volume} {k k' : Kernel}

theorem getnode_tree_costs (vol : Volume) (depth : Nat) {parts : List (List Char)} {node : NodePtr}
    (short : (pathOf parts).length < 4096) (proper : ∀ part ∈ parts, Proper part)
    (found : treeNode k .root parts = some node) :
    Costs room (getnode vol (depth + 1) (pathOf parts)) k (0, 2) (0, 0) fun p k' =>
      p = node ∧ k' = { k with token := none } := by
  rw [getnode]
  refine (Costs.bind (0, 1) (0, -1) (kmalloc_costs k) ?_).cast rfl rfl
  rintro a k₁ ⟨_, a_free, same₁⟩ left₁
  refine (Costs.bind 0 (0, -2) (kmalloc_costs k₁) ?_).cast rfl rfl
  rintro b k₂ ⟨_, b_free, same₂⟩ left₂
  have root : k₂.root = k.root := by rw [same₂, same₁]
  have pages : k₂.pages = k.pages := by rw [same₂, same₁]
  have fds : k₂.fds = k.fds := by rw [same₂, same₁]
  have back : Function.update (Function.update k₂.heap a false) b false = k.heap := by
    rw [same₁] at b_free
    rw [same₂, same₁]
    exact pages_back a_free b_free
  have ran : descend (enumdir vol (getnode vol depth)) (pathOf parts) ((pathOf parts).length + 1) []
      ((strtok (pathOf parts)).map cstr) .root { k₂ with token := strtok (pathOf parts) } =
      some (node, { k₂ with token := none }) := by
    have there : treeNode { k₂ with token := strtok (pathOf parts) } .root parts = some node :=
      (treeNode_congr root pages .root parts).trans found
    have token : ({ k₂ with token := strtok (pathOf parts) } : Kernel).token = tokenOf (parts ++ []) := by
      rw [List.append_nil]
      exact strtok_path proper
    have proper' : ∀ part ∈ parts ++ [], Proper part := by rwa [List.append_nil]
    have start : [] ++ pathOf (parts ++ []) = pathOf parts := by
      rw [List.append_nil, List.nil_append]
    have long := pathOf_length parts
    have rounds : (pathOf parts).length + 1 =
        (pathOf parts).length - parts.length + 1 + parts.length := by
      omega
    rw [rounds]
    refine (descend_tree _ proper' there token start).trans ?_
    exact descend_done rfl _ _ _ _
  refine Costs.step (t := { k with token := none }) (room_nonneg k₂) ?_ ?_ ⟨rfl, rfl⟩
  · rw [if_neg (by omega)]
    beta_reduce
    rw [modify_bind, get_bind, bind_run ran, ← root, ← pages, ← fds, ← back]
    rfl
  · rw [left₂, left₁, sub_sub, sub_sub]
    exact (sub_zero _).symm

/-- The lookup of a name, and what is found, when a node elsewhere is given other flags or another
driver. -/
theorem childNode_setNode {page slot : Nat} {f : Vnode → Vnode} {parent : NodePtr}
    (keeps : ∀ n, (f n).name = n.name) (other : parent ≠ .dirent page slot) (part : List Char) :
    childNode (k.setNode (.dirent page slot) f) parent part = childNode k parent part := by
  have names (i : Nat) : ((k.setNode (.dirent page slot) f).pages (k.node parent).dirents i).name =
      (k.pages (k.node parent).dirents i).name := by
    have node := Kernel.node_setNode k page slot f (.dirent (k.node parent).dirents i)
    change (k.setNode (.dirent page slot) f).pages (k.node parent).dirents i = _ at node
    rw [node]
    split
    · exact keeps _
    · rfl
  have same : (k.setNode (.dirent page slot) f).node parent = k.node parent := by
    rw [Kernel.node_setNode, if_neg other]
  rw [childNode, childNode, same, findName_congr names]

theorem volumeNode_setNode {page slot : Nat} {f : Vnode → Vnode}
    (keeps : ∀ n, (f n).name = n.name) (apart : childNode k .root "dev".toList ≠ some (.dirent page slot)) :
    volumeNode (k.setNode (.dirent page slot) f) = volumeNode k := by
  have top : childNode (k.setNode (.dirent page slot) f) .root "dev".toList =
      childNode k .root "dev".toList := childNode_setNode keeps (by simp) _
  rw [volumeNode, volumeNode, top]
  cases first : childNode k .root "dev".toList with
  | none => rfl
  | some dev =>
      rw [Option.bind_some, Option.bind_some, childNode_setNode keeps]
      intro same
      exact apart (by rw [first, same])

theorem readPage_some {device : NodePtr} {table : Nat → Fd} (fds : k.fds = some table) {volume : Nat}
    {sector count : UInt32} (entry : table volume = ⟨device, 1, sector⟩)
    (devfs : (k.node device).fs = .devfs) (named : (k.node device).name = "nvme5".toList)
    (inSize : InSize (k.node device) sector count) :
    readPage vol volume count k = some (vol.disk (sector + vol.part), k) := by
  rw [readPage, get_bind]
  simp only [fds, entry]
  rw [readDevice_some (by exact (by decide : (1 : UInt8) &&& 1 ≠ 0)) inSize devfs named]
  rfl

theorem readPage_inSize {device : NodePtr} {table : Nat → Fd} (fds : k.fds = some table)
    {volume : Nat} {sector count : UInt32} (entry : table volume = ⟨device, 1, sector⟩)
    {block : Buffer} (ran : readPage vol volume count k = some (block, k')) :
    InSize (k.node device) sector count := by
  by_contra outside
  rw [readPage, get_bind] at ran
  simp only [fds, entry] at ran
  rw [readDevice_none outside] at ran
  cases ran

end Quiet

section Mount

variable {vol : Volume} {k k' : Kernel} {device p : NodePtr}

/-- What `ext2_mount` checks: the superblock and the descriptors are in the partition, the signature is
right, and the number of blocks in a group can be divided by. -/
structure Mountable (vol : Volume) (node : Vnode) : Prop where
  superblock : InSize node 2 2
  descriptors : InSize node 8 8
  signature : vol.kept.superblock.ext2Sig &&& 0xFFFF = 0xef53
  groups : vol.kept.superblock.groupBlockCount ≠ 0

/-- What `ext2_mount` stores in the node of the mount point. -/
def rootInode (node : Vnode) : Vnode := { node with inode := 2, fsInstance := 0, flags := DIRECTORY }

/-- The mount point in a list of nodes of which it is not the one for devices. -/
structure MountPoint (k : Kernel) (device : NodePtr) (page slot : Nat) : Prop where
  found : volumeNode k = some device
  devfs : (k.node device).fs = .devfs
  point : childNode k .root "mnt".toList = some (.dirent page slot)
  apart : childNode k .root "dev".toList ≠ some (.dirent page slot)

theorem MountPoint.congr {page slot : Nat} (mountPoint : MountPoint k device page slot)
    (root : k'.root = k.root) (pages : k'.pages = k.pages) : MountPoint k' device page slot where
  found := (volumeNode_congr root pages).trans mountPoint.found
  devfs := by rw [Kernel.node_congr root pages]; exact mountPoint.devfs
  point := (childNode_congr root pages _ _).trans mountPoint.point
  apart := by rw [childNode_congr root pages]; exact mountPoint.apart

def mountpoint : List Char := pathOf ["mnt".toList]

theorem MountPoint.getnode_costs {page slot : Nat} (mountPoint : MountPoint k device page slot)
    (vol : Volume) (depth : Nat) :
    Costs room (getnode vol (depth + 1) mountpoint) k (0, 2) (0, 0) fun p k' =>
      p = .dirent page slot ∧ k' = { k with token := none } := by
  refine getnode_tree_costs vol depth (by decide) (by decide +kernel) ?_
  exact (bind_pure (childNode k .root "mnt".toList)).trans mountPoint.point

/-- Where the descriptor of the device has been moved. -/
def Kernel.sought (k : Kernel) (volume : Nat) (device : NodePtr) (sector : UInt32) : Kernel :=
  { k with fds := some (Function.update k.table volume ⟨device, 1, sector⟩) }

theorem seek_readPage_costs {β : Type} {next : Buffer → Op β} {volume : Nat} {position : UInt32}
    (fds : k.fds = some k.table) (entry : k.table volume = ⟨device, 1, position⟩)
    (devfs : (k.node device).fs = .devfs) (named : (k.node device).name = "nvme5".toList)
    {sector count : UInt32} (inSize : InSize (k.node device) sector count)
    {need net : Int × Int} {post : β → Kernel → Prop}
    (costs : Costs room (next (vol.disk (sector + vol.part))) (k.sought volume device sector) need net
      post) :
    Costs room (do
      seek volume sector 0
      let page ← readPage vol volume count
      next page) k need net post := by
  have level : room (k.sought volume device sector) = room k := by
    have same := modeUsed_position k.table volume ⟨device, 1, sector⟩ (by rw [entry])
    simp only [room, freeFds, Kernel.sought, same, fds]
    rfl
  have moved : seek volume sector 0 k = some ((), k.sought volume device sector) := by
    rw [seek, get_bind]
    simp only [fds, entry]
    rfl
  have loaded : readPage vol volume count (k.sought volume device sector) =
      some (vol.disk (sector + vol.part), k.sought volume device sector) :=
    readPage_some rfl (Function.update_self ..) devfs named inSize
  exact costs.move ((bind_run moved).trans (bind_run loaded)) level.symm

theorem ext2Mount_costs {page slot : Nat} (depth : Nat) (mountPoint : MountPoint k device page slot)
    (mountable : Mountable vol (k.node device)) :
    Costs room (ext2Mount vol (getnode vol (depth + 1)) volumePath mountpoint) k
      (1, tablePage k + 4) (0, tablePage k + 2) fun m k' => m = vol.kept ∧
        Returned (k.setNode (.dirent page slot) rootInode) k' := by
  have nonneg := tablePage_nonneg k
  have named : (k.node device).name = "nvme5".toList := volumeNode_name mountPoint.found
  rw [ext2Mount]
  refine (Costs.bind (0, 4) (-1, 2) (open_volume_costs mountPoint.found depth) ?_).cast
    (need_eq (by omega) (by omega)) (net_eq (by omega) (by omega))
  rintro volume k₁ opened _
  refine (Costs.bind (0, 3) (-1, 1) (kmalloc_costs k₁) ?_).cast rfl rfl
  rintro sb k₂ ⟨_, _, same₂⟩ _
  have quiet₂ := opened.toQuiet.trans (quiet_kmalloc same₂)
  have fds₂ : k₂.fds = some (Function.update k.table volume ⟨device, 1, 0⟩) := by
    rw [same₂, opened.fds]
  have node₂ := Kernel.node_congr quiet₂.root quiet₂.pages
  refine seek_readPage_costs (Kernel.fds_eq fds₂)
    (by rw [Kernel.table_eq fds₂]; exact Function.update_self ..) (by rw [node₂]; exact mountPoint.devfs)
    (by rw [node₂]; exact named) (by rw [node₂]; exact mountable.superblock) ?_
  have kept : superblockOf (vol.disk (2 + vol.part)) = vol.kept.superblock := rfl
  dsimp only
  rw [kept, if_neg (not_not.mpr mountable.signature), if_neg mountable.groups]
  generalize moved : k₂.sought volume device 2 = k₃
  have pages₃ : k₃.pages = k₂.pages := by rw [← moved]; rfl
  have root₃ : k₃.root = k₂.root := by rw [← moved]; rfl
  refine (Costs.bind (0, 2) (-1, 0) (kmalloc_costs k₃) ?_).cast rfl rfl
  rintro bgd k₄ ⟨_, _, same₄⟩ _
  have fds₄ : k₄.fds = some (Function.update k.table volume ⟨device, 1, 2⟩) := by
    rw [same₄, ← moved, Kernel.sought, Kernel.table_eq fds₂, Function.update_idem]
  have quiet₄ : Quiet k k₄ := by
    refine (quiet₂.trans ?_).trans (quiet_kmalloc same₄)
    exact ⟨root₃, pages₃, fun q used => by rw [← moved]; exact used⟩
  have node₄ := Kernel.node_congr quiet₄.root quiet₄.pages
  refine seek_readPage_costs (Kernel.fds_eq fds₄)
    (by rw [Kernel.table_eq fds₄]; exact Function.update_self ..) (by rw [node₄]; exact mountPoint.devfs)
    (by rw [node₄]; exact named) (by rw [node₄]; exact mountable.descriptors) ?_
  generalize moved' : k₄.sought volume device (1 * BLOCK_FACTOR) = k₅
  have quiet₅ : Quiet k k₅ := by
    refine quiet₄.trans ?_
    rw [← moved']
    exact ⟨rfl, rfl, fun q used => used⟩
  have fds₅ : k₅.fds = some (Function.update k.table volume ⟨device, 1, 8⟩) := by
    rw [← moved', Kernel.sought, Kernel.table_eq fds₄, Function.update_idem]
    rfl
  refine (Costs.bind 0 (-1, 0) ((mountPoint.congr quiet₅.root quiet₅.pages).getnode_costs vol depth)
    ?_).cast rfl rfl
  rintro p k₆ ⟨rfl, same₆⟩ _
  refine (Costs.bind 0 (-1, 0) (modify_costs (Kernel.room_setNode ..)) ?_).cast rfl rfl
  rintro _ k₇ same₇ _
  have fds₇ : k₇.fds = some (Function.update k.table volume ⟨device, 1, 8⟩) := by
    rw [same₇, Kernel.setNode_fds, same₆]
    exact fds₅
  refine (Costs.bind 0 0 (close_costs fds₇ opened.small ?_) ?_).cast rfl rfl
  · rw [Function.update_self]
    exact (by decide : (1 : UInt8) ≠ 0)
  rintro _ k₈ same₈ _
  rw [Function.update_self, Function.update_idem] at same₈
  refine Costs.pure (room_nonneg k₈) ⟨rfl, ?_⟩
  have set : k₈.pages = (k.setNode (.dirent page slot) rootInode).pages := by
    rw [same₈]
    change k₇.pages = _
    rw [same₇]
    have back : k₆.pages = k.pages := by
      rw [same₆]
      exact quiet₅.pages
    rw [Kernel.setNode, Kernel.setNode, back]
    rfl
  have quiet₈ : Quiet (k.setNode (.dirent page slot) rootInode) k₈ := by
    refine ⟨?_, set, fun q used => ?_⟩
    · rw [same₈]
      change k₇.root = k.root
      rw [same₇, Kernel.setNode_root, same₆]
      exact quiet₅.root
    · rw [same₈]
      change k₇.heap q = true
      rw [same₇, Kernel.setNode_heap, same₆]
      exact quiet₅.heap q used
  have fds₈ : k₈.fds = some (Function.update k.table volume ⟨device, 0, 8⟩) := by rw [same₈]
  refine quiet₈.returned opened.free 8 ?_ fds₈
  rw [same₈]
  change k₇.token = none
  rw [same₇, Kernel.setNode_token, same₆]

theorem seek_readPage_inSize {volume : Nat} {position sector count : UInt32} {k₁ : Kernel}
    {table : Nat → Fd} (fds : k.fds = some table) (entry : table volume = ⟨device, 1, position⟩)
    (moved : seek volume sector 0 k = some ((), k₁)) {block : Buffer}
    (ran : readPage vol volume count k₁ = some (block, k')) : InSize (k.node device) sector count := by
  rcases (seek_costs fds volume sector).of_some moved with ⟨_, _, same⟩
  rw [entry] at same
  have inSize := readPage_inSize (by rw [same]) (Function.update_self ..) ran
  rw [same] at inSize
  exact inSize

theorem ext2Mount_mountable {depth : Nat} {point : List Char} {m : Mounted}
    (found : volumeNode k = some device)
    (ran : ext2Mount vol (getnode vol (depth + 1)) volumePath point k = some (m, k')) :
    Mountable vol (k.node device) := by
  rcases ext2Mount_ran ran with ⟨rfl, signature, groups⟩
  have named : (k.node device).name = "nvme5".toList := volumeNode_name found
  rw [ext2Mount] at ran
  rcases bind_some ran with ⟨volume, k₁, first, steps⟩
  rcases (open_volume_costs found depth).of_some first with ⟨_, _, opened⟩
  rcases bind_some steps with ⟨_, k₂, second, steps⟩
  rcases (kmalloc_costs k₁).of_some second with ⟨_, _, _, _, same₂⟩
  have node₂ (p : NodePtr) : k₂.node p = k.node p := by
    rw [same₂]
    exact Kernel.node_congr opened.root opened.pages p
  have fds₂ : k₂.fds = some (Function.update k.table volume ⟨device, 1, 0⟩) := by
    rw [same₂, opened.fds]
  rcases bind_some steps with ⟨_, k₃, third, steps⟩
  rcases bind_some steps with ⟨sb, k₄, fourth, steps⟩
  have superblock := seek_readPage_inSize fds₂ (Function.update_self ..) third fourth
  rcases seek_readPage fds₂ (Function.update_self ..) (by rw [node₂]; exact named) third fourth with
    ⟨_, same₄⟩
  dsimp only at steps
  split at steps
  · cases steps
  split at steps
  · cases steps
  rcases bind_some steps with ⟨_, k₅, fifth, steps⟩
  rcases (kmalloc_costs k₄).of_some fifth with ⟨_, _, _, _, same₅⟩
  rcases bind_some steps with ⟨_, k₆, sixth, steps⟩
  rcases bind_some steps with ⟨bgd, k₇, seventh, steps⟩
  have descriptors := seek_readPage_inSize (by rw [same₅, same₄]) (Function.update_self ..) sixth
    seventh
  have node₅ : k₅.node device = k.node device := by
    rw [same₅, same₄]
    exact node₂ device
  rw [node₂] at superblock
  rw [node₅] at descriptors
  exact ⟨superblock, descriptors, signature, groups⟩

/-- The root of the volume, where it is mounted. -/
def mountedRoot (node : Vnode) : Vnode := rootInode { node with fs := .ext2fs }

theorem setNode_setNode (k : Kernel) (page slot : Nat) (f g : Vnode → Vnode) :
    (k.setNode (.dirent page slot) f).setNode (.dirent page slot) g =
      k.setNode (.dirent page slot) fun n => g (f n) := by
  simp only [Kernel.setNode, Function.update_self, Function.update_idem]

/-- The mount point is an empty directory. -/
structure Empty (k : Kernel) (page slot : Nat) : Prop where
  directory : (k.pages page slot).flags &&& DIRECTORY ≠ 0
  empty : (k.pages (k.pages page slot).dirents 0).name = []

theorem mount_costs {page slot : Nat} (depth : Nat) (mountPoint : MountPoint k device page slot)
    (empty : Empty k page slot) (mountable : Mountable vol (k.node device))
    (other : device ≠ .dirent page slot) :
    Costs room (mount vol depth volumePath mountpoint .ext2fs) k (1, tablePage k + 4)
      (0, tablePage k + 2) fun m k' => m = vol.kept ∧
        Returned (k.setNode (.dirent page slot) mountedRoot) k' := by
  have nonneg := tablePage_nonneg k
  unfold mount
  have first : Costs room (getnode vol (depth + 2) volumePath) k (0, 2) (0, 0) fun p k' =>
      p = device ∧ k' = { k with token := none } := getnode_volume_costs mountPoint.found (depth + 1)
  refine (Costs.bind (1, tablePage k + 4) (0, tablePage k + 2) first ?_).cast
    (need_eq (by omega) (by omega)) (net_eq (by omega) (by omega))
  rintro _ k₁ ⟨_, same₁⟩ _
  have root₁ : k₁.root = k.root := by rw [same₁]
  have pages₁ : k₁.pages = k.pages := by rw [same₁]
  refine (Costs.bind (1, tablePage k + 4) (0, tablePage k + 2)
    ((mountPoint.congr root₁ pages₁).getnode_costs vol (depth + 1)) ?_).cast
    (need_eq (by omega) (by omega)) (net_eq (by omega) (by omega))
  rintro p k₂ ⟨rfl, same₂⟩ _
  have same : k₂ = { k with token := none } := by rw [same₂, same₁]
  have node₂ : k₂.node (.dirent page slot) = k.pages page slot := by rw [same]; rfl
  have pages₂ : k₂.pages = k.pages := by rw [same]
  refine Costs.congr ?_ (get_bind _ k₂)
  rw [node₂, if_neg empty.directory, pages₂, if_neg (not_not.mpr empty.empty)]
  have set : Costs room (modify (Kernel.setNode · (.dirent page slot) fun n => { n with fs := .ext2fs }))
      k₂ (0, 0) (0, 0) fun _ k' => k' = k₂.setNode (.dirent page slot) fun n => { n with fs := .ext2fs } :=
    modify_costs (Kernel.room_setNode ..)
  refine (Costs.bind (1, tablePage k + 4) (0, tablePage k + 2) set ?_).cast
    (need_eq (by omega) (by omega)) (net_eq (by omega) (by omega))
  rintro _ k₃ same₃ _
  have node₃ : k₃.node device = k.node device := by
    rw [same₃, Kernel.node_setNode, if_neg other, same]
    rfl
  have table₃ : tablePage k₃ = tablePage k := by
    rw [same₃, same]
    rfl
  have mountPoint₃ : MountPoint k₃ device page slot := by
    have plain : k₂.root = k.root := by rw [same]
    have mountPoint₂ := mountPoint.congr plain pages₂
    have top (part : List Char) : childNode k₃ .root part = childNode k₂ .root part := by
      rw [same₃, childNode_setNode]
      · exact fun n => rfl
      · simp
    refine ⟨?_, by rw [node₃]; exact mountPoint.devfs, by rw [top]; exact mountPoint₂.point,
      by rw [top]; exact mountPoint₂.apart⟩
    rw [same₃, volumeNode_setNode ?_ mountPoint₂.apart]
    · exact mountPoint₂.found
    · exact fun n => rfl
  have last := ext2Mount_costs (depth + 1) mountPoint₃ (node₃ ▸ mountable)
  rw [table₃] at last
  refine last.mono ?_
  rintro m k₄ ⟨rfl, returned⟩
  refine ⟨rfl, ?_⟩
  rw [same₃, setNode_setNode, same] at returned
  exact ⟨⟨returned.root, returned.pages, returned.heap⟩, returned.token, returned.fds, returned.closed,
    returned.kept⟩

theorem mount_none {depth : Nat} {point : List Char} {fs : Fs} (nowhere : volumeNode k = none) :
    mount vol depth volumePath point fs k = none := by
  unfold mount
  exact bind_none (getnode_volume_none (depth + 2) k nowhere)

theorem mount_mountable {page slot depth : Nat} {m : Mounted}
    (mountPoint : MountPoint k device page slot) (other : device ≠ .dirent page slot)
    (ran : mount vol depth volumePath mountpoint .ext2fs k = some (m, k')) :
    Mountable vol (k.node device) := by
  unfold mount at ran
  rcases bind_some ran with ⟨_, k₁, first, steps⟩
  rcases (getnode_volume_costs mountPoint.found (depth + 1)).of_some first with ⟨_, _, _, same₁⟩
  have root₁ : k₁.root = k.root := by rw [same₁]
  have pages₁ : k₁.pages = k.pages := by rw [same₁]
  have mountPoint₁ := mountPoint.congr root₁ pages₁
  rcases bind_some steps with ⟨p, k₂, second, steps⟩
  rcases (mountPoint₁.getnode_costs vol (depth + 1)).of_some second with ⟨_, _, rfl, same₂⟩
  have root₂ : k₂.root = k₁.root := by rw [same₂]
  have pages₂ : k₂.pages = k₁.pages := by rw [same₂]
  have mountPoint₂ := mountPoint₁.congr root₂ pages₂
  rw [get_bind] at steps
  dsimp only at steps
  split at steps
  · cases steps
  split at steps
  · cases steps
  rcases bind_some steps with ⟨_, k₃, third, steps⟩
  have same₃ : k₃ = k₂.setNode (.dirent page slot) fun n => { n with fs := .ext2fs } := by
    cases third
    rfl
  have found : volumeNode k₃ = some device := by
    rw [same₃, volumeNode_setNode ?_ mountPoint₂.apart]
    · exact mountPoint₂.found
    · exact fun n => rfl
  have node₃ : k₃.node device = k.node device := by
    rw [same₃, Kernel.node_setNode, if_neg other, Kernel.node_congr root₂ pages₂,
      Kernel.node_congr root₁ pages₁]
  exact node₃ ▸ ext2Mount_mountable found steps

end Mount

section Start

/-- The process of the first program, and its stack. -/
def initScheduler : Op Unit := takePages 2

/-- `kernel()` up to the mount. -/
def startFiles (vol : Volume) (depth : Nat) (buffer : Buffer) : Op Mounted := do
  initVfs buffer
  initScheduler
  mount vol depth volumePath mountpoint .ext2fs

variable {vol : Volume} {buffer : Buffer} {k k' : Kernel} {nodes : Nat → Prop} {page : Nat}
  {top devices parts : List Vnode} {dev : Vnode}

theorem findIdx?_face (list : List Vnode) (part : List Char) :
    list.findIdx? (fun node => node.name = part) = (list.map face).findIdx? (·.1 = part) := by
  rw [List.findIdx?_map]
  rfl

theorem volumeNode_treeNode (k : Kernel) :
    volumeNode k = treeNode k .root ["dev".toList, "nvme5".toList] := by
  rw [treeNode, List.foldlM_cons, volumeNode]
  congr 1
  funext dev
  exact (bind_pure (childNode k dev "nvme5".toList)).symm

theorem devEntries_volume (buffer : Buffer) :
    (devEntries buffer).find? (·.1 = "nvme5".toList) =
      if 5 ∈ usedEntries buffer then some (face (partNode (pentry buffer 5) 5)) else none := by
  have fixed : fixedDevices.find? (·.1 = "nvme5".toList) = none := by decide +kernel
  rw [devEntries, List.find?_append, fixed, Option.none_or, devEnum, List.map_map, List.find?_map]
  have named {i : Nat} (member : i ∈ usedEntries buffer) : nvmeName i = "nvme5".toList ↔ i = 5 := by
    have small : i < 8 := by
      rw [usedEntries_eq] at member
      split at member
      · exact List.mem_range.mp (List.mem_of_mem_filter member)
      · cases member
    refine ⟨nvmeName_five i small, fun five => ?_⟩
    rw [five]
    decide
  have index : (usedEntries buffer).find? ((fun entry => decide (entry.1 = "nvme5".toList)) ∘
      face ∘ fun i => partNode (pentry buffer i) i) = (usedEntries buffer).find? (· = 5) := by
    apply List.find?_congr
    intro i member
    exact decide_eq_decide.mpr (named member)
  rw [index]
  split
  · rename_i used
    cases found : (usedEntries buffer).find? (· = 5) with
    | none =>
        rw [List.find?_eq_none] at found
        exact absurd rfl (of_decide_eq_false (Bool.eq_false_of_not_eq_true (found 5 used)))
    | some i =>
        have five : i = 5 := by simpa using List.find?_some found
        rw [five]
        rfl
  · rename_i unused
    have none : (usedEntries buffer).find? (· = 5) = none := by
      rw [List.find?_eq_none]
      intro i member
      have other : i ≠ 5 := fun same => unused (same ▸ member)
      simpa using other
    rw [none]
    rfl

theorem Booted.mountPoint (booted : Booted buffer k nodes page top dev devices parts)
    (used : 5 ∈ usedEntries buffer) :
    ∃ device, MountPoint k device page 0 ∧ Empty k page 0 ∧ device ≠ .dirent page 0 ∧
      face (k.node device) = face (partNode (pentry buffer 5) 5) := by
  rcases booted.counts with ⟨two, few, unnamed⟩
  have there := (booted.lookups (show "nvme5".toList ≠ [] by decide)).2
  rw [devEntries_volume, if_pos used, ← volumeNode_treeNode] at there
  rcases Option.map_eq_some_iff.mp there with ⟨device, found, facing⟩
  have top_lookup (part : List Char) (proper : part ≠ []) : childNode k .root part =
      (rootEntries.findIdx? (·.1 = part)).map (NodePtr.dirent page) := by
    rw [booted.root_lookup proper (by omega), findIdx?_face, booted.rootFaces]
  obtain ⟨mnt, file, rfl⟩ := List.length_eq_two.mp two
  have member : mnt ∈ [mnt, file] := List.mem_cons_self
  have mntFace := congrArg List.head? booted.topFaces
  rw [List.map_cons, List.head?_cons, List.head?_cons, Option.some.injEq, face, Prod.mk.injEq,
    Prod.mk.injEq] at mntFace
  have first : k.pages page 0 = mnt := booted.lists.node 0 (by simp)
  refine ⟨device, ⟨found, ?_, ?_, ?_⟩, ?_, ?_, facing⟩
  · exact congrArg (fun f => f.2.2.2) facing
  · have early : rootEntries.findIdx? (·.1 = "mnt".toList) = some 0 := by decide +kernel
    rw [top_lookup _ (by decide), early, Option.map_some]
  · rw [top_lookup _ (by decide)]
    have last : rootEntries.findIdx? (·.1 = "dev".toList) = some 2 := by decide +kernel
    rw [last]
    simp
  · refine ⟨?_, ?_⟩
    · rw [first, mntFace.2.1]
      decide
    · rw [first]
      exact (booted.leaves mnt member).ended
  · intro same
    have name := volumeNode_name found
    rw [same, show k.node (.dirent page 0) = mnt from first, mntFace.1] at name
    cases name

theorem Mountable.congr {node node' : Vnode} (mountable : Mountable vol node)
    (same : face node' = face node) : Mountable vol node' := by
  have size : node'.size = node.size := congrArg (fun f => f.2.2.1) same
  refine ⟨?_, ?_, mountable.signature, mountable.groups⟩
  · rw [InSize, size]
    exact mountable.superblock
  · rw [InSize, size]
    exact mountable.descriptors

/-- The file tree when the volume is mounted. -/
structure VolumeMounted (buffer : Buffer) (k : Kernel) : Prop where
  boot : ∃ nodes, Boot k nodes
  table : k.fds = some k.table
  device : ∃ device, Attached k device (partNode (pentry buffer 5) 5).size
  point : ∃ p, childNode k .root "mnt".toList = some p ∧ (k.node p).fs = .ext2fs ∧
    (k.node p).inode = 2 ∧ (k.node p).flags = DIRECTORY

theorem Booted.mounted {device : NodePtr} (booted : Booted buffer k nodes page top dev devices parts)
    (mountPoint : MountPoint k device page 0) (other : device ≠ .dirent page 0)
    (facing : face (k.node device) = face (partNode (pentry buffer 5) 5))
    (returned : Returned (k.setNode (.dirent page 0) mountedRoot) k') : VolumeMounted buffer k' := by
  have closed (i : Nat) : ((k.setNode (.dirent page 0) mountedRoot).table i).mode = 0 :=
    booted.boot.closed i
  have tree := (booted.tree.setNode page 0 (f := mountedRoot) fun n => ⟨rfl, rfl⟩)
  have node := Kernel.node_congr returned.root returned.pages
  refine ⟨⟨nodes, tree.congr returned.root returned.pages fun q member =>
      returned.heap q (tree.used q member), fun i => returned.closed i (closed i)⟩, returned.fds,
    ⟨device, ?_, ?_, ?_⟩, .dirent page 0, ?_, ?_⟩
  · rw [volumeNode_congr returned.root returned.pages, volumeNode_setNode ?_ mountPoint.apart]
    · exact mountPoint.found
    · exact fun n => rfl
  · rw [node, Kernel.node_setNode, if_neg other]
    exact mountPoint.devfs
  · rw [node, Kernel.node_setNode, if_neg other]
    exact congrArg (fun f => f.2.2.1) facing
  · rw [childNode_congr returned.root returned.pages, childNode_setNode]
    · exact mountPoint.point
    · exact fun n => rfl
    · simp
  · rw [node, Kernel.node_setNode, if_pos rfl]
    exact ⟨rfl, rfl, rfl⟩

theorem initScheduler_costs (booted : Booted buffer k nodes page top dev devices parts) :
    Costs room initScheduler k (0, 2) (0, 2) fun _ k' =>
      Booted buffer k' nodes page top dev devices parts :=
  (takePages_costs 2 booted.toBuilt).mono fun _ _ built =>
    ⟨built, booted.topFaces, booted.devFace, booted.deviceFaces, booted.partNodes⟩

theorem Booted.mount_costs (booted : Booted buffer k nodes page top dev devices parts) (depth : Nat)
    (used : 5 ∈ usedEntries buffer) (mountable : Mountable vol (partNode (pentry buffer 5) 5)) :
    Costs room (mount vol depth volumePath mountpoint .ext2fs) k (1, 5) (0, 3) fun m k' =>
      m = vol.kept ∧ VolumeMounted buffer k' := by
  rcases booted.mountPoint used with ⟨device, mountPoint, empty, other, facing⟩
  have table : tablePage k = 1 := by
    rw [tablePage, booted.fds]
    rfl
  have costs := Vfs.mount_costs depth mountPoint empty (mountable.congr facing) other
  rw [table] at costs
  refine costs.mono ?_
  rintro m k' ⟨same, returned⟩
  exact ⟨same, booted.mounted mountPoint other facing returned⟩

theorem Booted.mount_ran (booted : Booted buffer k nodes page top dev devices parts) {depth : Nat}
    {m : Mounted} (ran : mount vol depth volumePath mountpoint .ext2fs k = some (m, k')) :
    5 ∈ usedEntries buffer ∧ Mountable vol (partNode (pentry buffer 5) 5) := by
  by_cases used : 5 ∈ usedEntries buffer
  · rcases booted.mountPoint used with ⟨device, mountPoint, empty, other, facing⟩
    exact ⟨used, (mount_mountable mountPoint other ran).congr facing.symm⟩
  · have nowhere := (booted.lookups (show "nvme5".toList ≠ [] by decide)).2
    rw [devEntries_volume, if_neg used, ← volumeNode_treeNode, Option.map_eq_none_iff] at nowhere
    rw [mount_none nowhere] at ran
    cases ran

theorem initVfs_start (buffer : Buffer) (k : Kernel) :
    initVfs buffer k = (do plantRoot; initTmpfs; enumDevices buffer) (cleared k) := by
  rw [initVfs, modify_bind]

theorem room_cleared (k : Kernel) : room (cleared k) = (8, (freePages k : Int)) := rfl

theorem startFiles_ran {depth : Nat} {m : Mounted}
    (ran : startFiles vol depth buffer k = some (m, k')) :
    5 ∈ usedEntries buffer ∧ Mountable vol (partNode (pentry buffer 5) 5) ∧
      26 + (usedEntries buffer).length ≤ freePages k ∧ m = vol.kept ∧ VolumeMounted buffer k' ∧
        freePages k' + 24 + (usedEntries buffer).length = freePages k := by
  rw [startFiles] at ran
  rcases bind_some ran with ⟨_, k₁, first, steps⟩
  rw [initVfs_start] at first
  rcases (initVfs_costs buffer k).of_some first with
    ⟨_, left₁, nodes, page, top, dev, devices, parts, booted₁⟩
  rcases bind_some steps with ⟨_, k₂, second, third⟩
  rcases (initScheduler_costs booted₁).of_some second with ⟨_, left₂, booted₂⟩
  rcases booted₂.mount_ran third with ⟨used, mountable⟩
  rcases (booted₂.mount_costs depth used mountable).of_some third with ⟨need, left₃, same, mounted⟩
  have pages (t : Kernel) : (room t).2 = freePages t := rfl
  have need' := (le_room.mp need).2
  have first' := congrArg Prod.snd left₁
  have second' := congrArg Prod.snd left₂
  have third' := congrArg Prod.snd left₃
  simp only [pages, Prod.snd_sub, room_cleared] at first' second' third'
  refine ⟨used, mountable, by omega, same, mounted, by omega⟩

theorem startFiles_runs (depth : Nat) (used : 5 ∈ usedEntries buffer)
    (mountable : Mountable vol (partNode (pentry buffer 5) 5))
    (enough : 26 + (usedEntries buffer).length ≤ freePages k) :
    ∃ m k', startFiles vol depth buffer k = some (m, k') := by
  have need₁ : ((0, 21 + (usedEntries buffer).length) : Int × Int) ≤ room (cleared k) := by
    rw [room_cleared]
    exact Prod.mk_le_mk.mpr ⟨by omega, by omega⟩
  rcases (initVfs_costs buffer k).enough need₁ with
    ⟨_, k₁, first, left₁, nodes, page, top, dev, devices, parts, booted₁⟩
  have need₂ : ((0, 2) : Int × Int) ≤ room k₁ := by
    rw [left₁, room_cleared, Prod.mk_sub_mk]
    exact Prod.mk_le_mk.mpr ⟨by omega, by omega⟩
  rcases (initScheduler_costs booted₁).enough need₂ with ⟨_, k₂, second, left₂, booted₂⟩
  have need₃ : ((1, 5) : Int × Int) ≤ room k₂ := by
    rw [left₂, left₁, room_cleared, Prod.mk_sub_mk, Prod.mk_sub_mk]
    exact Prod.mk_le_mk.mpr ⟨by omega, by omega⟩
  rcases (booted₂.mount_costs depth used mountable).enough need₃ with ⟨m, k₃, third, _⟩
  rw [← initVfs_start] at first
  exact ⟨m, k₃, (bind_run first).trans ((bind_run second).trans third)⟩

end Start

end TitorOS.Barrel.Vfs
