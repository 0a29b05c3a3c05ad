import TitorOS.Lib.Budget
import TitorOS.Barrel.Getnode
import Mathlib.Algebra.Ring.Int.Defs

/-! The device behind a mounted ext2 file system: `open` of "/dev/nvme5" and a block read through
it, with what they need of the descriptor table and of the heap. A lookup of the device that
comes to an ext2 directory would look it up again, without end. -/

namespace TitorOS.Barrel.Vfs

open TitorOS.Lib

/-- The descriptors and the heap pages that are left. -/
def freeFds (k : Kernel) : Nat :=
  match k.fds with
  | none => FD_TABLE_SIZE
  | some table => freeSlots FD_TABLE_SIZE (modeUsed table)

def freePages (k : Kernel) : Nat := freeSlots HEAP_PAGES k.heap

def room (k : Kernel) : Int × Int := (freeFds k, freePages k)

theorem room_nonneg (k : Kernel) : 0 ≤ room k := by
  rw [room, Prod.le_def]
  exact ⟨Int.natCast_nonneg _, Int.natCast_nonneg _⟩

theorem le_room {k : Kernel} {fds pages : Int} :
    (fds, pages) ≤ room k ↔ fds ≤ freeFds k ∧ pages ≤ freePages k := Prod.mk_le_mk

theorem need_eq {a b c d e f x y : Int} (fds : max a (c + e) = x) (pages : max b (d + f) = y) :
    ((a, b) : Int × Int) ⊔ ((c, d) + (e, f)) = (x, y) := Prod.ext fds pages

theorem net_eq {a b c d x y : Int} (fds : a + c = x) (pages : b + d = y) :
    ((a, b) : Int × Int) + (c, d) = (x, y) := Prod.ext fds pages

section Run

variable {α β : Type}

theorem get_bind (next : Kernel → Op α) (k : Kernel) : (get >>= next) k = next k k := rfl

theorem modify_bind (f : Kernel → Kernel) (next : PUnit → Op α) (k : Kernel) :
    (modify f >>= next) k = next ⟨⟩ (f k) := rfl

theorem set_bind (t : Kernel) (next : PUnit → Op α) (k : Kernel) :
    (set t >>= next) k = next ⟨⟩ t := rfl

theorem bind_run {op : Op α} {next : α → Op β} {k k' : Kernel} {a : α}
    (ran : op k = some (a, k')) : (op >>= next) k = next a k' := by
  change (op k).bind _ = _
  rw [ran]
  rfl

theorem bind_none {op : Op α} {next : α → Op β} {k : Kernel} (fails : op k = none) :
    (op >>= next) k = none := by
  change (op k).bind _ = _
  rw [fails]
  rfl

theorem bind_some {op : Op α} {next : α → Op β} {k k' : Kernel} {b : β}
    (ran : (op >>= next) k = some (b, k')) :
    ∃ a k₁, op k = some (a, k₁) ∧ next a k₁ = some (b, k') := by
  cases first : op k with
  | none =>
      rw [bind_none first] at ran
      cases ran
  | some result =>
      rw [bind_run first] at ran
      exact ⟨result.1, result.2, rfl, ran⟩

theorem kmalloc_bind_none {next : Nat → Op α} {k : Kernel}
    (fails : ∀ page heap, next page { k with heap := heap } = none) :
    (kmalloc >>= next) k = none := by
  cases taken : TitorOS.Barrel.kmalloc k.heap with
  | none =>
      apply bind_none
      rw [kmalloc, taken]
      rfl
  | some result =>
      have ran : kmalloc k = some (result.1, { k with heap := result.2 }) := by
        rw [kmalloc, taken]
        rfl
      rw [bind_run ran]
      exact fails result.1 result.2

end Run

section Heap

theorem modify_costs {f : Kernel → Kernel} {k : Kernel} (same : room (f k) = room k) :
    Costs room (modify f) k 0 0 fun _ k' => k' = f k :=
  Costs.step (room_nonneg k) rfl (same.trans (sub_zero _).symm) rfl

theorem short_pages {k : Kernel} (short : ¬((0, 1) : Int × Int) ≤ room k) :
    firstFree HEAP_PAGES k.heap = none := by
  rw [firstFree_none_iff]
  rw [le_room, freePages] at short
  omega

theorem enough_pages {k : Kernel} (enough : ((0, 1) : Int × Int) ≤ room k) :
    ∃ page, firstFree HEAP_PAGES k.heap = some page ∧ page < HEAP_PAGES ∧ k.heap page = false := by
  cases found : firstFree HEAP_PAGES k.heap with
  | none =>
      rw [firstFree_none_iff] at found
      rw [le_room, freePages] at enough
      omega
  | some page => exact ⟨page, rfl, firstFree_some found⟩

theorem heap_kmalloc (used : Kheap) :
    TitorOS.Barrel.kmalloc used =
      (firstFree HEAP_PAGES used).map fun page => (page, Function.update used page true) := rfl

theorem kmalloc_costs (k : Kernel) :
    Costs room kmalloc k (0, 1) (0, 1) fun page k' => page < HEAP_PAGES ∧ k.heap page = false ∧
      k' = { k with heap := Function.update k.heap page true } := by
  constructor
  · intro short
    rw [kmalloc, heap_kmalloc, short_pages short]
    rfl
  · intro enough
    rcases enough_pages enough with ⟨page, found, inside, free⟩
    have taken := freeSlots_take inside free
    refine ⟨page, { k with heap := Function.update k.heap page true }, ?_, ?_, inside, free, rfl⟩
    · rw [kmalloc, heap_kmalloc, found]
      rfl
    · refine Prod.ext (sub_zero _).symm ?_
      simp only [room, freePages, Prod.snd_sub]
      omega

theorem kfree_costs {k : Kernel} {page : Nat} (inside : page < HEAP_PAGES)
    (taken : k.heap page = true) :
    Costs room (kfree page) k 0 (0, -1) fun _ k' =>
      k' = { k with heap := Function.update k.heap page false } := by
  have given := freeSlots_give inside taken
  refine Costs.step (room_nonneg k) rfl ?_ rfl
  refine Prod.ext (sub_zero _).symm ?_
  simp only [room, freePages, Prod.snd_sub, TitorOS.Barrel.kfree]
  omega

theorem memCopy_costs (k : Kernel) : Costs room memCopy k (0, 1) 0 fun _ k' => k' = k := by
  constructor
  · intro short
    rw [memCopy, TitorOS.Barrel.memCopy, heap_kmalloc, short_pages short]
    rfl
  · intro enough
    rcases enough_pages enough with ⟨page, _, inside, free⟩
    refine ⟨(), k, ?_, (sub_zero _).symm, rfl⟩
    rw [memCopy, memCopy_free k.heap page inside free]
    rfl

end Heap

section Lookup

/-- The slot a name is found in, before the end of the list. -/
def findName (dirents : Nat → Vnode) (part : List Char) : Nat → Nat → Option Nat
  | 0, _ => none
  | tries + 1, i =>
      if (dirents i).name = part then some i
      else if (dirents i).name = [] then none
      else findName dirents part tries (i + 1)

/-- One part of a path, where no driver enumerates the directory. -/
def childNode (k : Kernel) (vnode : NodePtr) (part : List Char) : Option NodePtr :=
  if (k.node vnode).flags &&& DIRECTORY = 0 ∨ (k.node vnode).fs = .ext2fs then none
  else (findName (k.pages (k.node vnode).dirents) part 256 0).map
    (NodePtr.dirent (k.node vnode).dirents)

/-- The node of "/dev/nvme5", if it can be looked up. -/
def volumeNode (k : Kernel) : Option NodePtr :=
  (childNode k .root "dev".toList).bind fun dev => childNode k dev "nvme5".toList

variable {vol : Volume} {k : Kernel}

theorem Kernel.node_congr {k' : Kernel} (root : k'.root = k.root) (pages : k'.pages = k.pages)
    (p : NodePtr) : k'.node p = k.node p := by
  cases p with
  | root => exact root
  | dirent page slot => exact congrFun (congrFun pages page) slot

theorem childNode_congr {k' : Kernel} (root : k'.root = k.root) (pages : k'.pages = k.pages)
    (vnode : NodePtr) (part : List Char) : childNode k' vnode part = childNode k vnode part := by
  simp only [childNode, Kernel.node_congr root pages, pages]

theorem volumeNode_congr {k' : Kernel} (root : k'.root = k.root) (pages : k'.pages = k.pages) :
    volumeNode k' = volumeNode k := by
  simp only [volumeNode, childNode_congr root pages]

theorem enumdir_quiet {getnode : List Char → Op NodePtr} {vnode : NodePtr}
    (quiet : (k.node vnode).fs ≠ .ext2fs) : enumdir vol getnode vnode k = some ((), k) := by
  rw [enumdir, get_bind, if_neg quiet]
  rfl

theorem navigate_quiet {getnode : List Char → Op NodePtr} {vnode : NodePtr}
    (quiet : (k.node vnode).fs ≠ .ext2fs) (part : List Char) (tries i : Nat) :
    navigate (enumdir vol getnode) vnode part tries i k =
      if (k.node vnode).flags &&& DIRECTORY = 0 then none
      else (findName (k.pages (k.node vnode).dirents) part tries i).map fun j =>
        (.dirent (k.node vnode).dirents j, k) := by
  induction tries generalizing i with
  | zero =>
      rw [findName]
      split
      · rfl
      · rfl
  | succ tries ih =>
      rw [navigate, get_bind]
      split
      · rfl
      · rename_i directory
        simp only [if_neg directory] at ih
        beta_reduce
        rw [bind_run (enumdir_quiet quiet), get_bind, findName]
        split
        · rfl
        · split
          · rfl
          · exact ih (i + 1)

/-- What `get_inode` does with the heap and the device once it knows the sector: the block, and
the page for the inode. -/
def loadInodeBlock (vol : Volume) (getnode : List Char → Op NodePtr) (sector : UInt32) :
    Op (Nat × Buffer) := do
  let inodeTable ← kmalloc
  let volume ← open_ getnode volumePath 1
  seek volume sector 0
  let table ← read vol volume
  let inode ← kmalloc
  memCopy
  kfree inodeTable
  close volume
  return (inode, table)

theorem getInode_eq (getnode : List Char → Op NodePtr) (vnode : NodePtr) :
    getInode vol getnode vnode k =
      (loadInodeBlock vol getnode (inodeSector vol (k.node vnode).inode) >>= fun result =>
        pure (result.1, inodeIn vol (k.node vnode).inode result.2)) k := by
  rw [getInode, get_bind]
  simp only [loadInodeBlock, bind_assoc, pure_bind]

theorem open_stuck {getnode : List Char → Op NodePtr} {path : List Char} (mode : UInt8)
    (stuck : ∀ heap fds, getnode path { k with heap := heap, fds := fds } = none) :
    open_ getnode path mode k = none := by
  rw [open_, get_bind]
  split
  · apply kmalloc_bind_none
    intro page heap
    rw [modify_bind]
    apply bind_none
    exact stuck heap _
  · apply bind_none
    exact stuck k.heap k.fds

/-- The driver cannot work where its device cannot be looked up. -/
theorem loadInodeBlock_stuck {getnode : List Char → Op NodePtr} (sector : UInt32)
    (stuck : ∀ heap fds, getnode volumePath { k with heap := heap, fds := fds } = none) :
    loadInodeBlock vol getnode sector k = none := by
  rw [loadInodeBlock]
  apply kmalloc_bind_none
  intro page heap
  exact bind_none (open_stuck 1 stuck)

theorem getInode_stuck {getnode : List Char → Op NodePtr} (vnode : NodePtr)
    (stuck : ∀ heap fds, getnode volumePath { k with heap := heap, fds := fds } = none) :
    getInode vol getnode vnode k = none := by
  rw [getInode_eq]
  exact bind_none (loadInodeBlock_stuck _ stuck)

theorem enumdir_stuck {getnode : List Char → Op NodePtr} {vnode : NodePtr}
    (ext2 : (k.node vnode).fs = .ext2fs)
    (stuck : ∀ heap fds, getnode volumePath
      { k with
        pages := Function.update k.pages (k.node vnode).dirents fun _ => blankNode
        heap := heap
        fds := fds } = none) :
    enumdir vol getnode vnode k = none := by
  rw [enumdir, get_bind, if_pos ext2, modify_bind, ext2Enum]
  apply bind_none
  exact getInode_stuck vnode stuck

theorem navigate_stuck {enum : NodePtr → Op Unit} {vnode : NodePtr} (stuck : enum vnode k = none)
    (part : List Char) (tries i : Nat) : navigate enum vnode part tries i k = none := by
  cases tries with
  | zero => rfl
  | succ tries =>
      rw [navigate, get_bind]
      split
      · rfl
      · exact bind_none stuck

theorem navigate_childNode {getnode : List Char → Op NodePtr} {vnode : NodePtr} {part : List Char}
    (quiet : (k.node vnode).fs ≠ .ext2fs) :
    navigate (enumdir vol getnode) vnode part 256 0 k =
      (childNode k vnode part).map fun node => (node, k) := by
  rw [navigate_quiet quiet, childNode]
  by_cases directory : (k.node vnode).flags &&& DIRECTORY = 0
  · rw [if_pos directory, if_pos (.inl directory)]
    rfl
  · rw [if_neg directory, if_neg (not_or.mpr ⟨directory, quiet⟩), Option.map_map]
    rfl

theorem volumeNode_ext2_root {k' : Kernel} (ext2 : k'.root.fs = .ext2fs) : volumeNode k' = none := by
  have stuck : childNode k' .root "dev".toList = none := if_pos (.inr ext2)
  rw [volumeNode, stuck]
  rfl

/-- A directory on the way is wiped before the driver looks for its device. -/
theorem volumeNode_wiped {dev : NodePtr} (found : childNode k .root "dev".toList = some dev)
    (ext2 : (k.node dev).fs = .ext2fs) {k' : Kernel} (root : k'.root = k.root)
    (pages : k'.pages = Function.update k.pages (k.node dev).dirents fun _ => blankNode) :
    volumeNode k' = none := by
  rw [childNode] at found
  split at found
  · cases found
  · rename_i quiet
    rcases Option.map_eq_some_iff.mp found with ⟨slot, _, rfl⟩
    have there : (k'.node .root).dirents = (k.node .root).dirents := congrArg Vnode.dirents root
    by_cases same : (k.node .root).dirents = (k.node (.dirent (k.node .root).dirents slot)).dirents
    · have none : childNode k' .root "dev".toList = none := by
        rw [childNode, there, pages, ← same, Function.update_self]
        split
        · rfl
        · rfl
      rw [volumeNode, none]
      rfl
    · have untouched : k'.pages (k.node .root).dirents = k.pages (k.node .root).dirents := by
        rw [pages, Function.update_of_ne same]
      have again : childNode k' .root "dev".toList =
          some (.dirent (k.node .root).dirents slot) := by
        rw [childNode, there, untouched, show k'.node .root = k.node .root from root, if_neg quiet,
          found]
      have still : (k'.node (.dirent (k.node .root).dirents slot)).fs = .ext2fs :=
        (congrArg Vnode.fs (congrFun untouched slot)).trans ext2
      rw [volumeNode, again]
      exact if_pos (.inr still)

theorem descend_done {enum : NodePtr → Op Unit} {path currentpath : List Char}
    (same : currentpath = path) (rounds : Nat) (pathpart : Option (List Char)) (node : NodePtr)
    (k : Kernel) : descend enum path (rounds + 1) currentpath pathpart node k = some (node, k) := by
  cases pathpart with
  | none =>
      rw [descend, if_pos same]
      rfl
  | some part =>
      rw [descend, if_pos same]
      rfl

theorem descend_step {enum : NodePtr → Op Unit} {path currentpath part : List Char} (rounds : Nat)
    (node : NodePtr) (unequal : currentpath ≠ path) :
    descend enum path (rounds + 1) currentpath (some part) node = (do
      let node ← navigate enum node part 256 0
      modify fun k => { k with token := strtokNext k.token }
      let k ← get
      descend enum path rounds (currentpath ++ ['/'] ++ part) (k.token.map cstr) node) := by
  rw [descend, if_neg unequal]

/-- The search of `getnode` for the device, where the driver finds no device when the search
would not. -/
theorem descend_volume {getnode : List Char → Op NodePtr} (token : k.token = strtok volumePath)
    (stuck : ∀ k', volumeNode k' = none → getnode volumePath k' = none) :
    descend (enumdir vol getnode) volumePath (volumePath.length + 1) []
        (k.token.map cstr) .root k =
      (volumeNode k).map fun node => (node, { k with token := none }) := by
  have first : k.token.map cstr = some "dev".toList := by
    rw [token]
    decide
  have second : (strtokNext k.token).map cstr = some "nvme5".toList := by
    rw [token]
    decide
  have last : strtokNext (strtokNext k.token) = none := by
    rw [token]
    decide
  rw [first, descend_step _ _ (by decide)]
  by_cases ext2 : k.root.fs = .ext2fs
  · rw [volumeNode_ext2_root ext2, bind_none]
    · rfl
    · apply navigate_stuck
      have mounted : (k.node .root).fs = .ext2fs := ext2
      apply enumdir_stuck mounted
      intro heap fds
      exact stuck _ (volumeNode_ext2_root ext2)
  · have quiet : (k.node .root).fs ≠ .ext2fs := ext2
    cases found : childNode k .root "dev".toList with
    | none =>
        rw [volumeNode, found, bind_none]
        · rfl
        · rw [navigate_childNode quiet, found]
          rfl
    | some dev =>
        have ran : navigate (enumdir vol getnode) .root "dev".toList 256 0 k = some (dev, k) := by
          rw [navigate_childNode quiet, found]
          rfl
        rw [bind_run ran, modify_bind, get_bind, second, volumeNode, found, Option.bind_some,
          show volumePath.length = 8 + 1 + 1 from rfl, descend_step _ _ (by decide)]
        have same (k' : Kernel) (root : k'.root = k.root) (pages : k'.pages = k.pages) :
            k'.node dev = k.node dev := Kernel.node_congr root pages dev
        generalize after : ({ k with token := strtokNext k.token } : Kernel) = k₁
        have root : k₁.root = k.root := by rw [← after]
        have pages : k₁.pages = k.pages := by rw [← after]
        by_cases mounted : (k₁.node dev).fs = .ext2fs
        · have nowhere : childNode k dev "nvme5".toList = none := by
            rw [← childNode_congr root pages]
            exact if_pos (.inr mounted)
          rw [nowhere, bind_none]
          · rfl
          · apply navigate_stuck
            apply enumdir_stuck mounted
            intro heap fds
            rw [same k₁ root pages] at mounted
            apply stuck
            exact volumeNode_wiped found mounted root (by rw [pages, same k₁ root pages])
        · rw [← childNode_congr root pages dev]
          cases there : childNode k₁ dev "nvme5".toList with
          | none =>
              rw [bind_none]
              · rfl
              · rw [navigate_childNode mounted, there]
                rfl
          | some node =>
              have ran : navigate (enumdir vol getnode) dev "nvme5".toList 256 0 k₁ =
                  some (node, k₁) := by
                rw [navigate_childNode mounted, there]
                rfl
              have ended :
                  [] ++ ['/'] ++ "dev".toList ++ ['/'] ++ "nvme5".toList = volumePath := by
                decide
              rw [bind_run ran, modify_bind, get_bind, descend_done ended, ← after]
              simp only [last, Option.map_some]

theorem getnode_volume_none (depth : Nat) (k : Kernel) (nowhere : volumeNode k = none) :
    getnode vol depth volumePath k = none := by
  induction depth generalizing k with
  | zero => rfl
  | succ depth ih =>
      rw [getnode]
      apply kmalloc_bind_none
      intro currentpath heap
      apply kmalloc_bind_none
      intro pathpartPage heap
      rw [if_neg (by decide)]
      beta_reduce
      rw [modify_bind, get_bind, bind_none]
      rw [descend_volume rfl ih, Option.map_eq_none_iff]
      exact nowhere

/-- The two pages are given back. -/
theorem pages_back {used : Kheap} {a b : Nat} (first : used a = false)
    (second : Function.update used a true b = false) :
    Function.update (Function.update (Function.update (Function.update used a true) b true) a false)
      b false = used := by
  funext page
  by_cases right : page = b
  · rw [right, Function.update_self]
    by_cases same : b = a
    · rw [same, Function.update_self] at second
      cases second
    · rw [Function.update_of_ne same] at second
      exact second.symm
  · rw [Function.update_of_ne right]
    by_cases left : page = a
    · rw [left, Function.update_self, first]
    · rw [Function.update_of_ne left, Function.update_of_ne right, Function.update_of_ne left]

theorem getnode_volume_costs {node : NodePtr} (found : volumeNode k = some node) (depth : Nat) :
    Costs room (getnode vol (depth + 1) volumePath) k (0, 2) 0 fun p k' =>
      p = node ∧ k' = { k with token := none } := by
  rw [getnode]
  refine (Costs.bind (0, 1) (0, -1) (kmalloc_costs k) ?_).cast rfl rfl
  intro a k₁ ⟨_, a_free, same₁⟩ left₁
  refine (Costs.bind 0 (0, -2) (kmalloc_costs k₁) ?_).cast rfl rfl
  intro b k₂ ⟨_, b_free, same₂⟩ left₂
  have root : k₂.root = k.root := by rw [same₂, same₁]
  have pages : k₂.pages = k.pages := by rw [same₂, same₁]
  have fds : k₂.fds = k.fds := by rw [same₂, same₁]
  have back : Function.update (Function.update k₂.heap a false) b false = k.heap := by
    rw [same₁] at b_free
    rw [same₂, same₁]
    exact pages_back a_free b_free
  have ran : descend (enumdir vol (getnode vol depth)) volumePath (volumePath.length + 1) []
      ((strtok volumePath).map cstr) .root { k₂ with token := strtok volumePath } =
      some (node, { k₂ with token := none }) := by
    have there : volumeNode { k₂ with token := strtok volumePath } = some node :=
      (volumeNode_congr root pages).trans found
    rw [descend_volume (k := { k₂ with token := strtok volumePath }) rfl
      (getnode_volume_none depth), there]
    rfl
  refine Costs.step (t := { k with token := none }) (room_nonneg k₂) ?_ ?_ ⟨rfl, rfl⟩
  · rw [if_neg (by decide)]
    beta_reduce
    rw [modify_bind, get_bind, bind_run ran, ← root, ← pages, ← fds, ← back]
    rfl
  · rw [left₂, left₁, sub_sub, sub_sub]
    exact (sub_zero _).symm

end Lookup

section Descriptors

/-- The descriptors of the active process; all of them are free where it has no table yet. -/
def Kernel.table (k : Kernel) : Nat → Fd := k.fds.getD fun _ => ⟨.root, 0, 0⟩

theorem Kernel.table_eq {k : Kernel} {table : Nat → Fd} (fds : k.fds = some table) :
    k.table = table := by
  rw [Kernel.table, fds]
  rfl

theorem Kernel.fds_eq {k : Kernel} {table : Nat → Fd} (fds : k.fds = some table) :
    k.fds = some k.table := by
  rw [Kernel.table_eq fds, fds]

/-- The page that `open` takes for a table. -/
def tablePage (k : Kernel) : Int := if k.fds.isNone then 1 else 0

/-- The nodes stay as they are, and no page is given up. -/
structure Quiet (k k' : Kernel) : Prop where
  root : k'.root = k.root
  pages : k'.pages = k.pages
  heap : ∀ page, k.heap page = true → k'.heap page = true

theorem Quiet.refl (k : Kernel) : Quiet k k := ⟨rfl, rfl, fun _ => id⟩

theorem Quiet.trans {k k' k'' : Kernel} (first : Quiet k k') (second : Quiet k' k'') :
    Quiet k k'' where
  root := second.root.trans first.root
  pages := second.pages.trans first.pages
  heap page taken := second.heap page (first.heap page taken)

variable {vol : Volume} {k : Kernel}

theorem tablePage_nonneg (k : Kernel) : 0 ≤ tablePage k := by
  rw [tablePage]
  split
  · decide
  · decide

theorem tablePage_some (table : k.fds = some k.table) : tablePage k = 0 := by
  rw [tablePage, table]
  rfl

theorem quiet_kmalloc {page : Nat} {k' : Kernel}
    (same : k' = { k with heap := Function.update k.heap page true }) : Quiet k k' := by
  rw [same]
  exact ⟨rfl, rfl, fun page taken => by simp only [Function.update_apply, taken, ite_self]⟩

theorem freeFds_eq (k : Kernel) : freeFds k = freeSlots FD_TABLE_SIZE (modeUsed k.table) := by
  rw [freeFds, Kernel.table]
  cases k.fds with
  | none => rfl
  | some table => rfl

/-- `getnode` after its first lines. -/
structure Entered (k : Kernel) (path : List Char) (currentpath pathpart : Nat) (k' : Kernel) : Prop
    extends Quiet k k' where
  token : k'.token = strtok path
  fds : k'.fds = k.fds
  left : room k' = room k - (0, 2)
  unused : k.heap currentpath = false ∧ k.heap pathpart = false
  taken : k'.heap currentpath = true ∧ k'.heap pathpart = true

theorem getnode_entered (vol : Volume) (depth : Nat) {path : List Char} (short : path.length < 4096)
    (enough : ((0, 2) : Int × Int) ≤ room k) :
    ∃ currentpath pathpart k₁, Entered k path currentpath pathpart k₁ ∧
      getnode vol (depth + 1) path k =
        (descend (enumdir vol (getnode vol depth)) path (path.length + 1) [] (k₁.token.map cstr)
          .root k₁).map fun (node, k₂) =>
            (node, { k₂ with
              heap := Function.update (Function.update k₂.heap currentpath false) pathpart false }) := by
  rw [le_room] at enough
  have one : ((0, 1) : Int × Int) ≤ room k := by
    rw [le_room]
    omega
  rcases (kmalloc_costs k).enough one with ⟨currentpath, k₁, first, left₁, _, free₁, same₁⟩
  have two : ((0, 1) : Int × Int) ≤ room k₁ := by
    have pages := congrArg Prod.snd left₁
    simp only [room, Prod.snd_sub] at pages
    rw [le_room]
    omega
  rcases (kmalloc_costs k₁).enough two with ⟨pathpart, k₂, second, left₂, _, free₂, same₂⟩
  have quiet := (quiet_kmalloc same₁).trans (quiet_kmalloc same₂)
  refine ⟨currentpath, pathpart, { k₂ with token := strtok path }, ?_, ?_⟩
  · constructor
    case toQuiet => exact ⟨quiet.root, quiet.pages, quiet.heap⟩
    case token => rfl
    case fds => rw [same₂, same₁]
    case left =>
      change room k₂ = _
      rw [left₂, left₁, sub_sub]
      rfl
    case unused =>
      refine ⟨free₁, ?_⟩
      cases old : k.heap pathpart with
      | false => rfl
      | true =>
          rw [(quiet_kmalloc same₁).heap _ old] at free₂
          cases free₂
    case taken =>
      constructor
      · apply (quiet_kmalloc same₂).heap
        rw [same₁]
        exact Function.update_self ..
      · rw [same₂]
        exact Function.update_self ..
  · rw [getnode, bind_run first, bind_run second, if_neg (by omega)]
    beta_reduce
    rw [modify_bind, get_bind]
    cases ran : descend (enumdir vol (getnode vol depth)) path (path.length + 1) []
        ((strtok path).map cstr) .root { k₂ with token := strtok path } with
    | none =>
        rw [bind_none ran]
        rfl
    | some result =>
        rw [bind_run ran]
        rfl

theorem getnode_ran {path : List Char} {depth : Nat} {p : NodePtr} {k' : Kernel}
    (ran : getnode vol (depth + 1) path k = some (p, k')) :
    path.length < 4096 ∧ ((0, 2) : Int × Int) ≤ room k := by
  rw [getnode] at ran
  rcases bind_some ran with ⟨currentpath, k₁, first, steps⟩
  rcases (kmalloc_costs k).of_some first with ⟨_, left, _⟩
  rcases bind_some steps with ⟨pathpart, k₂, second, steps⟩
  rcases (kmalloc_costs k₁).of_some second with ⟨enough, _⟩
  constructor
  · by_contra long
    rw [if_pos (by omega)] at steps
    cases steps
  · rw [left, le_sub_iff_add_le] at enough
    exact enough

/-- A descriptor for the device. -/
structure Opened (k : Kernel) (node : NodePtr) (volume : Nat) (k' : Kernel) : Prop
    extends Quiet k k' where
  small : volume < FD_TABLE_SIZE
  free : (k.table volume).mode = 0
  token : k'.token = none
  fds : k'.fds = some (Function.update k.table volume ⟨node, 1, 0⟩)

/-- `open` once there is a table: the lookup, and the first descriptor that is free. -/
def openEntry (getnode : List Char → Op NodePtr) (path : List Char) (mode : UInt8) : Op Nat := do
  let vnode ← getnode path
  let k ← get
  match k.fds with
  | none => failure
  | some table =>
      match firstFree FD_TABLE_SIZE (modeUsed table) with
      | none => failure
      | some i =>
          set { k with fds := some (Function.update table i ⟨vnode, mode, 0⟩) }
          return i

theorem open_some {getnode : List Char → Op NodePtr} {path : List Char} {mode : UInt8}
    (table : k.fds = some k.table) : open_ getnode path mode k = openEntry getnode path mode k := by
  rw [open_, get_bind, table]
  rfl

theorem open_none {getnode : List Char → Op NodePtr} {path : List Char} {mode : UInt8}
    (table : k.fds = none) : open_ getnode path mode k = (do
      let _ ← kmalloc
      modify fun k : Kernel => { k with fds := some fun _ => ⟨.root, 0, 0⟩ }
      openEntry getnode path mode) k := by
  rw [open_, get_bind, if_pos (Option.isNone_iff_eq_none.mpr table)]
  rfl

theorem mode_taken (table : Nat → Fd) (i : Nat) (node : NodePtr) :
    modeUsed (Function.update table i ⟨node, 1, 0⟩) =
      Function.update (modeUsed table) i true := by
  funext j
  by_cases same : j = i
  · simp [modeUsed, same]
  · simp [modeUsed, same]

theorem openEntry_costs {node : NodePtr} (found : volumeNode k = some node) (depth : Nat)
    (table : k.fds = some k.table) :
    Costs room (openEntry (getnode vol (depth + 1)) volumePath 1) k (1, 2) (1, 0)
      (Opened k node) := by
  refine (Costs.bind (1, 0) (1, 0) (getnode_volume_costs found depth) ?_).cast rfl rfl
  intro p k₁ ⟨same_node, same⟩ left
  subst same_node same
  constructor
  · intro short
    have full : firstFree FD_TABLE_SIZE (modeUsed k.table) = none := by
      rw [firstFree_none_iff, ← freeFds_eq]
      rw [left, sub_zero, le_room] at short
      omega
    rw [get_bind]
    simp only [table, full]
    rfl
  · intro enough
    rw [left, sub_zero, le_room, freeFds_eq] at enough
    cases first : firstFree FD_TABLE_SIZE (modeUsed k.table) with
    | none =>
        rw [firstFree_none_iff] at first
        omega
    | some i =>
        rcases firstFree_some first with ⟨small, free⟩
        have closed : (k.table i).mode = 0 := by simpa [modeUsed] using free
        have taken := freeSlots_take small free
        refine ⟨i, { k with token := none, fds := some (Function.update k.table i ⟨p, 1, 0⟩) }, ?_, ?_,
          ⟨⟨rfl, rfl, fun _ => id⟩, small, closed, rfl, rfl⟩⟩
        · rw [get_bind]
          simp only [table, first]
          rfl
        · rw [left, sub_zero]
          refine Prod.ext ?_ (sub_zero _).symm
          simp only [room, Prod.fst_sub, freeFds_eq k]
          simp only [freeFds, mode_taken]
          omega

theorem open_volume_costs {node : NodePtr} (found : volumeNode k = some node) (depth : Nat) :
    Costs room (open_ (getnode vol (depth + 1)) volumePath 1) k (1, tablePage k + 2)
      (1, tablePage k) (Opened k node) := by
  cases table : k.fds with
  | some fds =>
      have same := Kernel.fds_eq table
      have none : tablePage k = 0 := by
        rw [tablePage, table]
        rfl
      rw [none]
      exact (openEntry_costs found depth same).congr (open_some same)
  | none =>
      have one : tablePage k = 1 := by
        rw [tablePage, table]
        rfl
      rw [one]
      refine Costs.congr ?_ (open_none table)
      refine (Costs.bind (1, 2) (1, 0) (kmalloc_costs k) ?_).cast rfl rfl
      intro page k₁ ⟨_, _, same⟩ _
      have blank : k.table = fun _ => ⟨.root, 0, 0⟩ := by
        rw [Kernel.table, table]
        rfl
      have unset : k₁.fds = none := by
        rw [same]
        exact table
      have level : room { k₁ with fds := some fun _ => ⟨.root, 0, 0⟩ } = room k₁ := by
        refine Prod.ext ?_ rfl
        simp only [room, freeFds, unset]
        rfl
      refine (Costs.bind (1, 2) (1, 0) (modify_costs level) ?_).cast rfl rfl
      intro _ k₂ made _
      have there : volumeNode k₂ = some node := by
        rw [made, volumeNode_congr (k := k) (by rw [same]) (by rw [same]), found]
      have entries : k₂.table = k.table := by
        rw [made, blank]
        rfl
      refine (openEntry_costs there depth (by rw [made]; rfl)).mono ?_
      intro volume k₃ opened
      have quiet : Quiet k k₂ := by
        rw [made, same]
        exact ⟨rfl, rfl, fun page taken => by
          simp only [Function.update_apply, taken, ite_self]⟩
      exact ⟨quiet.trans opened.toQuiet, opened.small, entries ▸ opened.free, opened.token,
        entries ▸ opened.fds⟩

/-- The block that a read through the device's descriptor brings. -/
def blockThrough (vol : Volume) (node : Vnode) (sector : UInt32) : Option Buffer :=
  match readDevice (fun i => if i = 5 then vol.part else 0) ⟨.root, 1, sector⟩ node BLOCK_FACTOR with
  | some (.nvmeRead _ lba) => some (vol.disk lba)
  | _ => none

def blockAt (vol : Volume) (k : Kernel) (sector : UInt32) : Option Buffer :=
  (volumeNode k).bind fun node => blockThrough vol (k.node node) sector

theorem blockAt_congr {k' : Kernel} (root : k'.root = k.root) (pages : k'.pages = k.pages)
    (sector : UInt32) : blockAt vol k' sector = blockAt vol k sector := by
  simp only [blockAt, volumeNode_congr root pages, Kernel.node_congr root pages]

theorem modeUsed_position (table : Nat → Fd) (i : Nat) (fd : Fd) (same : fd.mode = (table i).mode) :
    modeUsed (Function.update table i fd) = modeUsed table := by
  funext j
  by_cases here : j = i
  · simp [modeUsed, here, same]
  · simp [modeUsed, here]

theorem seek_costs {table : Nat → Fd} (fds : k.fds = some table) (volume : Nat) (sector : UInt32) :
    Costs room (seek volume sector 0) k 0 0 fun _ k' =>
      k' = { k with fds := some (Function.update table volume { table volume with position := sector }) } := by
  refine Costs.step (a := ()) (room_nonneg k) ?_ ?_ rfl
  · rw [seek, get_bind]
    simp only [fds]
    rfl
  · refine Prod.ext ?_ (sub_zero _).symm
    have same := modeUsed_position table volume { table volume with position := sector } rfl
    simp only [room, freeFds, same, fds]
    exact (sub_zero _).symm

theorem read_eq {table : Nat → Fd} (fds : k.fds = some table) {volume : Nat} {node : NodePtr}
    {sector : UInt32} (entry : table volume = ⟨node, 1, sector⟩) :
    read vol volume k = (blockThrough vol (k.node node) sector).map fun block => (block, k) := by
  rw [read, get_bind]
  simp only [fds, entry, blockThrough]
  have same : readDevice (fun i => if i = 5 then vol.part else 0) ⟨node, 1, sector⟩ (k.node node)
      BLOCK_FACTOR = readDevice (fun i => if i = 5 then vol.part else 0) ⟨.root, 1, sector⟩
      (k.node node) BLOCK_FACTOR := rfl
  rw [same]
  generalize readDevice (fun i => if i = 5 then vol.part else 0) ⟨.root, 1, sector⟩
    (k.node node) BLOCK_FACTOR = call
  cases call with
  | none => rfl
  | some request =>
      cases request with
      | sendbuffer _ => rfl
      | nvmeRead _ _ => rfl

theorem close_costs {table : Nat → Fd} (fds : k.fds = some table) {volume : Nat}
    (small : volume < FD_TABLE_SIZE) (taken : (table volume).mode ≠ 0) :
    Costs room (close volume) k 0 (-1, 0) fun _ k' =>
      k' = { k with fds := some (Function.update table volume { table volume with mode := 0 }) } := by
  have used : modeUsed table volume = true := by simp [modeUsed, taken]
  have given := freeSlots_give small used
  have same : modeUsed (Function.update table volume { table volume with mode := 0 }) =
      Function.update (modeUsed table) volume false := by
    funext j
    by_cases here : j = volume
    · simp [modeUsed, here]
    · simp [modeUsed, here]
  refine Costs.step (a := ()) (room_nonneg k) ?_ ?_ rfl
  · rw [close, get_bind]
    simp only [fds, taken, if_false]
    rfl
  · refine Prod.ext ?_ (sub_zero _).symm
    simp only [room, Prod.fst_sub, freeFds, same, fds]
    omega

/-- Back from the driver: open descriptors are as they were, and no other is open. -/
structure Returned (k k' : Kernel) : Prop extends Quiet k k' where
  token : k'.token = none
  fds : k'.fds = some k'.table
  closed : ∀ i, (k.table i).mode = 0 → (k'.table i).mode = 0
  kept : ∀ i, (k.table i).mode ≠ 0 → k'.table i = k.table i

theorem Returned.trans {k k' k'' : Kernel} (first : Returned k k') (second : Returned k' k'') :
    Returned k k'' where
  toQuiet := first.toQuiet.trans second.toQuiet
  token := second.token
  fds := second.fds
  closed i free := second.closed i (first.closed i free)
  kept i taken := by
    have same := first.kept i taken
    rw [second.kept i (same ▸ taken), same]

/-- The table after a descriptor has been opened, moved and closed. -/
theorem Quiet.returned {node : NodePtr} {volume : Nat} {k' : Kernel} (quiet : Quiet k k')
    (free : (k.table volume).mode = 0) (sector : UInt32) (token : k'.token = none)
    (fds : k'.fds = some (Function.update k.table volume ⟨node, 0, sector⟩)) : Returned k k' := by
  have table : k'.table = Function.update k.table volume ⟨node, 0, sector⟩ := Kernel.table_eq fds
  refine ⟨quiet, token, table ▸ fds, ?_, ?_⟩
  · intro i unused
    rw [table, Function.update_apply]
    split
    · rfl
    · exact unused
  · intro i taken
    rw [table, Function.update_of_ne]
    intro same
    rw [same] at taken
    exact taken free

/-- The inode's page is new. -/
structure InodeRead (k : Kernel) (inode : Inode) (page : Nat) (k' : Kernel) : Prop
    extends Returned k k' where
  small : page < HEAP_PAGES
  fresh : k.heap page = false
  taken : k'.heap page = true

theorem loadInodeBlock_costs {node : NodePtr} (found : volumeNode k = some node) (depth : Nat)
    {sector : UInt32} {block : Buffer} (readable : blockAt vol k sector = some block) :
    Costs room (loadInodeBlock vol (getnode vol (depth + 1)) sector) k (1, tablePage k + 3)
      (0, tablePage k + 1) fun result k' =>
        result.2 = block ∧ ∀ inode, InodeRead k inode result.1 k' := by
  have nonneg := tablePage_nonneg k
  rw [loadInodeBlock]
  refine (Costs.bind (1, tablePage k + 2) (0, tablePage k) (kmalloc_costs k) ?_).cast
    (need_eq (by omega) (by omega)) (net_eq (by omega) (by omega))
  intro inodeTable k₁ ⟨small₁, free₁, same₁⟩ _
  have quiet₁ := quiet_kmalloc same₁
  have there := (volumeNode_congr quiet₁.root quiet₁.pages).trans found
  have page₁ : tablePage k₁ = tablePage k := by
    rw [same₁]
    rfl
  have table₁ : k₁.table = k.table := by
    rw [same₁]
    rfl
  rw [← page₁] at nonneg ⊢
  refine (Costs.bind (0, 2) (-1, 0) (open_volume_costs there depth) ?_).cast
    (need_eq (by omega) (by omega)) (net_eq (by omega) (by omega))
  intro volume k₂ opened _
  refine (Costs.bind (0, 2) (-1, 0) (seek_costs opened.fds volume _) ?_).cast rfl rfl
  intro _ k₃ same₃ _
  rw [Function.update_self, Function.update_idem] at same₃
  have quiet₃ : Quiet k₂ k₃ := by
    rw [same₃]
    exact ⟨rfl, rfl, fun _ => id⟩
  have quiet := (quiet₁.trans opened.toQuiet).trans quiet₃
  have loaded : read vol volume k₃ = some (block, k₃) := by
    rw [blockAt, found, Option.bind_some] at readable
    rw [read_eq (by rw [same₃]) (Function.update_self ..), Kernel.node_congr quiet.root quiet.pages,
      readable]
    rfl
  refine Costs.congr ?_ (bind_run loaded)
  refine (Costs.bind (0, 1) (-1, -1) (kmalloc_costs k₃) ?_).cast rfl rfl
  intro inode k₄ ⟨small₄, free₄, same₄⟩ _
  have quiet₄ := quiet_kmalloc same₄
  refine (Costs.bind 0 (-1, -1) (memCopy_costs k₄) ?_).cast rfl rfl
  intro _ k₅ same₅ _
  rw [same₅]
  have taken₃ : k₃.heap inodeTable = true := by
    apply quiet₃.heap
    apply opened.heap
    rw [same₁]
    exact Function.update_self ..
  refine (Costs.bind 0 (-1, 0) (kfree_costs small₁ (quiet₄.heap _ taken₃)) ?_).cast rfl rfl
  intro _ k₆ same₆ _
  have fds₆ : k₆.fds = some (Function.update k₁.table volume
      ⟨node, 1, sector⟩) := by
    rw [same₆, same₄, same₃]
  have entry : ((Function.update k₁.table volume
      ⟨node, 1, sector⟩) volume).mode ≠ 0 := by
    rw [Function.update_self]
    exact (by decide : (1 : UInt8) ≠ 0)
  refine (Costs.bind 0 0 (close_costs fds₆ opened.small entry) ?_).cast rfl rfl
  intro _ k₇ same₇ _
  rw [Function.update_self, Function.update_idem, table₁] at same₇
  have distinct : inode ≠ inodeTable := by
    intro same
    rw [same, taken₃] at free₄
    cases free₄
  have quiet₇ : Quiet k k₇ := by
    rw [same₇, same₆]
    refine ⟨quiet₄.root.trans quiet.root, quiet₄.pages.trans quiet.pages, ?_⟩
    intro page taken
    have other : page ≠ inodeTable := by
      intro same
      rw [same, free₁] at taken
      cases taken
    exact (Function.update_of_ne other ..).trans (quiet₄.heap _ (quiet.heap _ taken))
  refine Costs.pure (room_nonneg k₇) ⟨rfl, fun _ => ⟨?_, small₄, ?_, ?_⟩⟩
  · apply quiet₇.returned (table₁ ▸ opened.free) sector
    · rw [same₇, same₆, same₄, same₃]
      exact opened.token
    · rw [same₇]
  · cases old : k.heap inode with
    | false => rfl
    | true =>
        rw [quiet.heap _ old] at free₄
        cases free₄
  · rw [same₇, same₆]
    refine (Function.update_of_ne distinct ..).trans ?_
    rw [same₄]
    exact Function.update_self ..

theorem getInode_costs {vnode node : NodePtr} (found : volumeNode k = some node) (depth : Nat)
    {block : Buffer}
    (readable : blockAt vol k (inodeSector vol (k.node vnode).inode) = some block) :
    Costs room (getInode vol (getnode vol (depth + 1)) vnode) k (1, tablePage k + 3)
      (0, tablePage k + 1) fun result k' =>
        result.2 = inodeIn vol (k.node vnode).inode block ∧
          InodeRead k result.2 result.1 k' := by
  have nonneg := tablePage_nonneg k
  refine Costs.congr ?_ (getInode_eq _ vnode)
  refine (Costs.bind (0, 0) (0, 0) (loadInodeBlock_costs found depth readable) ?_).cast
    (need_eq (by omega) (by omega)) (net_eq (by omega) (by omega))
  intro result k' ⟨loaded, back⟩ _
  exact Costs.pure (room_nonneg k') ⟨congrArg (inodeIn vol _) loaded, back _⟩

/-- The driver comes back only with the block read. -/
theorem loadInodeBlock_ran {sector : UInt32} {depth page : Nat} {table : Buffer} {k' : Kernel}
    (ran : loadInodeBlock vol (getnode vol depth) sector k = some ((page, table), k')) :
    blockAt vol k sector = some table ∧ ∀ inode, InodeRead k inode page k' := by
  have positive : ∃ n, depth = n + 1 := by
    cases depth with
    | zero =>
        rw [loadInodeBlock_stuck sector fun _ _ => rfl] at ran
        cases ran
    | succ n => exact ⟨n, rfl⟩
  rcases positive with ⟨n, rfl⟩
  cases found : volumeNode k with
  | none =>
      rw [loadInodeBlock_stuck sector fun _ _ => getnode_volume_none _ _ found] at ran
      cases ran
  | some node =>
      have readable : ∃ block, blockAt vol k sector = some block := by
        have steps := ran
        rw [loadInodeBlock] at steps
        rcases bind_some steps with ⟨table, k₁, first, steps⟩
        rcases (kmalloc_costs k).of_some first with ⟨_, _, _, _, same₁⟩
        have quiet₁ := quiet_kmalloc same₁
        rcases bind_some steps with ⟨volume, k₂, second, steps⟩
        rcases (open_volume_costs ((volumeNode_congr quiet₁.root quiet₁.pages).trans found) n).of_some
          second with ⟨_, _, opened⟩
        rcases bind_some steps with ⟨_, k₃, third, steps⟩
        rcases (seek_costs opened.fds volume _).of_some third with ⟨_, _, same₃⟩
        rw [Function.update_self, Function.update_idem] at same₃
        rcases bind_some steps with ⟨block, k₄, fourth, _⟩
        have quiet := quiet₁.trans opened.toQuiet
        rw [read_eq (by rw [same₃]) (Function.update_self ..)] at fourth
        rcases Option.map_eq_some_iff.mp fourth with ⟨block, loaded, _⟩
        refine ⟨block, ?_⟩
        rw [blockAt, found, Option.bind_some, ← loaded]
        rw [same₃, ← Kernel.node_congr quiet.root quiet.pages]
        rfl
      rcases readable with ⟨block, readable⟩
      rcases (loadInodeBlock_costs found n readable).of_some ran with ⟨_, _, same, back⟩
      obtain rfl : table = block := same
      exact ⟨readable, back⟩

theorem getInode_ran {vnode : NodePtr} {depth page : Nat} {inode : Inode} {k' : Kernel}
    (ran : getInode vol (getnode vol depth) vnode k = some ((page, inode), k')) :
    ∃ block, blockAt vol k (inodeSector vol (k.node vnode).inode) = some block ∧
      inode = inodeIn vol (k.node vnode).inode block ∧ InodeRead k inode page k' := by
  rw [getInode_eq] at ran
  rcases bind_some ran with ⟨⟨table, block⟩, k₁, loaded, last⟩
  cases last
  rcases loadInodeBlock_ran loaded with ⟨readable, back⟩
  exact ⟨block, readable, rfl, back _⟩

end Descriptors

/-- The volume mounted on "/mnt": the root's nodes are in page 0, those of "/dev" in page 1, and
page 3 is for those of the volume. -/
def mounted : Kernel where
  root := ⟨"root".toList, DIRECTORY, 0, .tmpfs, 0, 0, 0⟩
  pages page slot :=
    match page, slot with
    | 0, 0 => ⟨"dev".toList, DIRECTORY, 0, .tmpfs, 0, 0, 1⟩
    | 0, 1 => ⟨"mnt".toList, DIRECTORY, 0, .ext2fs, 2, 0, 3⟩
    | 1, 0 => ⟨"nvme5".toList, 0, 4096, .devfs, 0, 0, 2⟩
    | _, _ => blankNode
  heap := .low 4
  fds := none
  token := none

end TitorOS.Barrel.Vfs
