import TitorOS.Barrel.LookupCost
import TitorOS.Barrel.Ext2Mount

/-! The file tree as the kernel builds it when it starts: `init_vfs` of `kernel/vfs.c` with
`init_tmpfs` and `dev_enum`. The pages that the drivers take meanwhile are counted on the heap. -/

namespace TitorOS.Barrel.Vfs

open TitorOS.Lib

/-- `new_vnode` with what every caller stores in the node. -/
def makeNode (parent : NodePtr) (name : List Char) (flags size : UInt32) (fs : Fs) : Op NodePtr := do
  let node ← newVnode parent name
  modify (Kernel.setNode · node fun n => { n with flags := flags, size := size, fs := fs })
  return node

def takePages : Nat → Op Unit
  | 0 => pure ()
  | count + 1 => do
      let _ ← kmalloc
      takePages count

/-- `buffer.start`, `queue_head` and `framecopy`. -/
def initTerminal : Op Unit := takePages 3

/-- The page for the registers is not given back. -/
def getHeader : Op Unit := takePages 1

/-- Two windows on the registers of the device, and the two admin queues. -/
def initAdmin : Op Unit := takePages 4

def createIocq : Op Unit := takePages 1

def createIosq : Op Unit := takePages 1

def initTmpfs : Op Unit := do
  let _tmpfile ← kmalloc
  let _mnt ← makeNode .root "mnt".toList DIRECTORY 0 .tmpfs
  let _file ← makeNode .root "file".toList 0 0 .tmpfs
  return

/-- One round of the loop over the first eight entries of the GPT. -/
def enumPartition (dev : NodePtr) (buffer : Buffer) (i : Nat) : Op Unit := do
  if (pentry buffer i).used ≠ 0 then
    let nvme ← makeNode dev (nvmeName i) 0
      ((pentry buffer i).lbaEndLo - (pentry buffer i).lbaStartLo + 1) .devfs
    modify (Kernel.setNode · nvme fun n => { n with fsInstance := i.toUInt8 })

def enumPartitions (dev : NodePtr) (buffer : Buffer) : List Nat → Op Unit
  | [] => pure ()
  | i :: rest => do
      enumPartition dev buffer i
      enumPartitions dev buffer rest

/-- Without a protective MBR and a GPT there are no nodes of partitions. -/
def enumTable (dev : NodePtr) (buffer : Buffer) : Op Unit :=
  if hasMbr buffer && hasGpt buffer then enumPartitions dev buffer (List.range 8) else pure ()

/-- What `dev_enum` does once "/dev" is there. -/
def fillDev (dev : NodePtr) (buffer : Buffer) : Op Unit := do
  let _zero ← makeNode dev "zero".toList 0 0 .devfs
  let _rand ← makeNode dev "rand".toList 0 0 .devfs
  initTerminal
  let _tty ← makeNode dev "tty".toList 0 0 .devfs
  getHeader
  initAdmin
  createIocq
  createIosq
  let nvmeName ← kmalloc
  let _nvme ← makeNode dev "nvme".toList 0 0 .devfs
  let page ← kmalloc
  enumTable dev buffer
  kfree nvmeName
  kfree page

/-- `dev_enum` for the eight sectors that the disk starts with. -/
def enumDevices (buffer : Buffer) : Op Unit := do
  let dev ← makeNode .root "dev".toList DIRECTORY 0 .devfs
  fillDev dev buffer

/-- What `init_vfs` stores before it asks for a page. -/
def cleared (k : Kernel) : Kernel :=
  { k with fds := none, root := { k.root with name := "root".toList, flags := DIRECTORY, size := 0 } }

/-- The root's page, with nothing in it. -/
def plantRoot : Op Unit := do
  let dirents ← kmalloc
  modify fun k => { k with root := { k.root with dirents := dirents } }
  modify (Kernel.setNode · (.dirent dirents 0) fun n => { n with name := [] })
  modify fun k => { k with root := { k.root with fs := .tmpfs } }

def initVfs (buffer : Buffer) : Op Unit := do
  modify cleared
  plantRoot
  initTmpfs
  enumDevices buffer

/-! What a page of dirents holds. -/

/-- The nodes in a page, up to the end of the list. -/
structure Lists (k : Kernel) (page : Nat) (list : List Vnode) : Prop where
  node : ∀ j (inside : j < list.length), k.pages page j = list[j]
  named : ∀ node ∈ list, node.name ≠ []
  ended : (k.pages page list.length).name = []

section Make

variable {k k' : Kernel} {nodes : Nat → Prop} {page : Nat} {list : List Vnode} {parent : NodePtr}
  {name : List Char}

theorem Lists.congr (lists : Lists k page list) (same : k'.pages page = k.pages page) :
    Lists k' page list where
  node := by rw [same]; exact lists.node
  named := lists.named
  ended := by rw [same]; exact lists.ended

theorem Lists.visible_iff (lists : Lists k page list) {j : Nat} :
    Visible k page j ↔ j < list.length := by
  constructor
  · intro visible
    by_contra late
    exact visible list.length (by omega) lists.ended
  · intro inside i upto
    have before : i < list.length := by omega
    rw [lists.node i before]
    exact lists.named _ (List.getElem_mem before)

theorem Lists.findEnd_eq (lists : Lists k page list) (room : list.length < DIRENT_SLOTS)
    (free : name ∉ list.map Vnode.name) :
    findEnd (k.pages page) name DIRENT_SLOTS 0 = some list.length := by
  rw [findEnd_some_iff]
  refine ⟨Nat.zero_le _, by omega, lists.ended, ?_⟩
  intro j _ inside
  rw [lists.node j inside]
  refine ⟨lists.named _ (List.getElem_mem inside), ?_⟩
  intro same
  exact free (List.mem_map.mpr ⟨_, List.getElem_mem inside, same⟩)

theorem Kernel.setNode_again (k : Kernel) (page slot : Nat) (f : Vnode → Vnode) :
    ((k.setNode (.dirent page (slot + 1)) fun n => { n with name := [] }).setNode
        (.dirent page slot) f).setNode (.dirent page (slot + 1)) (fun n => { n with name := [] }) =
      (k.setNode (.dirent page slot) f).setNode (.dirent page (slot + 1))
        fun n => { n with name := [] } := by
  have pages : (((k.setNode (.dirent page (slot + 1)) fun n => { n with name := [] }).setNode
        (.dirent page slot) f).setNode (.dirent page (slot + 1)) (fun n => { n with name := [] })).pages =
      ((k.setNode (.dirent page slot) f).setNode (.dirent page (slot + 1))
        fun n => { n with name := [] }).pages := by
    funext q j
    by_cases here : q = page
    · rw [here]
      by_cases next : j = slot + 1
      · rw [next, Kernel.setNode_self, Kernel.setNode_self,
          Kernel.setNode_slot _ _ _ (Nat.succ_ne_self slot), Kernel.setNode_self,
          Kernel.setNode_slot _ _ _ (Nat.succ_ne_self slot)]
      · rw [Kernel.setNode_slot _ _ _ next, Kernel.setNode_slot _ _ _ next]
        by_cases this_one : j = slot
        · rw [this_one, Kernel.setNode_self, Kernel.setNode_self,
            Kernel.setNode_slot _ _ _ (Nat.succ_ne_self slot).symm]
        · rw [Kernel.setNode_slot _ _ _ this_one, Kernel.setNode_slot _ _ _ next,
            Kernel.setNode_slot _ _ _ this_one]
    · rw [Kernel.setNode_page _ _ _ here, Kernel.setNode_page _ _ _ here,
        Kernel.setNode_page _ _ _ here, Kernel.setNode_page _ _ _ here, Kernel.setNode_page _ _ _ here]
  exact congrArg (fun pages => { k with pages := pages }) pages

theorem Kernel.node_setNode (k : Kernel) (page slot : Nat) (f : Vnode → Vnode) (p : NodePtr) :
    (k.setNode (.dirent page slot) f).node p =
      if p = .dirent page slot then f (k.node p) else k.node p := by
  split
  · rename_i here
    rw [here]
    exact Kernel.setNode_self ..
  · rename_i other
    cases p with
    | root => rfl
    | dirent q j =>
        change (k.setNode (.dirent page slot) f).pages q j = k.pages q j
        by_cases here : q = page
        · have elsewhere : j ≠ slot := fun same => other (by rw [here, same])
          rw [here, Kernel.setNode_slot _ _ _ elsewhere]
        · rw [Kernel.setNode_page _ _ _ here]

theorem Kernel.setNode_dirents (k : Kernel) (page slot : Nat) {f : Vnode → Vnode}
    (kept : ∀ n, (f n).dirents = n.dirents) (p : NodePtr) :
    ((k.setNode (.dirent page slot) f).node p).dirents = (k.node p).dirents := by
  rw [Kernel.node_setNode]
  split
  · exact kept _
  · rfl

theorem findEnd_mark {slot : Nat}
    (found : findEnd (k.pages page) name DIRENT_SLOTS 0 = some slot) :
    findEnd ((k.setNode (.dirent page (slot + 1)) fun n => { n with name := [] }).pages page) name
      DIRENT_SLOTS 0 = some slot := by
  rw [findEnd_some_iff] at found ⊢
  refine ⟨found.1, found.2.1, ?_, fun j low high => ?_⟩
  · rw [Kernel.setNode_slot _ _ _ (Nat.succ_ne_self slot).symm]
    exact found.2.2.1
  · rw [Kernel.setNode_slot _ _ _ (by omega)]
    exact found.2.2.2 j low high

theorem newVnode_mark (dirents : (k.node parent).dirents = page) {slot : Nat}
    (found : findEnd (k.pages page) name DIRENT_SLOTS 0 = some slot) :
    newVnode parent name k =
      newVnode parent name (k.setNode (.dirent page (slot + 1)) fun n => { n with name := [] }) := by
  generalize marked : (k.setNode (.dirent page (slot + 1)) fun n => { n with name := [] }) = k₁
  have dirents₁ : (k₁.node parent).dirents = page := by
    rw [← marked, Kernel.setNode_dirents, dirents]
    exact fun n => rfl
  have found₁ : findEnd (k₁.pages page) name DIRENT_SLOTS 0 = some slot := marked ▸ findEnd_mark found
  rw [newVnode, get_bind, get_bind, dirents, dirents₁]
  simp only [found, found₁]
  split
  · rfl
  · simp only [modify_bind]
    rw [← marked, Kernel.setNode_again]

/-- A node made at the end of the list of its parent, with a page of its own. -/
structure Made (k : Kernel) (nodes : Nat → Prop) (page : Nat) (list : List Vnode) (node : Vnode)
    (k' : Kernel) : Prop where
  root : k'.root = k.root
  fds : k'.fds = k.fds
  free : k.heap node.dirents = false
  heap : k'.heap = Function.update k.heap node.dirents true
  lists : Lists k' page (list ++ [node])
  empty : Lists k' node.dirents []
  others : ∀ q, q ≠ page → q ≠ node.dirents → k'.pages q = k.pages q
  tree : Tree k' fun q => nodes q ∨ q = node.dirents

theorem Added.lists {fresh : Nat} {f : Vnode → Vnode} (lists : Lists k page list)
    (added : Added (k.setNode (.dirent page (list.length + 1)) fun n => { n with name := [] }) page
      list.length name fresh k') (proper : name ≠ []) (keeps : ∀ n, (f n).name = n.name) :
    Lists (k'.setNode (.dirent page list.length) f) page
      (list ++ [f { k.pages page list.length with name := name, dirents := fresh }]) := by
  constructor
  · intro j inside
    rw [List.length_append, List.length_singleton] at inside
    by_cases last : j = list.length
    · subst last
      rw [Kernel.setNode_self, added.node, List.getElem_append_right le_rfl,
        Kernel.setNode_slot _ _ _ (Nat.succ_ne_self _).symm]
      simp
    · rw [Kernel.setNode_slot _ _ _ last, added.rest _ last, Kernel.setNode_slot _ _ _ (by omega),
        List.getElem_append_left (by omega), lists.node]
  · intro node member
    rcases List.mem_append.mp member with old | new
    · exact lists.named node old
    · rw [List.mem_singleton.mp new, keeps]
      exact proper
  · rw [List.length_append, List.length_singleton, Kernel.setNode_slot _ _ _ (Nat.succ_ne_self _),
      added.rest _ (Nat.succ_ne_self _), Kernel.setNode_self]

theorem Tree.grow {k₁ : Kernel} (tree : Tree k nodes) (lists : Lists k page list)
    (inside : nodes page) {node : Vnode} (root : k₁.root = k.root)
    (free : k.heap node.dirents = false)
    (heap : k₁.heap = Function.update k.heap node.dirents true)
    (others : ∀ q, q ≠ page → q ≠ node.dirents → k₁.pages q = k.pages q)
    (longer : Lists k₁ page (list ++ [node])) (empty : Lists k₁ node.dirents []) :
    Tree k₁ fun q => nodes q ∨ q = node.dirents := by
  have apart {q : Nat} (member : nodes q) : q ≠ node.dirents := by
    intro same
    have used := tree.used q member
    rw [same, free] at used
    cases used
  -- A visible slot is the new node's, or was visible before and has not changed.
  have cases_of {q j : Nat} (member : nodes q ∨ q = node.dirents) (visible : Visible k₁ q j) :
      (q = page ∧ j = list.length ∧ k₁.pages q j = node) ∨
        (nodes q ∧ Visible k q j ∧ k₁.pages q j = k.pages q j) := by
    rcases member with old | rfl
    · by_cases here : q = page
      · subst here
        have small := longer.visible_iff.mp visible
        rw [List.length_append, List.length_singleton] at small
        by_cases last : j = list.length
        · refine .inl ⟨rfl, last, ?_⟩
          subst last
          rw [longer.node _ (by simp), List.getElem_append_right le_rfl]
          simp
        · have before : j < list.length := by omega
          refine .inr ⟨old, lists.visible_iff.mpr before, ?_⟩
          rw [longer.node j (by simp; omega), List.getElem_append_left before, lists.node j before]
      · have same := others q here (apart old)
        refine .inr ⟨old, ?_, by rw [same]⟩
        intro i upto
        have named := visible i upto
        rw [same] at named
        exact named
    · exact absurd (empty.visible_iff.mp visible) (Nat.not_lt_zero j)
  have used (q : Nat) (old : k.heap q = true) : k₁.heap q = true := by
    rw [heap]
    simp only [Function.update_apply, old, ite_self]
  constructor
  case used =>
    rintro q (old | rfl)
    · exact used q (tree.used q old)
    · rw [heap, Function.update_self]
  case root =>
    rw [root]
    exact .inl tree.root
  case child =>
    intro q j member visible
    rcases cases_of member visible with ⟨_, _, new⟩ | ⟨old, before, same⟩
    · exact .inr (by rw [new])
    · rw [same]
      exact .inl (tree.child q j old before)
  case top =>
    intro q j member visible
    rw [root]
    rcases cases_of member visible with ⟨_, _, new⟩ | ⟨old, before, same⟩
    · rw [new]
      exact (apart tree.root).symm
    · rw [same]
      exact tree.top q j old before
  case below =>
    intro q j member visible
    rcases cases_of member visible with ⟨rfl, _, new⟩ | ⟨old, before, same⟩
    · rw [new]
      exact (apart inside).symm
    · rw [same]
      exact tree.below q j old before
  case alone =>
    intro q j q' j' member member' visible visible' agree
    rcases cases_of member visible with ⟨rfl, rfl, new⟩ | ⟨old, before, same⟩
    · rcases cases_of member' visible' with ⟨rfl, rfl, _⟩ | ⟨old', before', same'⟩
      · exact ⟨rfl, rfl⟩
      · rw [new, same'] at agree
        exact absurd agree.symm (apart (tree.child q' j' old' before'))
    · rcases cases_of member' visible' with ⟨rfl, rfl, new'⟩ | ⟨old', before', same'⟩
      · rw [same, new'] at agree
        exact absurd agree (apart (tree.child q j old before))
      · rw [same, same'] at agree
        exact tree.alone q j q' j' old old' before before' agree

theorem Tree.relabel (tree : Tree k nodes) (root : k'.root.dirents = k.root.dirents)
    (heap : ∀ q, nodes q → k'.heap q = true)
    (same : ∀ q j, (k'.pages q j).name = (k.pages q j).name ∧
      (k'.pages q j).dirents = (k.pages q j).dirents) : Tree k' nodes := by
  have visible {q j : Nat} (seen : Visible k' q j) : Visible k q j := by
    intro i upto
    rw [← (same q i).1]
    exact seen i upto
  constructor
  case used => exact heap
  case root =>
    rw [root]
    exact tree.root
  case child =>
    intro q j member seen
    rw [(same q j).2]
    exact tree.child q j member (visible seen)
  case top =>
    intro q j member seen
    rw [(same q j).2, root]
    exact tree.top q j member (visible seen)
  case below =>
    intro q j member seen
    rw [(same q j).2]
    exact tree.below q j member (visible seen)
  case alone =>
    intro q j q' j' member member' seen seen' agree
    rw [(same q j).2, (same q' j').2] at agree
    exact tree.alone q j q' j' member member' (visible seen) (visible seen') agree

theorem Tree.setNode {f : Vnode → Vnode} (tree : Tree k nodes) (page slot : Nat)
    (keeps : ∀ n, (f n).name = n.name ∧ (f n).dirents = n.dirents) :
    Tree (k.setNode (.dirent page slot) f) nodes := by
  refine tree.relabel rfl (fun q member => tree.used q member) fun q j => ?_
  have node := Kernel.node_setNode k page slot f (.dirent q j)
  change (k.setNode (.dirent page slot) f).pages q j = _ at node
  rw [node]
  split
  · exact keeps _
  · exact ⟨rfl, rfl⟩

theorem Lists.setNode {f : Vnode → Vnode} (before after : List Vnode) (node : Vnode)
    (lists : Lists k page (before ++ node :: after)) (keeps : (f node).name = node.name) :
    Lists (k.setNode (.dirent page before.length) f) page (before ++ f node :: after) := by
  have here : k.pages page before.length = node := by
    rw [lists.node _ (by simp)]
    simp
  constructor
  · intro j inside
    by_cases same : j = before.length
    · subst same
      rw [Kernel.setNode_self, here]
      simp
    · rw [Kernel.setNode_slot _ _ _ same, lists.node j (by simpa using inside)]
      rcases Nat.lt_or_gt_of_ne same with low | high
      · rw [List.getElem_append_left low, List.getElem_append_left low]
      · obtain ⟨d, rfl⟩ := Nat.exists_eq_add_of_lt high
        rw [List.getElem_append_right (by omega), List.getElem_append_right (by omega)]
        simp only [show before.length + d + 1 - before.length = d + 1 by omega,
          List.getElem_cons_succ]
  · intro other member
    rcases List.mem_append.mp member with old | rest
    · exact lists.named other (List.mem_append_left _ old)
    · rcases List.mem_cons.mp rest with rfl | old
      · rw [keeps]
        exact lists.named node (by simp)
      · exact lists.named other (by simp [old])
  · have late : (before ++ f node :: after).length ≠ before.length := by simp
    rw [Kernel.setNode_slot _ _ _ late]
    have ended := lists.ended
    rw [List.length_append, List.length_cons] at ended ⊢
    exact ended

theorem makeNode_costs {flags size : UInt32} {fs : Fs} (tree : Tree k nodes)
    (dirents : (k.node parent).dirents = page) (inside : nodes page) (lists : Lists k page list)
    (room_left : list.length < DIRENT_SLOTS) (free : name ∉ list.map Vnode.name)
    (proper : name ≠ []) (short : name.length < 32) :
    Costs room (makeNode parent name flags size fs) k (0, 1) (0, 1) fun p k' =>
      p = .dirent page list.length ∧ ∃ node, Made k nodes page list node k' ∧ node.name = name ∧
        node.flags = flags ∧ node.size = size ∧ node.fs = fs := by
  have found := lists.findEnd_eq room_left free
  generalize marked : (k.setNode (.dirent page (list.length + 1)) fun n => { n with name := [] }) = k₁
  have taken := tree.used page inside
  have first : Costs room (newVnode parent name) k (0, 1) (0, 1) fun p k' =>
      p = .dirent page list.length ∧ ∃ fresh, Added k₁ page list.length name fresh k' := by
    refine Costs.move ?_ (newVnode_mark dirents found) (by rw [Kernel.room_setNode])
    rw [marked]
    refine newVnode_costs ?_ ?_ ?_ ?_ short
    · rw [← marked, Kernel.setNode_dirents _ _ _ (by exact fun n => rfl), dirents]
    · rw [← marked, Kernel.setNode_heap, taken]
    · exact marked ▸ findEnd_mark found
    · rw [← marked, Kernel.setNode_self]
  rw [makeNode]
  refine (Costs.bind 0 0 first ?_).cast rfl rfl
  rintro p k₂ ⟨rfl, fresh, added⟩ _
  refine (Costs.bind 0 0 (modify_costs (Kernel.room_setNode ..)) ?_).cast rfl rfl
  intro _ k₃ same _
  refine Costs.pure (room_nonneg k₃) ⟨rfl, ⟨name, flags, size, fs, (k.pages page list.length).inode,
    (k.pages page list.length).fsInstance, fresh⟩, ?_, rfl, rfl, rfl, rfl⟩
  have unused : k.heap fresh = false := by
    rw [← added.free, ← marked, Kernel.setNode_heap]
  have apart : fresh ≠ page := by
    intro same
    rw [same, taken] at unused
    cases unused
  have longer := (marked ▸ added).lists lists proper
    (f := fun n => { n with flags := flags, size := size, fs := fs }) fun n => rfl
  rw [← same] at longer
  have root : k₃.root = k.root := by
    rw [same, Kernel.setNode_root, added.root, ← marked, Kernel.setNode_root]
  have heap : k₃.heap = Function.update k.heap fresh true := by
    rw [same, Kernel.setNode_heap, added.heap, ← marked, Kernel.setNode_heap]
  have others (q : Nat) (other : q ≠ page) (unborn : q ≠ fresh) : k₃.pages q = k.pages q := by
    rw [same, Kernel.setNode_page _ _ _ other, added.others q other unborn, ← marked,
      Kernel.setNode_page _ _ _ other]
  have empty : Lists k₃ fresh [] := by
    refine ⟨fun j none => absurd none (Nat.not_lt_zero j), by simp, ?_⟩
    rw [List.length_nil, same, Kernel.setNode_page _ _ _ apart, added.ended]
  refine ⟨root, ?_, unused, heap, longer, empty, others, ?_⟩
  · rw [same, Kernel.setNode_fds, added.fds, ← marked, Kernel.setNode_fds]
  · exact tree.grow lists inside root unused heap others longer empty

end Make

section Build

/-- What the maker of a node has stored in it. -/
def face (node : Vnode) : List Char × UInt32 × UInt32 × Fs :=
  (node.name, node.flags, node.size, node.fs)

/-- The tree while it is built, with the nodes in the root's page. -/
structure Rooted (k : Kernel) (nodes : Nat → Prop) (page : Nat) (list : List Vnode) : Prop where
  fds : k.fds = none
  root : face k.root = ("root".toList, DIRECTORY, 0, .tmpfs) ∧ k.root.dirents = page
  tree : Tree k nodes
  lists : Lists k page list

/-- The tree while "/dev" is filled, the last of the nodes in the root's page; `spare` are pages
that are taken for something else. -/
structure Built (k : Kernel) (nodes : Nat → Prop) (spare : List Nat) (page : Nat)
    (top : List Vnode) (dev : Vnode) (below : List Vnode) : Prop
    extends Rooted k nodes page (top ++ [dev]) where
  spare : ∀ q ∈ spare, q < HEAP_PAGES ∧ k.heap q = true ∧ ¬ nodes q
  leaves : ∀ node ∈ top, Lists k node.dirents []
  inDev : Lists k dev.dirents below

variable {k k' : Kernel} {nodes : Nat → Prop} {spare : List Nat} {page : Nat} {top below : List Vnode}
  {dev : Vnode}

theorem Rooted.rootPage (rooted : Rooted k nodes page top) : nodes page := rooted.root.2 ▸ rooted.tree.root

theorem Rooted.reheap (rooted : Rooted k nodes page top) {heap : Kheap}
    (same : k' = { k with heap := heap }) (kept : ∀ q, nodes q → heap q = true) :
    Rooted k' nodes page top := by
  have pages : k'.pages = k.pages := by rw [same]
  have root : k'.root = k.root := by rw [same]
  refine ⟨by rw [same, ← rooted.fds], by rw [root]; exact rooted.root,
    rooted.tree.congr root pages fun q member => ?_, rooted.lists.congr (by rw [pages])⟩
  rw [same]
  exact kept q member

theorem Rooted.kmalloc (rooted : Rooted k nodes page top) {q : Nat}
    (same : k' = { k with heap := Function.update k.heap q true }) : Rooted k' nodes page top := by
  refine rooted.reheap same fun p member => ?_
  simp only [Function.update_apply, rooted.tree.used p member, ite_self]

theorem Rooted.child (rooted : Rooted k nodes page top) {node : Vnode} (member : node ∈ top) :
    nodes node.dirents ∧ node.dirents ≠ page := by
  rcases List.getElem_of_mem member with ⟨j, inside, rfl⟩
  have visible : Visible k page j := rooted.lists.visible_iff.mpr inside
  rw [← rooted.lists.node j inside]
  exact ⟨rooted.tree.child _ _ rooted.rootPage visible, rooted.tree.below _ _ rooted.rootPage visible⟩

theorem Rooted.makeNode_costs (rooted : Rooted k nodes page top) {name : List Char}
    {flags size : UInt32} {fs : Fs} (room_left : top.length < DIRENT_SLOTS)
    (free : name ∉ top.map Vnode.name) (proper : name ≠ []) (short : name.length < 32) :
    Costs room (makeNode .root name flags size fs) k (0, 1) (0, 1) fun p k' =>
      p = .dirent page top.length ∧ ∃ nodes' node, Rooted k' nodes' page (top ++ [node]) ∧
        face node = (name, flags, size, fs) ∧ Lists k' node.dirents [] ∧
          ∀ other ∈ top, Lists k other.dirents [] → Lists k' other.dirents [] := by
  have rootPage : (k.node .root).dirents = page := rooted.root.2
  refine (Vfs.makeNode_costs rooted.tree rootPage rooted.rootPage rooted.lists room_left free proper
    short).mono ?_
  rintro p k' ⟨rfl, node, made, rfl, rfl, rfl, rfl⟩
  refine ⟨rfl, _, node, ⟨made.fds.trans rooted.fds, ?_, made.tree, made.lists⟩, rfl, made.empty, ?_⟩
  · rw [made.root]
    exact rooted.root
  · intro other member leaf
    rcases rooted.child member with ⟨inside, apart⟩
    refine leaf.congr (made.others _ apart fun same => ?_)
    have used := rooted.tree.used _ inside
    rw [same, made.free] at used
    cases used

theorem Built.used (built : Built k nodes spare page top dev below) {q : Nat}
    (member : nodes q ∨ q ∈ spare) : k.heap q = true := by
  rcases member with node | other
  · exact built.tree.used q node
  · exact (built.spare q other).2.1

theorem Built.dev_eq (built : Built k nodes spare page top dev below) :
    k.node (.dirent page top.length) = dev := by
  have here := built.lists.node top.length (by simp)
  rw [List.getElem_append_right le_rfl] at here
  simp only [Nat.sub_self, List.getElem_cons_zero] at here
  exact here

theorem Built.devPage (built : Built k nodes spare page top dev below) :
    nodes dev.dirents ∧ dev.dirents ≠ page := built.toRooted.child (by simp)

theorem Built.topPage (built : Built k nodes spare page top dev below) {node : Vnode}
    (member : node ∈ top) : nodes node.dirents ∧ node.dirents ≠ dev.dirents := by
  refine ⟨(built.toRooted.child (List.mem_append_left _ member)).1, fun same => ?_⟩
  rcases List.getElem_of_mem member with ⟨j, inside, rfl⟩
  have here : k.pages page j = top[j] := by
    rw [built.lists.node j (by rw [List.length_append]; omega), List.getElem_append_left inside]
  have last : k.pages page top.length = dev := built.dev_eq
  have visible (i : Nat) (upTo : i ≤ top.length) : Visible k page i :=
    built.lists.visible_iff.mpr (by rw [List.length_append, List.length_singleton]; omega)
  have slots := (built.tree.alone page j page top.length built.rootPage built.rootPage
    (visible j (by omega)) (visible _ le_rfl) (by rw [here, last, same])).2
  omega

theorem Built.reheap (built : Built k nodes spare page top dev below) {heap : Kheap}
    (same : k' = { k with heap := heap }) (kept : ∀ q, nodes q → heap q = true) {others : List Nat}
    (apart : ∀ q ∈ others, q < HEAP_PAGES ∧ heap q = true ∧ ¬ nodes q) :
    Built k' nodes others page top dev below := by
  refine ⟨built.toRooted.reheap same kept, ?_, fun node member => ?_, built.inDev.congr (by rw [same])⟩
  · rw [same]
    exact apart
  · exact (built.leaves node member).congr (by rw [same])

theorem Built.kmalloc (built : Built k nodes spare page top dev below) {q : Nat}
    (inside : q < HEAP_PAGES) (free : k.heap q = false)
    (same : k' = { k with heap := Function.update k.heap q true }) :
    Built k' nodes (q :: spare) page top dev below := by
  have kept (p : Nat) (old : k.heap p = true) : Function.update k.heap q true p = true := by
    simp only [Function.update_apply, old, ite_self]
  refine built.reheap same (fun p member => kept p (built.tree.used p member)) ?_
  intro p member
  rcases List.mem_cons.mp member with rfl | old
  · refine ⟨inside, Function.update_self .., fun node => ?_⟩
    rw [built.tree.used p node] at free
    cases free
  · have before := built.spare p old
    exact ⟨before.1, kept p before.2.1, before.2.2⟩

theorem Built.kfree (built : Built k nodes (spare ++ [page']) page top dev below)
    (unlisted : page' ∉ spare)
    (same : k' = { k with heap := Function.update k.heap page' false }) :
    Built k' nodes spare page top dev below := by
  have given := built.spare page' (by simp)
  have kept (p : Nat) (other : p ≠ page') (old : k.heap p = true) :
      Function.update k.heap page' false p = true :=
    (Function.update_of_ne other ..).trans old
  refine built.reheap same (fun p node => kept p ?_ (built.tree.used p node)) fun p member => ?_
  · intro here
    exact given.2.2 (here ▸ node)
  · have before := built.spare p (List.mem_append_left _ member)
    refine ⟨before.1, kept p ?_ before.2.1, before.2.2⟩
    intro here
    exact unlisted (here ▸ member)

theorem Built.make (built : Built k nodes spare page top dev below) {node : Vnode}
    (made : Made k nodes dev.dirents below node k') :
    Built k' (fun q => nodes q ∨ q = node.dirents) spare page top dev (below ++ [node]) := by
  have apart {q : Nat} (member : nodes q ∨ q ∈ spare) : q ≠ node.dirents := by
    intro same
    have used := built.used member
    rw [same, made.free] at used
    cases used
  have pages := made.others page built.devPage.2.symm (apart (.inl built.rootPage))
  refine ⟨⟨made.fds.trans built.fds, by rw [made.root]; exact built.root, made.tree,
    built.lists.congr pages⟩, ?_, ?_, made.lists⟩
  · intro q member
    have before := built.spare q member
    refine ⟨before.1, ?_, ?_⟩
    · rw [made.heap]
      simp only [Function.update_apply, before.2.1, ite_self]
    · rintro (old | new)
      · exact before.2.2 old
      · exact apart (.inr member) new
  · intro leaf member
    rcases built.topPage member with ⟨inside, other⟩
    exact (built.leaves leaf member).congr (made.others _ other (apart (.inl inside)))

theorem takePages_costs (count : Nat) (built : Built k nodes spare page top dev below) :
    Costs room (takePages count) k (0, count) (0, count) fun _ k' =>
      Built k' nodes spare page top dev below := by
  induction count generalizing k with
  | zero => exact Costs.pure (room_nonneg k) built
  | succ count ih =>
      refine (Costs.bind (0, (count : Int)) (0, (count : Int)) (kmalloc_costs k) ?_).cast
        (need_eq rfl (by push_cast; omega)) (net_eq rfl (by push_cast; omega))
      intro q k₁ ⟨inside, free, same⟩ _
      have more := built.kmalloc inside free same
      exact ih { more with spare := fun p member => more.spare p (List.mem_cons_of_mem q member) }

theorem Built.makeNode_costs (built : Built k nodes spare page top dev below) {name : List Char}
    {flags size : UInt32} {fs : Fs} (room_left : below.length < DIRENT_SLOTS)
    (free : name ∉ below.map Vnode.name) (proper : name ≠ []) (short : name.length < 32) :
    Costs room (makeNode (.dirent page top.length) name flags size fs) k (0, 1) (0, 1) fun p k' =>
      p = .dirent dev.dirents below.length ∧ ∃ nodes' node,
        Built k' nodes' spare page top dev (below ++ [node]) ∧ face node = (name, flags, size, fs) := by
  refine (Vfs.makeNode_costs built.tree (congrArg Vnode.dirents built.dev_eq) built.devPage.1
    built.inDev room_left free proper short).mono ?_
  rintro p k' ⟨rfl, node, made, rfl, rfl, rfl, rfl⟩
  exact ⟨rfl, _, node, built.make made, rfl⟩

/-- What stays of a node of a partition when the page of its children and what was in the slot
before it are left out. -/
def bare (node : Vnode) : Vnode := { node with inode := 0, dirents := 0 }

theorem Built.setLast {f : Vnode → Vnode} {node : Vnode}
    (built : Built k nodes spare page top dev (below ++ [node]))
    (keeps : ∀ n, (f n).name = n.name ∧ (f n).dirents = n.dirents) :
    Built (k.setNode (.dirent dev.dirents below.length) f) nodes spare page top dev
      (below ++ [f node]) where
  fds := built.fds
  root := built.root
  tree := built.tree.setNode _ _ keeps
  spare := built.spare
  lists := built.lists.congr (Kernel.setNode_page _ _ _ built.devPage.2.symm)
  leaves node member := (built.leaves node member).congr
    (Kernel.setNode_page _ _ _ (built.topPage member).2)
  inDev := built.inDev.setNode below [] node (keeps node).1

/-- The entries among some for which a node is made. -/
def usedOf (buffer : Buffer) (entries : List Nat) : List Nat :=
  entries.filter fun i => (pentry buffer i).used ≠ 0

theorem usedOf_cons (buffer : Buffer) (i : Nat) (rest : List Nat) :
    usedOf buffer (i :: rest) = usedOf buffer [i] ++ usedOf buffer rest :=
  List.filter_append [i] rest

theorem enumPartition_costs (buffer : Buffer) (i : Nat)
    (built : Built k nodes spare page top dev below) (room_left : below.length < DIRENT_SLOTS)
    (free : nvmeName i ∉ below.map Vnode.name) :
    Costs room (enumPartition (.dirent page top.length) buffer i) k
      (0, (usedOf buffer [i]).length) (0, (usedOf buffer [i]).length)
      fun _ k' => ∃ nodes' parts, Built k' nodes' spare page top dev (below ++ parts) ∧
        parts.map bare = (usedOf buffer [i]).map fun i => partNode (pentry buffer i) i := by
  rw [enumPartition]
  by_cases used : (pentry buffer i).used ≠ 0
  · have one : usedOf buffer [i] = [i] := List.filter_cons_of_pos (decide_eq_true used)
    simp only [if_pos used, one]
    have named : nvmeName i ≠ [] := by simp [nvmeName]
    have short : (nvmeName i).length < 32 := by simp [nvmeName]
    refine (Costs.bind 0 0 (built.makeNode_costs room_left free named short) ?_).cast rfl rfl
    rintro p k₁ ⟨rfl, nodes', node, more, facing⟩ _
    refine Costs.mono (modify_costs (Kernel.room_setNode ..)) ?_
    rintro _ k₂ rfl
    refine ⟨nodes', [{ node with fsInstance := i.toUInt8 }], more.setLast fun n => ⟨rfl, rfl⟩, ?_⟩
    rw [face, Prod.mk.injEq, Prod.mk.injEq, Prod.mk.injEq] at facing
    rw [List.map_singleton, bare, List.map_singleton, partNode, facing.1, facing.2.1, facing.2.2.1,
      facing.2.2.2]
  · have none : usedOf buffer [i] = [] := List.filter_cons_of_neg (by simpa using used)
    simp only [if_neg used, none]
    exact Costs.pure (room_nonneg k) ⟨nodes, [], by rw [List.append_nil]; exact built, rfl⟩

theorem enumPartitions_costs (buffer : Buffer) (entries : List Nat)
    (built : Built k nodes spare page top dev below)
    (room_left : below.length + entries.length ≤ DIRENT_SLOTS)
    (free : ∀ i ∈ entries, nvmeName i ∉ below.map Vnode.name)
    (distinct : (entries.map nvmeName).Nodup) :
    Costs room (enumPartitions (.dirent page top.length) buffer entries) k
      (0, (usedOf buffer entries).length) (0, (usedOf buffer entries).length)
      fun _ k' => ∃ nodes' parts, Built k' nodes' spare page top dev (below ++ parts) ∧
        parts.map bare = (usedOf buffer entries).map fun i => partNode (pentry buffer i) i := by
  induction entries generalizing k nodes below with
  | nil => exact Costs.pure (room_nonneg k) ⟨nodes, [], by rw [List.append_nil]; exact built, rfl⟩
  | cons i rest ih =>
      rw [List.length_cons] at room_left
      rw [List.map_cons, List.nodup_cons] at distinct
      rw [usedOf_cons, List.length_append]
      refine (Costs.bind (0, ((usedOf buffer rest).length : Int))
        (0, ((usedOf buffer rest).length : Int))
        (enumPartition_costs buffer i built (by omega) (free i List.mem_cons_self)) ?_).cast
        (need_eq rfl (by push_cast; omega)) (net_eq rfl (by push_cast; rfl))
      rintro _ k₁ ⟨nodes₁, new, more, made⟩ _
      have names : new.map Vnode.name = (usedOf buffer [i]).map nvmeName := by
        have same := congrArg (List.map Vnode.name) made
        rw [List.map_map, List.map_map] at same
        exact same
      have few : new.length ≤ 1 := by
        rw [← List.length_map Vnode.name, names, List.length_map]
        exact List.length_filter_le _ [i]
      refine (ih more ?_ ?_ distinct.2).mono ?_
      · rw [List.length_append]
        omega
      · intro j member taken
        rw [List.map_append, names] at taken
        rcases List.mem_append.mp taken with old | last
        · exact free j (List.mem_cons_of_mem i member) old
        · rcases List.mem_map.mp last with ⟨i', here, same⟩
          have this_one : i' = i := List.mem_singleton.mp (List.mem_of_mem_filter here)
          exact distinct.1 (List.mem_map.mpr ⟨j, member, by rw [← same, this_one]⟩)
      · rintro _ k₂ ⟨nodes₂, parts, most, others⟩
        refine ⟨nodes₂, new ++ parts, by rw [← List.append_assoc]; exact most, ?_⟩
        rw [List.map_append, made, others, List.map_append]

/-- The nodes in "/dev" that are there on every machine. -/
def fixedDevices : List (List Char × UInt32 × UInt32 × Fs) :=
  ["zero", "rand", "tty", "nvme"].map fun name => (name.toList, 0, 0, .devfs)

theorem partition_names : ((List.range 8).map nvmeName).Nodup ∧
    ∀ i ∈ List.range 8, nvmeName i ∉ fixedDevices.map (·.1) := by
  decide +kernel

theorem Built.device (built : Built k nodes spare page top dev below) (n : Nat)
    (made : below.map face = fixedDevices.take n) {name : List Char}
    (next : fixedDevices[n]? = some (name, 0, 0, .devfs))
    (free : name ∉ (fixedDevices.take n).map (·.1)) :
    Costs room (makeNode (.dirent page top.length) name 0 0 .devfs) k (0, 1) (0, 1) fun _ k' =>
      ∃ nodes' below', Built k' nodes' spare page top dev below' ∧
        below'.map face = fixedDevices.take (n + 1) := by
  have proper : ∀ device ∈ fixedDevices, device.1 ≠ [] ∧ device.1.length < 32 := by decide +kernel
  have own := proper _ (List.mem_of_getElem? next)
  have names : below.map Vnode.name = (fixedDevices.take n).map (·.1) := by
    rw [← made, List.map_map]
    rfl
  have few : below.length < DIRENT_SLOTS := by
    have upTo := congrArg List.length made
    rw [List.length_map, List.length_take] at upTo
    have four : fixedDevices.length = 4 := rfl
    have many : DIRENT_SLOTS = 68 := rfl
    omega
  refine (built.makeNode_costs few (names ▸ free) own.1 own.2).mono ?_
  rintro _ k' ⟨_, nodes', node, more, facing⟩
  refine ⟨nodes', below ++ [node], more, ?_⟩
  rw [List.map_append, List.map_singleton, made, facing, List.take_add_one, next, Option.toList_some]

theorem usedEntries_eq (buffer : Buffer) : usedEntries buffer =
    if hasMbr buffer && hasGpt buffer then usedOf buffer (List.range 8) else [] := rfl

theorem enumTable_costs (buffer : Buffer) (built : Built k nodes spare page top dev below)
    (made : below.map face = fixedDevices) :
    Costs room (enumTable (.dirent page top.length) buffer) k
      (0, (usedEntries buffer).length) (0, (usedEntries buffer).length)
      fun _ k' => ∃ nodes' parts, Built k' nodes' spare page top dev (below ++ parts) ∧
        parts.map bare = devEnum buffer := by
  rw [enumTable, devEnum, usedEntries_eq]
  split
  · have names : below.map Vnode.name = fixedDevices.map (·.1) := by
      rw [← made, List.map_map]
      rfl
    have few : below.length = 4 := by
      rw [← List.length_map face, made]
      rfl
    refine enumPartitions_costs buffer (List.range 8) built (by rw [few]; decide) ?_
      partition_names.1
    rw [names]
    exact partition_names.2
  · exact Costs.pure (room_nonneg k) ⟨nodes, [], by rw [List.append_nil]; exact built, rfl⟩

theorem Built.kfree_costs (spare : List Nat) {q : Nat}
    (built : Built k nodes (spare ++ [q]) page top dev below) (unlisted : q ∉ spare) :
    Costs room (Vfs.kfree q) k 0 (0, -1) fun _ k' => Built k' nodes spare page top dev below := by
  have given := built.spare q (by simp)
  exact (Vfs.kfree_costs given.1 given.2.1).mono fun _ k' same => built.kfree unlisted same

theorem fillDev_costs (buffer : Buffer) (built : Built k nodes [] page top dev []) :
    Costs room (fillDev (.dirent page top.length) buffer) k
      (0, 16 + (usedEntries buffer).length) (0, 14 + (usedEntries buffer).length)
      fun _ k' => ∃ nodes' devices parts, Built k' nodes' [] page top dev (devices ++ parts) ∧
        devices.map face = fixedDevices ∧ parts.map bare = devEnum buffer := by
  generalize count : ((usedEntries buffer).length : Int) = u
  have nonneg : 0 ≤ u := by omega
  rw [fillDev]
  refine (Costs.bind (0, 15 + u) (0, 13 + u) (built.device 0 rfl rfl (by decide +kernel)) ?_).cast
    (need_eq rfl (by omega)) (net_eq rfl (by omega))
  rintro _ k₁ ⟨nodes₁, below₁, built₁, made₁⟩ _
  refine (Costs.bind (0, 14 + u) (0, 12 + u) (built₁.device 1 made₁ rfl (by decide +kernel)) ?_).cast
    (need_eq rfl (by omega)) (net_eq rfl (by omega))
  rintro _ k₂ ⟨nodes₂, below₂, built₂, made₂⟩ _
  refine (Costs.bind (0, 11 + u) (0, 9 + u) (takePages_costs 3 built₂) ?_).cast
    (need_eq rfl (by omega)) (net_eq rfl (by omega))
  rintro _ k₃ built₃ _
  refine (Costs.bind (0, 10 + u) (0, 8 + u) (built₃.device 2 made₂ rfl (by decide +kernel)) ?_).cast
    (need_eq rfl (by omega)) (net_eq rfl (by omega))
  rintro _ k₄ ⟨nodes₄, below₄, built₄, made₄⟩ _
  refine (Costs.bind (0, 9 + u) (0, 7 + u) (takePages_costs 1 built₄) ?_).cast
    (need_eq rfl (by omega)) (net_eq rfl (by omega))
  rintro _ k₅ built₅ _
  refine (Costs.bind (0, 5 + u) (0, 3 + u) (takePages_costs 4 built₅) ?_).cast
    (need_eq rfl (by omega)) (net_eq rfl (by omega))
  rintro _ k₆ built₆ _
  refine (Costs.bind (0, 4 + u) (0, 2 + u) (takePages_costs 1 built₆) ?_).cast
    (need_eq rfl (by omega)) (net_eq rfl (by omega))
  rintro _ k₇ built₇ _
  refine (Costs.bind (0, 3 + u) (0, 1 + u) (takePages_costs 1 built₇) ?_).cast
    (need_eq rfl (by omega)) (net_eq rfl (by omega))
  rintro _ k₈ built₈ _
  refine (Costs.bind (0, 2 + u) (0, u) (kmalloc_costs k₈) ?_).cast
    (need_eq rfl (by omega)) (net_eq rfl (by omega))
  rintro named k₉ ⟨inside, free, same⟩ _
  refine (Costs.bind (0, 1 + u) (0, u - 1)
    ((built₈.kmalloc inside free same).device 3 made₄ rfl (by decide +kernel)) ?_).cast
    (need_eq rfl (by omega)) (net_eq rfl (by omega))
  rintro _ k₁₀ ⟨nodes₁₀, devices, built₁₀, made₁₀⟩ _
  refine (Costs.bind (0, u) (0, u - 2) (kmalloc_costs k₁₀) ?_).cast
    (need_eq rfl (by omega)) (net_eq rfl (by omega))
  rintro loaded k₁₁ ⟨inside', free', same'⟩ _
  have apart : named ∉ [loaded] := by
    intro here
    have taken := (built₁₀.spare named List.mem_cons_self).2.1
    rw [List.mem_singleton.mp here, free'] at taken
    cases taken
  have table := enumTable_costs buffer (built₁₀.kmalloc inside' free' same') made₁₀
  rw [count] at table
  refine (Costs.bind (0, 0) (0, -2) table ?_).cast (need_eq rfl (by omega)) (net_eq rfl (by omega))
  rintro _ k₁₂ ⟨nodes₁₂, parts, built₁₂, listed⟩ _
  refine (Costs.bind (0, 0) (0, -1) (Built.kfree_costs [loaded] built₁₂ apart) ?_).cast
    (need_eq rfl (by omega)) (net_eq rfl (by omega))
  rintro _ k₁₃ built₁₃ _
  refine (Built.kfree_costs [] built₁₃ List.not_mem_nil).mono ?_
  rintro _ k₁₄ built₁₄
  exact ⟨nodes₁₂, devices, parts, built₁₄, made₁₀, listed⟩

/-- What `init_vfs` leaves: "/mnt" and "/file", and "/dev" with a node for each partition. -/
structure Booted (buffer : Buffer) (k : Kernel) (nodes : Nat → Prop) (page : Nat) (top : List Vnode)
    (dev : Vnode) (devices parts : List Vnode) : Prop
    extends Built k nodes [] page top dev (devices ++ parts) where
  topFaces : top.map face = [("mnt".toList, DIRECTORY, 0, .tmpfs), ("file".toList, 0, 0, .tmpfs)]
  devFace : face dev = ("dev".toList, DIRECTORY, 0, .devfs)
  deviceFaces : devices.map face = fixedDevices
  partNodes : parts.map bare = devEnum buffer

theorem initTmpfs_costs (rooted : Rooted k nodes page []) :
    Costs room initTmpfs k (0, 3) (0, 3) fun _ k' => ∃ nodes' top, Rooted k' nodes' page top ∧
      top.map face = [("mnt".toList, DIRECTORY, 0, .tmpfs), ("file".toList, 0, 0, .tmpfs)] ∧
        ∀ node ∈ top, Lists k' node.dirents [] := by
  rw [initTmpfs]
  refine (Costs.bind (0, 2) (0, 2) (kmalloc_costs k) ?_).cast rfl rfl
  rintro tmpfile k₁ ⟨_, _, same⟩ _
  refine (Costs.bind (0, 1) (0, 1) ((rooted.kmalloc same).makeNode_costs (by decide) (by decide)
    (by decide) (by decide)) ?_).cast rfl rfl
  rintro _ k₂ ⟨_, nodes₂, mnt, rooted₂, face₂, leaf₂, _⟩ _
  have named : mnt.name = "mnt".toList := congrArg Prod.fst face₂
  refine (Costs.bind 0 0 (rooted₂.makeNode_costs (by simp [DIRENT_SLOTS]) ?_ (by decide)
    (by decide)) ?_).cast rfl rfl
  · rw [List.nil_append, List.map_singleton, named]
    decide
  rintro _ k₃ ⟨_, nodes₃, file, rooted₃, face₃, leaf₃, kept₃⟩ _
  refine Costs.pure (room_nonneg k₃) ⟨nodes₃, _, rooted₃, ?_, ?_⟩
  · rw [List.nil_append, List.map_append, List.map_singleton, List.map_singleton, face₂, face₃]
    rfl
  · intro node member
    rcases List.mem_append.mp member with old | new
    · rw [List.mem_singleton.mp old]
      exact kept₃ mnt (by simp) leaf₂
    · rw [List.mem_singleton.mp new]
      exact leaf₃

theorem enumDevices_costs (buffer : Buffer) (rooted : Rooted k nodes page top)
    (faces : top.map face = [("mnt".toList, DIRECTORY, 0, .tmpfs), ("file".toList, 0, 0, .tmpfs)])
    (leaves : ∀ node ∈ top, Lists k node.dirents []) :
    Costs room (enumDevices buffer) k (0, 17 + (usedEntries buffer).length)
      (0, 15 + (usedEntries buffer).length)
      fun _ k' => ∃ nodes' dev devices parts, Booted buffer k' nodes' page top dev devices parts := by
  have names : top.map Vnode.name = ["mnt".toList, "file".toList] := by
    have same := congrArg (List.map Prod.fst) faces
    rw [List.map_map] at same
    exact same
  have two : top.length = 2 := by
    rw [← List.length_map Vnode.name, names]
    rfl
  rw [enumDevices]
  refine (Costs.bind (0, 16 + ((usedEntries buffer).length : Int))
    (0, 14 + ((usedEntries buffer).length : Int))
    (rooted.makeNode_costs (by rw [two]; decide) (by rw [names]; decide) (by decide) (by decide))
    ?_).cast (need_eq rfl (by omega)) (net_eq rfl (by omega))
  rintro _ k₁ ⟨rfl, nodes₁, dev, rooted₁, facing, empty, kept⟩ _
  have built : Built k₁ nodes₁ [] page top dev [] :=
    ⟨rooted₁, fun q member => absurd member List.not_mem_nil,
      fun node member => kept node member (leaves node member), empty⟩
  refine (fillDev_costs buffer built).mono ?_
  rintro _ k₂ ⟨nodes₂, devices, parts, built₂, made, listed⟩
  exact ⟨nodes₂, dev, devices, parts, built₂, faces, facing, made, listed⟩

theorem plantRoot_costs (k : Kernel) :
    Costs room plantRoot (cleared k) (0, 1) (0, 1) fun _ k' =>
      ∃ page, Rooted k' (· = page) page [] := by
  rw [plantRoot]
  refine (Costs.bind 0 0 (kmalloc_costs (cleared k)) ?_).cast rfl rfl
  rintro page k₁ ⟨_, _, same₁⟩ _
  refine (Costs.bind 0 0 (modify_costs rfl) ?_).cast rfl rfl
  rintro _ k₂ same₂ _
  refine (Costs.bind 0 0 (modify_costs (Kernel.room_setNode ..)) ?_).cast rfl rfl
  rintro _ k₃ same₃ _
  refine Costs.mono (modify_costs rfl) ?_
  rintro _ k₄ same₄
  have ended : (k₄.pages page 0).name = [] := by
    rw [same₄]
    change (k₃.pages page 0).name = []
    rw [same₃, Kernel.setNode_self]
  have nothing {j : Nat} (visible : Visible k₄ page j) : False := visible 0 (Nat.zero_le j) ended
  have rootPage : k₄.root.dirents = page := by rw [same₄, same₃, same₂]; rfl
  refine ⟨page, by rw [same₄, same₃, same₂, same₁]; rfl, ⟨?_, rootPage⟩, ?_, ?_, by simp, ended⟩
  · rw [same₄, same₃, same₂, same₁]
    rfl
  · constructor
    case used =>
      rintro q rfl
      rw [same₄, same₃, same₂, same₁]
      exact Function.update_self ..
    case root => exact rootPage
    case child =>
      rintro q j rfl visible
      exact absurd (nothing visible) not_false
    case top =>
      rintro q j rfl visible
      exact absurd (nothing visible) not_false
    case below =>
      rintro q j rfl visible
      exact absurd (nothing visible) not_false
    case alone =>
      rintro q j q' j' rfl _ visible
      exact absurd (nothing visible) not_false
  · intro j inside
    exact absurd inside (Nat.not_lt_zero j)

theorem initVfs_costs (buffer : Buffer) (k : Kernel) :
    Costs room (do plantRoot; initTmpfs; enumDevices buffer) (cleared k)
      (0, 21 + (usedEntries buffer).length) (0, 19 + (usedEntries buffer).length)
      fun _ k' => ∃ nodes page top dev devices parts,
        Booted buffer k' nodes page top dev devices parts := by
  refine (Costs.bind (0, 20 + ((usedEntries buffer).length : Int))
    (0, 18 + ((usedEntries buffer).length : Int)) (plantRoot_costs k) ?_).cast
    (need_eq rfl (by omega)) (net_eq rfl (by omega))
  rintro _ k₁ ⟨page, rooted₁⟩ _
  refine (Costs.bind (0, 17 + ((usedEntries buffer).length : Int))
    (0, 15 + ((usedEntries buffer).length : Int)) (initTmpfs_costs rooted₁) ?_).cast
    (need_eq rfl (by omega)) (net_eq rfl (by omega))
  rintro _ k₂ ⟨nodes₂, top, rooted₂, faces, leaves⟩ _
  refine (enumDevices_costs buffer rooted₂ faces leaves).mono ?_
  rintro _ k₃ ⟨nodes₃, dev, devices, parts, booted⟩
  exact ⟨nodes₃, page, top, dev, devices, parts, booted⟩

end Build

section Paths

variable {k : Kernel} {page : Nat} {list : List Vnode} {part : List Char}

theorem Lists.findName_eq (lists : Lists k page list) (proper : part ≠ []) (tries i : Nat)
    (upTo : i ≤ list.length) (enough : list.length < i + tries) :
    findName (k.pages page) part tries i =
      ((list.drop i).findIdx? fun node => node.name = part).map (i + ·) := by
  induction tries generalizing i with
  | zero => omega
  | succ tries ih =>
      rw [findName]
      by_cases last : i = list.length
      · rw [last, lists.ended, if_neg proper.symm, if_pos rfl, List.drop_length]
        rfl
      · have inside : i < list.length := by omega
        rw [lists.node i inside, List.drop_eq_getElem_cons inside, List.findIdx?_cons]
        by_cases here : list[i].name = part
        · rw [if_pos here, if_pos (decide_eq_true here)]
          rfl
        · have other : ¬ decide (list[i].name = part) = true := by simpa using here
          rw [if_neg here, if_neg (lists.named _ (List.getElem_mem inside)), if_neg other,
            ih (i + 1) (by omega) (by omega), Option.map_map]
          congr 1
          funext j
          exact (Nat.add_assoc i 1 j).trans (congrArg (i + ·) (Nat.add_comm 1 j))

theorem Lists.childNode_eq {parent : NodePtr} (lists : Lists k page list)
    (dirents : (k.node parent).dirents = page) (directory : (k.node parent).flags &&& DIRECTORY ≠ 0)
    (quiet : (k.node parent).fs ≠ .ext2fs) (proper : part ≠ []) (small : list.length < 256) :
    childNode k parent part =
      (list.findIdx? fun node => node.name = part).map (NodePtr.dirent page) := by
  rw [childNode, if_neg (by rw [not_or]; exact ⟨directory, quiet⟩), dirents,
    lists.findName_eq proper 256 0 (Nat.zero_le _) (by omega), List.drop_zero]
  simp

theorem Lists.find_face (lists : Lists k page list) (part : List Char) :
    ((list.findIdx? fun node => node.name = part).map (NodePtr.dirent page)).map (face <| k.node ·) =
      (list.map face).find? (·.1 = part) := by
  rw [Option.map_map, List.find?_map]
  cases found : list.findIdx? fun node => node.name = part with
  | none =>
      rw [List.findIdx?_eq_none_iff] at found
      rw [Option.map_none, eq_comm, Option.map_eq_none_iff, List.find?_eq_none]
      intro node member
      exact ne_true_of_eq_false (found node member)
  | some i =>
      rw [List.findIdx?_eq_some_iff_getElem] at found
      obtain ⟨inside, here, before⟩ := found
      have first : list.find? ((fun entry => decide (entry.1 = part)) ∘ face) = some list[i] := by
        rw [List.find?_eq_some_iff_getElem]
        refine ⟨here, i, inside, rfl, fun j small => ?_⟩
        exact (Bool.not_eq_true' _).mpr (Bool.eq_false_iff.mpr (before j small))
      rw [first, Option.map_some, Option.map_some, ← lists.node i inside]
      rfl

end Paths

section Boot

variable {buffer : Buffer} {k : Kernel} {nodes : Nat → Prop} {page : Nat}
  {top devices parts : List Vnode} {dev : Vnode}

/-- The nodes in the root. -/
def rootEntries : List (List Char × UInt32 × UInt32 × Fs) :=
  [("mnt".toList, DIRECTORY, 0, .tmpfs), ("file".toList, 0, 0, .tmpfs),
    ("dev".toList, DIRECTORY, 0, .devfs)]

/-- The nodes in "/dev". -/
def devEntries (buffer : Buffer) : List (List Char × UInt32 × UInt32 × Fs) :=
  fixedDevices ++ (devEnum buffer).map face

theorem Built.boot {below : List Vnode} (built : Built k nodes [] page top dev below) :
    Boot k nodes := by
  refine ⟨built.tree, fun i => ?_⟩
  rw [Kernel.table, built.fds]
  rfl

theorem Booted.rootFaces (booted : Booted buffer k nodes page top dev devices parts) :
    (top ++ [dev]).map face = rootEntries := by
  rw [List.map_append, booted.topFaces, List.map_singleton, booted.devFace]
  rfl

theorem Booted.devFaces (booted : Booted buffer k nodes page top dev devices parts) :
    (devices ++ parts).map face = devEntries buffer := by
  have same := congrArg (List.map face) booted.partNodes
  rw [List.map_map, show face ∘ bare = face from rfl] at same
  rw [List.map_append, booted.deviceFaces, same, devEntries]

theorem devEntries_few (buffer : Buffer) : (devEntries buffer).length < 256 := by
  have eight : (usedEntries buffer).length ≤ 8 := by
    rw [usedEntries_eq]
    split
    · exact (List.length_filter_le _ _).trans le_rfl
    · exact Nat.zero_le 8
  have four : fixedDevices.length = 4 := rfl
  rw [devEntries, List.length_append, List.length_map, devEnum, List.length_map]
  omega

theorem Built.root_lookup {below : List Vnode} {part : List Char} (proper : part ≠ [])
    (built : Built k nodes [] page top dev below) (small : top.length < 255) :
    childNode k .root part =
      ((top ++ [dev]).findIdx? fun node => node.name = part).map (NodePtr.dirent page) := by
  have root := built.root.1
  rw [face, Prod.mk.injEq, Prod.mk.injEq, Prod.mk.injEq] at root
  refine built.lists.childNode_eq built.root.2 ?_ ?_ proper ?_
  · change k.root.flags &&& DIRECTORY ≠ 0
    rw [root.2.1]
    decide
  · change k.root.fs ≠ .ext2fs
    rw [root.2.2.2]
    decide
  · rw [List.length_append, List.length_singleton]
    omega

theorem Built.dev_lookup {below : List Vnode} {part : List Char} (proper : part ≠ [])
    (built : Built k nodes [] page top dev below) (devFace : face dev = ("dev".toList, DIRECTORY, 0, .devfs))
    (unnamed : "dev".toList ∉ top.map Vnode.name) (small : top.length < 255 ∧ below.length < 256) :
    treeNode k .root ["dev".toList, part] =
      (below.findIdx? fun node => node.name = part).map (NodePtr.dirent dev.dirents) := by
  rw [face, Prod.mk.injEq, Prod.mk.injEq, Prod.mk.injEq] at devFace
  have first : childNode k .root "dev".toList = some (.dirent page top.length) := by
    have here : (top ++ [dev]).findIdx? (fun node => node.name = "dev".toList) = some top.length := by
      rw [List.findIdx?_eq_some_iff_getElem]
      refine ⟨by simp, by simpa using devFace.1, fun j before => ?_⟩
      rw [List.getElem_append_left before]
      have other : top[j].name ≠ "dev".toList := fun same =>
        unnamed (List.mem_map.mpr ⟨_, List.getElem_mem before, same⟩)
      simpa using other
    rw [built.root_lookup (by decide) small.1, here, Option.map_some]
  rw [treeNode, List.foldlM_cons, first]
  change (childNode k (.dirent page top.length) part >>= pure) = _
  rw [bind_pure]
  refine built.inDev.childNode_eq (congrArg Vnode.dirents built.dev_eq) ?_ ?_ proper small.2
  · rw [built.dev_eq, devFace.2.1]
    decide
  · rw [built.dev_eq, devFace.2.2.2]
    decide

theorem Booted.counts (booted : Booted buffer k nodes page top dev devices parts) :
    top.length = 2 ∧ (devices ++ parts).length < 256 ∧ "dev".toList ∉ top.map Vnode.name := by
  have names := congrArg (List.map Prod.fst) booted.topFaces
  rw [List.map_map, show Prod.fst ∘ face = Vnode.name from rfl] at names
  refine ⟨?_, ?_, ?_⟩
  · rw [← List.length_map face, booted.topFaces]
    rfl
  · rw [← List.length_map face, booted.devFaces]
    exact devEntries_few buffer
  · rw [names]
    decide

/-- What paths lead to when the kernel has started: in the root there are "mnt", "file" and "dev",
and in "/dev" four devices and the partitions. -/
theorem Booted.lookups (booted : Booted buffer k nodes page top dev devices parts) {part : List Char}
    (proper : part ≠ []) :
    (treeNode k .root [part]).map (face <| k.node ·) = rootEntries.find? (·.1 = part) ∧
      (treeNode k .root ["dev".toList, part]).map (face <| k.node ·) =
        (devEntries buffer).find? (·.1 = part) := by
  rcases booted.counts with ⟨two, few, unnamed⟩
  constructor
  · have single : treeNode k .root [part] = childNode k .root part :=
      bind_pure (childNode k .root part)
    rw [single, booted.root_lookup proper (by omega), booted.lists.find_face, booted.rootFaces]
  · rw [booted.dev_lookup proper booted.devFace unnamed ⟨by omega, few⟩, booted.inDev.find_face,
      booted.devFaces]

end Boot

end TitorOS.Barrel.Vfs
