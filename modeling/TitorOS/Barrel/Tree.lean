import TitorOS.Barrel.Enumerate

/-! The tree of vnodes: every node has a page of its own for its children, and an enumeration
changes the page of one directory. Pages that an enumeration has cut off are never given back. -/

namespace TitorOS.Barrel.Vfs

open TitorOS.Lib

/-- The slot is before the end of the list of dirents. -/
def Visible (k : Kernel) (page slot : Nat) : Prop := ∀ i ≤ slot, (k.pages page i).name ≠ []

/-- `nodes` are the pages that hold nodes, or have held them before they were cut off. -/
structure Tree (k : Kernel) (nodes : Nat → Prop) : Prop where
  used : ∀ q, nodes q → k.heap q = true
  root : nodes k.root.dirents
  child : ∀ q j, nodes q → Visible k q j → nodes (k.pages q j).dirents
  top : ∀ q j, nodes q → Visible k q j → (k.pages q j).dirents ≠ k.root.dirents
  below : ∀ q j, nodes q → Visible k q j → (k.pages q j).dirents ≠ q
  alone : ∀ q j q' j', nodes q → nodes q' → Visible k q j → Visible k q' j' →
    (k.pages q j).dirents = (k.pages q' j').dirents → q = q' ∧ j = j'

def InTree (k : Kernel) (nodes : Nat → Prop) : NodePtr → Prop
  | .root => True
  | .dirent q j => nodes q ∧ Visible k q j

/-- What a descriptor relies on. -/
structure Same (node node' : Vnode) : Prop where
  name : node'.name = node.name
  inode : node'.inode = node.inode
  size : node'.size = node.size
  fs : node'.fs = node.fs

/-- All but the flags. -/
structure Alike (node node' : Vnode) : Prop extends Same node node' where
  dirents : node'.dirents = node.dirents

theorem Same.trans {a b c : Vnode} (first : Same a b) (second : Same b c) : Same a c where
  name := second.name.trans first.name
  inode := second.inode.trans first.inode
  size := second.size.trans first.size
  fs := second.fs.trans first.fs

theorem Alike.refl (node : Vnode) : Alike node node := ⟨⟨rfl, rfl, rfl, rfl⟩, rfl⟩

theorem Alike.trans {a b c : Vnode} (first : Alike a b) (second : Alike b c) : Alike a c :=
  ⟨first.toSame.trans second.toSame, second.dirents.trans first.dirents⟩

section Lookup

variable {vol : Volume} {k k' : Kernel} {nodes : Nat → Prop} {vnode : NodePtr}

theorem findName_visible {part : List Char} (named : part ≠ []) {tries slot : Nat} (i : Nat)
    {page : Nat} (found : findName (k.pages page) part tries i = some slot)
    (before : ∀ j < i, (k.pages page j).name ≠ []) : Visible k page slot := by
  induction tries generalizing i with
  | zero => cases found
  | succ tries ih =>
      rw [findName] at found
      split at found
      · rename_i here
        cases found
        intro j upto
        by_cases last : j = slot
        · rw [last, here]
          exact named
        · exact before j (by omega)
      · split at found
        · cases found
        · rename_i unended
          refine ih (i + 1) found ?_
          intro j below
          by_cases last : j = i
          · rw [last]
            exact unended
          · exact before j (by omega)

theorem childNode_inTree {part : List Char} (named : part ≠ []) (tree : Tree k nodes)
    (inside : InTree k nodes vnode) {node : NodePtr}
    (found : childNode k vnode part = some node) : InTree k nodes node := by
  rw [childNode] at found
  split at found
  · cases found
  · rcases Option.map_eq_some_iff.mp found with ⟨slot, there, rfl⟩
    refine ⟨?_, findName_visible named 0 there fun j below => absurd below (Nat.not_lt_zero j)⟩
    cases vnode with
    | root => exact tree.root
    | dirent q j => exact tree.child q j inside.1 inside.2

theorem Tree.owner (tree : Tree k nodes) {first second : NodePtr} (inside : InTree k nodes first)
    (inside' : InTree k nodes second)
    (same : (k.node first).dirents = (k.node second).dirents) : first = second := by
  cases first with
  | root =>
      cases second with
      | root => rfl
      | dirent q j => exact absurd same.symm (tree.top q j inside'.1 inside'.2)
  | dirent q j =>
      cases second with
      | root => exact absurd same (tree.top q j inside.1 inside.2)
      | dirent q' j' =>
          rcases tree.alone q j q' j' inside.1 inside'.1 inside.2 inside'.2 same with ⟨rfl, rfl⟩
          rfl

theorem Tree.page (tree : Tree k nodes) (inside : InTree k nodes vnode) :
    nodes (k.node vnode).dirents := by
  cases vnode with
  | root => exact tree.root
  | dirent q j => exact tree.child q j inside.1 inside.2

theorem findName_congr {dirents dirents' : Nat → Vnode}
    (same : ∀ i, (dirents' i).name = (dirents i).name) (part : List Char) (tries i : Nat) :
    findName dirents' part tries i = findName dirents part tries i := by
  induction tries generalizing i with
  | zero => rfl
  | succ tries ih => rw [findName, findName, same, ih]

/-- A state with the page of one directory cleared. -/
def Kernel.wipe (k : Kernel) (page : Nat) : Kernel :=
  { k with pages := Function.update k.pages page fun _ => blankNode }

theorem Kernel.wipe_page (k : Kernel) (page : Nat) : (k.wipe page).pages page = fun _ => blankNode :=
  Function.update_self ..

theorem Kernel.wipe_others (k : Kernel) {page q : Nat} (other : q ≠ page) :
    (k.wipe page).pages q = k.pages q := Function.update_of_ne other ..

theorem enumdir_eq {getnode : List Char → Op NodePtr} (ext2 : (k.node vnode).fs = .ext2fs) :
    enumdir vol getnode vnode k =
      ext2Enum vol getnode vnode (k.wipe (k.node vnode).dirents) := by
  rw [enumdir, get_bind, if_pos ext2, modify_bind, Kernel.wipe]

theorem childNode_quiet {part : List Char} {node : NodePtr}
    (found : childNode k vnode part = some node) : (k.node vnode).fs ≠ .ext2fs := by
  intro ext2
  rw [childNode, if_pos (.inr ext2)] at found
  cases found

theorem Tree.volumeNode_wipe (tree : Tree k nodes) (inside : InTree k nodes vnode)
    (ext2 : (k.node vnode).fs = .ext2fs) {device : NodePtr} (found : volumeNode k = some device) :
    volumeNode (k.wipe (k.node vnode).dirents) = some device := by
  rcases Option.bind_eq_some_iff.mp found with ⟨dev, first, second⟩
  have rootInside : InTree k nodes .root := trivial
  have devInside := childNode_inTree (by decide) tree rootInside first
  have elsewhere {other : NodePtr} (member : InTree k nodes other)
      (quiet : (k.node other).fs ≠ .ext2fs) : (k.node other).dirents ≠ (k.node vnode).dirents := by
    intro same
    rw [tree.owner member inside same] at quiet
    exact quiet ext2
  have rootPages := k.wipe_others (elsewhere rootInside (childNode_quiet first))
  have devPages := k.wipe_others (elsewhere devInside (childNode_quiet second))
  have rootNode : (k.wipe (k.node vnode).dirents).node .root = k.node .root := rfl
  have devNode : (k.wipe (k.node vnode).dirents).node dev = k.node dev := by
    rcases childNode_some first with ⟨slot, rfl⟩
    exact congrFun rootPages slot
  rw [volumeNode, childNode_transfer rootNode rootPages, first, Option.bind_some,
    childNode_transfer devNode devPages, second]

/-- A directory of the tree is out of the way of its own page, and so is the device's node. -/
theorem Tree.aside (tree : Tree k nodes) (inside : InTree k nodes vnode)
    (ext2 : (k.node vnode).fs = .ext2fs) {device : NodePtr}
    (found : volumeNode (k.wipe (k.node vnode).dirents) = some device) :
    Aside (k.wipe (k.node vnode).dirents) (k.node vnode).dirents vnode device := by
  generalize place : (k.node vnode).dirents = page at found
  have inner : vnode ≠ .root := by
    intro same
    rw [same] at ext2
    rw [volumeNode_ext2_root (show (k.wipe page).root.fs = .ext2fs from ext2)] at found
    cases found
  have rootOther : k.root.dirents ≠ page := by
    intro same
    exact inner (tree.owner inside trivial (place.trans same.symm))
  rcases Option.bind_eq_some_iff.mp found with ⟨dev, first, second⟩
  have rootPages := k.wipe_others rootOther
  have rootNode : (k.wipe page).node .root = k.node .root := rfl
  have devFound : childNode k .root "dev".toList = some dev :=
    (childNode_transfer rootNode rootPages).symm.trans first
  have rootInside : InTree k nodes .root := trivial
  have devInside := childNode_inTree (by decide) tree rootInside devFound
  have devNode : (k.wipe page).node dev = k.node dev := by
    rcases childNode_some devFound with ⟨slot, rfl⟩
    exact congrFun rootPages slot
  constructor
  case found => exact found
  case rootPage => exact ⟨rootOther, tree.used _ tree.root⟩
  case devPage =>
    intro dev' again
    cases first.symm.trans again
    rw [devNode]
    refine ⟨?_, tree.used _ (tree.page devInside)⟩
    intro same
    have own : dev = vnode := tree.owner devInside inside (same.trans place.symm)
    have nowhere : childNode (k.wipe page) dev "nvme5".toList = none := by
      apply if_pos
      right
      rw [devNode, own]
      exact ext2
    rw [nowhere] at second
    cases second
  case own =>
    intro q slot at_
    rw [at_] at inside place
    exact ⟨fun same => tree.below q slot inside.1 inside.2 (place.trans same.symm),
      tree.used q inside.1⟩
  case taken =>
    rw [← place]
    exact tree.used _ (tree.page inside)
  case dirents =>
    cases vnode with
    | root => exact place
    | dirent q slot =>
        have other : q ≠ page := fun same =>
          tree.below q slot inside.1 inside.2 (place.trans same.symm)
        exact (congrArg Vnode.dirents (congrFun (k.wipe_others other) slot)).trans place

end Lookup

section Enumeration

variable {vol : Volume} {k k' : Kernel} {page : Nat} {vnode device : NodePtr} {listing : Listing}

theorem Aside.inner (aside : Aside k page vnode device) : ∃ q slot, vnode = .dirent q slot := by
  cases vnode with
  | root => exact absurd aside.dirents aside.rootPage.1
  | dirent q slot => exact ⟨q, slot, rfl⟩

theorem Kernel.enumerated_alike (k : Kernel) (q slot page j : Nat) :
    Alike (k.pages page j) ((k.enumerated (.dirent q slot)).pages page j) := by
  by_cases here : page = q
  · rw [here]
    by_cases same : j = slot
    · rw [same, Kernel.enumerated, Kernel.setNode_self]
      exact ⟨⟨rfl, rfl, rfl, rfl⟩, rfl⟩
    · rw [Kernel.enumerated, Kernel.setNode_slot _ _ _ same]
      exact Alike.refl _
  · rw [Kernel.enumerated, Kernel.setNode_page _ _ _ here]
    exact Alike.refl _

theorem Kernel.enumerated_node (k : Kernel) (q slot : Nat) {p : NodePtr}
    (other : p ≠ .dirent q slot) : (k.enumerated (.dirent q slot)).node p = k.node p := by
  cases p with
  | root => rfl
  | dirent page j =>
      change (k.enumerated (.dirent q slot)).pages page j = k.pages page j
      by_cases here : page = q
      · have elsewhere : j ≠ slot := by
          intro same
          rw [here, same] at other
          exact other rfl
        rw [here, Kernel.enumerated, Kernel.setNode_slot _ _ _ elsewhere]
      · rw [Kernel.enumerated, Kernel.setNode_page _ _ _ here]

theorem childNode_alike {k₁ : Kernel} {part : List Char} (same : k'.node vnode = k₁.node vnode)
    (alike : ∀ q j, Alike (k₁.pages q j) (k'.pages q j)) :
    childNode k' vnode part = childNode k₁ vnode part := by
  have names := findName_congr fun i => (alike (k₁.node vnode).dirents i).name
  rw [childNode, childNode, same, names]

/-- The flag on the directory is nothing to the lookup of the device. -/
theorem volumeNode_enumerated {k₁ : Kernel} (aside : Aside k page vnode device)
    (root : k₁.root = k.root)
    (others : ∀ q, q ≠ page → k.heap q = true → k₁.pages q = k.pages q) :
    volumeNode (k₁.enumerated vnode) = some device := by
  rcases aside.inner with ⟨q, slot, rfl⟩
  have alike := k₁.enumerated_alike q slot
  rcases Option.bind_eq_some_iff.mp (aside.unmoved root others).1 with ⟨dev, first, second⟩
  have rootNode : (k₁.enumerated (.dirent q slot)).node .root = k₁.node .root := rfl
  have first' := (childNode_alike rootNode alike).trans first
  have apart : dev ≠ .dirent q slot := by
    intro same
    have rootPages := others _ aside.rootPage.1 aside.rootPage.2
    have rootSame : k₁.node .root = k.node .root := root
    have before : childNode k .root "dev".toList = some dev :=
      (childNode_transfer rootSame rootPages).symm.trans first
    exact (aside.devPage dev before).1 (same ▸ aside.dirents)
  have second' := (childNode_alike (k₁.enumerated_node q slot apart) alike).trans second
  rw [volumeNode, first', Option.bind_some, second']

theorem blockAt_enumerated {k₁ : Kernel} (aside : Aside k page vnode device)
    (root : k₁.root = k.root)
    (others : ∀ q, q ≠ page → k.heap q = true → k₁.pages q = k.pages q) (sector : UInt32) :
    blockAt vol (k₁.enumerated vnode) sector = blockAt vol k₁ sector := by
  rw [blockAt, volumeNode_enumerated aside root others, blockAt, (aside.unmoved root others).1,
    Option.bind_some, Option.bind_some]
  rcases aside.inner with ⟨q, slot, rfl⟩
  by_cases same : device = .dirent q slot
  · rw [same]
    change blockThrough vol ((k₁.enumerated (.dirent q slot)).pages q slot) sector = _
    rw [Kernel.enumerated, Kernel.setNode_self]
    rfl
  · rw [Kernel.enumerated_node _ _ _ same]

/-- What a directory's enumeration does. -/
structure Enumerated (vol : Volume) (k : Kernel) (vnode : NodePtr) (listing : Listing)
    (k' : Kernel) : Prop where
  inner : vnode ≠ .root
  root : k'.root = k.root
  others : ∀ q, q ≠ (k.node vnode).dirents → k.heap q = true → ∀ j,
    Alike (k.pages q j) (k'.pages q j)
  heap : ∀ q, k.heap q = true → k'.heap q = true
  closed : ∀ i, (k.table i).mode = 0 → (k'.table i).mode = 0
  kept : ∀ i, (k.table i).mode ≠ 0 → k'.table i = k.table i
  shown : ∀ j (small : j < listing.entries.length),
    listing.entries[j].Shown (k'.pages (k.node vnode).dirents j)
  named : ∀ entry ∈ listing.entries, entry.name ≠ []
  ended : ∀ j, listing.entries.length ≤ j → (k'.pages (k.node vnode).dirents j).name = []
  fresh : ∀ j < listing.entries.length,
    k.heap (k'.pages (k.node vnode).dirents j).dirents = false ∧
      k'.heap (k'.pages (k.node vnode).dirents j).dirents = true ∧
        (k'.pages (k'.pages (k.node vnode).dirents j).dirents 0).name = []
  distinct : ∀ i < listing.entries.length, ∀ j < listing.entries.length,
    (k'.pages (k.node vnode).dirents i).dirents = (k'.pages (k.node vnode).dirents j).dirents → i = j
  token : k'.token = none
  fds : k'.fds = some k'.table
  marked : (k'.node vnode).flags = (k.node vnode).flags ||| 0x40000000
  device : volumeNode k' = volumeNode k
  disk : ∀ sector, blockAt vol k' sector = blockAt vol k sector
  visits : ∃ dirents, visited vol k (k.node vnode).inode = some dirents ∧
    Enumerable vol k dirents ∧ listing = listingOf vol k dirents

theorem visited_eq (disk : ∀ sector, blockAt vol k' sector = blockAt vol k sector)
    (inodeNo : UInt32) : visited vol k' inodeNo = visited vol k inodeNo := by
  simp only [visited, directoryBlock, inodeAt, disk]

theorem listingOf_eq (disk : ∀ sector, blockAt vol k' sector = blockAt vol k sector)
    (dirents : List Dirent) : listingOf vol k' dirents = listingOf vol k dirents := by
  have sizes : sizeAt vol k' = sizeAt vol k := by
    funext inodeNo
    simp only [sizeAt, inodeAt, disk]
  rw [listingOf, listingOf, sizes]

theorem Enumerable.congr {dirents : List Dirent} (enumerable : Enumerable vol k dirents)
    (disk : ∀ sector, blockAt vol k' sector = blockAt vol k sector) :
    Enumerable vol k' dirents := by
  have sizes : sizeAt vol k' = sizeAt vol k := by
    funext inodeNo
    simp only [sizeAt, inodeAt, disk]
  refine ⟨sizes ▸ enumerable.admits, ?_⟩
  intro dirent member
  rw [inodeAt, disk]
  exact enumerable.readable dirent member

theorem Listed.enumerated {k₁ : Kernel} {dirents : List Dirent}
    (place : (k.node vnode).dirents = page) (aside : Aside (k.wipe page) page vnode device)
    (listed : Listed (k.wipe page) page listing k₁)
    (visits : visited vol (k.wipe page) ((k.wipe page).node vnode).inode = some dirents)
    (enumerable : Enumerable vol (k.wipe page) dirents)
    (same : listing = listingOf vol (k.wipe page) dirents) :
    Enumerated vol k vnode listing (k₁.enumerated vnode) := by
  have others (q : Nat) (other : q ≠ page) (_ : (k.wipe page).heap q = true) :
      k.pages q = (k.wipe page).pages q := (k.wipe_others other).symm
  have root : k.root = (k.wipe page).root := rfl
  have sameNode : k.node vnode = (k.wipe page).node vnode := aside.node root others
  have disk (sector : UInt32) : blockAt vol (k.wipe page) sector = blockAt vol k sector :=
    (aside.blockAt root others sector).symm
  have disk' (sector : UInt32) : blockAt vol (k₁.enumerated vnode) sector = blockAt vol k sector := by
    rw [blockAt_enumerated aside listed.root listed.others, aside.blockAt listed.root listed.others,
      disk]
  have own := aside.own
  have found' := volumeNode_enumerated aside listed.root listed.others
  have found : volumeNode k = some device := (aside.unmoved root others).1
  have marked : k₁.node vnode = k.node vnode := by
    rw [aside.node listed.root listed.others, sameNode]
  rcases aside.inner with ⟨q₀, slot, rfl⟩
  have here : (k₁.enumerated (.dirent q₀ slot)).pages page = k₁.pages page :=
    Kernel.setNode_page _ _ _ (own q₀ slot rfl).1.symm
  constructor
  case inner =>
    intro impossible
    cases impossible
  case root => exact listed.root
  case others =>
    rw [place]
    intro q other used j
    have kept := listed.others q other used
    rw [k.wipe_others other] at kept
    have alike := k₁.enumerated_alike q₀ slot q j
    rw [kept] at alike
    exact alike
  case heap => exact listed.heap
  case closed => exact listed.closed
  case kept => exact listed.kept
  case shown =>
    rw [place, here]
    exact listed.shown
  case named => exact listed.named
  case ended =>
    rw [place, here]
    exact listed.ended
  case fresh =>
    rw [place, here]
    intro j small
    rcases listed.fresh j small with ⟨unused, used, ended⟩
    refine ⟨unused, used, ?_⟩
    rw [(k₁.enumerated_alike q₀ slot _ 0).name]
    exact ended
  case distinct =>
    rw [place, here]
    exact listed.distinct
  case token => exact listed.token
  case fds => exact listed.fds
  case marked =>
    rw [← marked]
    exact congrArg Vnode.flags (Kernel.setNode_self ..)
  case device => rw [found', found]
  case disk => exact disk'
  case visits =>
    refine ⟨dirents, ?_, enumerable.congr fun sector => (disk sector).symm, ?_⟩
    · rw [sameNode, ← visited_eq disk]
      exact visits
    · rw [same, listingOf_eq disk]

/-- A look at a directory of the tree, if it comes to an end. -/
theorem Tree.enumdir_ran {nodes : Nat → Prop} {depth : Nat} (tree : Tree k nodes)
    (inside : InTree k nodes vnode) (ext2 : (k.node vnode).fs = .ext2fs)
    (ran : enumdir vol (getnode vol (depth + 1)) vnode k = some ((), k')) :
    ∃ listing, Enumerated vol k vnode listing k' := by
  rw [enumdir_eq ext2] at ran
  cases found : volumeNode (k.wipe (k.node vnode).dirents) with
  | none =>
      rw [ext2Enum, bind_none] at ran
      · cases ran
      · exact getInode_stuck vnode fun _ _ => getnode_volume_none _ _ found
  | some device =>
      have aside := tree.aside inside ext2 found
      have blank := k.wipe_page (k.node vnode).dirents
      rcases ext2Enum_ran aside blank ran with ⟨dirents, visits, enumerable⟩
      rcases (ext2Enum_costs aside depth visits enumerable blank).of_some ran with
        ⟨_, _, k₁, listed, same⟩
      exact ⟨_, same ▸ listed.enumerated rfl aside visits enumerable rfl⟩

theorem Tree.enumdir_costs {nodes : Nat → Prop} {dirents : List Dirent} (tree : Tree k nodes)
    (inside : InTree k nodes vnode) (ext2 : (k.node vnode).fs = .ext2fs) (depth : Nat)
    (found : volumeNode k = some device)
    (visits : visited vol k (k.node vnode).inode = some dirents)
    (enumerable : Enumerable vol k dirents) :
    Costs room (enumdir vol (getnode vol (depth + 1)) vnode) k (enumNeed k dirents.length)
      (0, tablePage k + 1 + 2 * dirents.length) fun _ k' =>
        Enumerated vol k vnode (listingOf vol k dirents) k' := by
  have aside := tree.aside inside ext2 (tree.volumeNode_wipe inside ext2 found)
  generalize place : (k.node vnode).dirents = page at aside
  have others (q : Nat) (other : q ≠ page) (_ : (k.wipe page).heap q = true) :
      k.pages q = (k.wipe page).pages q := (k.wipe_others other).symm
  have root : k.root = (k.wipe page).root := rfl
  have disk (sector : UInt32) : blockAt vol (k.wipe page) sector = blockAt vol k sector :=
    (aside.blockAt root others sector).symm
  have visits' : visited vol (k.wipe page) ((k.wipe page).node vnode).inode = some dirents := by
    rw [visited_eq disk, ← aside.node root others, visits]
  have enumerable' := enumerable.congr disk
  have costs := ext2Enum_costs aside depth visits' enumerable' (k.wipe_page page)
  have ran : enumdir vol (getnode vol (depth + 1)) vnode k =
      ext2Enum vol (getnode vol (depth + 1)) vnode (k.wipe page) := by
    rw [enumdir_eq ext2, place]
  have level : room k = room (k.wipe page) := rfl
  refine Costs.mono (costs.move ran level) ?_
  intro _ k' ⟨k₁, listed, same⟩
  rw [same, ← listingOf_eq disk]
  exact listed.enumerated place aside visits' enumerable' rfl

/-- The pages of nodes when a directory has been enumerated. -/
def withChildren (nodes : Nat → Prop) (k' : Kernel) (page count : Nat) (q : Nat) : Prop :=
  nodes q ∨ ∃ j < count, q = (k'.pages page j).dirents

section Grow

variable {nodes : Nat → Prop}

theorem Enumerated.end_ (enumerated : Enumerated vol k vnode listing k') {j : Nat}
    (named : (k'.pages (k.node vnode).dirents j).name ≠ []) : j < listing.entries.length := by
  by_contra late
  exact named (enumerated.ended j (by omega))

theorem Enumerated.visible (enumerated : Enumerated vol k vnode listing k') {j : Nat}
    (small : j < listing.entries.length) : Visible k' (k.node vnode).dirents j := by
  intro i upto
  have inside : i < listing.entries.length := by omega
  rw [(enumerated.shown i inside).name]
  exact enumerated.named _ (List.getElem_mem inside)

/-- A node is one of the directory's new ones, or one as before. -/
theorem Enumerated.node_cases (enumerated : Enumerated vol k vnode listing k')
    (tree : Tree k nodes) {q j : Nat}
    (inside : withChildren nodes k' (k.node vnode).dirents listing.entries.length q)
    (visible : Visible k' q j) :
    (q = (k.node vnode).dirents ∧ j < listing.entries.length) ∨
      (nodes q ∧ Visible k q j ∧ Alike (k.pages q j) (k'.pages q j)) := by
  rcases inside with old | ⟨i, small, rfl⟩
  · by_cases here : q = (k.node vnode).dirents
    · subst here
      exact .inl ⟨rfl, enumerated.end_ (visible j le_rfl)⟩
    · have alike := enumerated.others q here (tree.used q old)
      refine .inr ⟨old, ?_, alike j⟩
      intro i upto
      rw [← (alike i).name]
      exact visible i upto
  · exact absurd (enumerated.fresh i small).2.2 (visible 0 (Nat.zero_le j))

theorem Enumerated.fresh_ne (enumerated : Enumerated vol k vnode listing k') {j q : Nat}
    (small : j < listing.entries.length) (used : k.heap q = true) :
    (k'.pages (k.node vnode).dirents j).dirents ≠ q := by
  intro same
  have unused := (enumerated.fresh j small).1
  rw [same, used] at unused
  cases unused

theorem Enumerated.tree (enumerated : Enumerated vol k vnode listing k') (tree : Tree k nodes)
    (inside : InTree k nodes vnode) :
    Tree k' (withChildren nodes k' (k.node vnode).dirents listing.entries.length) := by
  have page := tree.used _ (tree.page inside)
  constructor
  case used =>
    intro q member
    rcases member with old | ⟨j, small, rfl⟩
    · exact enumerated.heap q (tree.used q old)
    · exact (enumerated.fresh j small).2.1
  case root =>
    rw [enumerated.root]
    exact .inl tree.root
  case child =>
    intro q j member visible
    rcases enumerated.node_cases tree member visible with ⟨rfl, small⟩ | ⟨old, before, alike⟩
    · exact .inr ⟨j, small, rfl⟩
    · rw [alike.dirents]
      exact .inl (tree.child q j old before)
  case top =>
    intro q j member visible
    rw [enumerated.root]
    rcases enumerated.node_cases tree member visible with ⟨rfl, small⟩ | ⟨old, before, alike⟩
    · exact enumerated.fresh_ne small (tree.used _ tree.root)
    · rw [alike.dirents]
      exact tree.top q j old before
  case below =>
    intro q j member visible
    rcases enumerated.node_cases tree member visible with ⟨rfl, small⟩ | ⟨old, before, alike⟩
    · exact enumerated.fresh_ne small page
    · rw [alike.dirents]
      exact tree.below q j old before
  case alone =>
    intro q j q' j' member member' visible visible' same
    rcases enumerated.node_cases tree member visible with ⟨rfl, small⟩ | ⟨old, before, alike⟩
    · rcases enumerated.node_cases tree member' visible' with ⟨rfl, small'⟩ | ⟨old', before', alike'⟩
      · exact ⟨rfl, enumerated.distinct j small j' small' same⟩
      · rw [alike'.dirents] at same
        exact absurd same (enumerated.fresh_ne small (tree.used _ (tree.child q' j' old' before')))
    · rw [alike.dirents] at same
      rcases enumerated.node_cases tree member' visible' with ⟨rfl, small'⟩ | ⟨old', before', alike'⟩
      · exact absurd same.symm (enumerated.fresh_ne small' (tree.used _ (tree.child q j old before)))
      · rw [alike'.dirents] at same
        exact tree.alone q j q' j' old old' before before' same

theorem Enumerated.still (enumerated : Enumerated vol k vnode listing k') (tree : Tree k nodes)
    (inside : InTree k nodes vnode) :
    InTree k' (withChildren nodes k' (k.node vnode).dirents listing.entries.length) vnode ∧
      Alike (k.node vnode) (k'.node vnode) := by
  cases vnode with
  | root => exact absurd rfl enumerated.inner
  | dirent q j =>
      have other : q ≠ (k.node (.dirent q j)).dirents := (tree.below q j inside.1 inside.2).symm
      have alike := enumerated.others q other (tree.used q inside.1)
      refine ⟨⟨.inl inside.1, ?_⟩, alike j⟩
      intro i upto
      rw [(alike i).name]
      exact inside.2 i upto

end Grow

end Enumeration

end TitorOS.Barrel.Vfs
