import TitorOS.Barrel.Enumerate

/-! The blocks of an ext2 directory. The format links the entries of a block by their record
length; `ext2_enum` goes from one to the next by the length of the name. -/

namespace TitorOS.Barrel.Vfs

open TitorOS.Lib

/-- What is to be seen of an entry. -/
structure Child where
  name : List Char
  inode : UInt32
  directory : Bool
  deriving DecidableEq

def childOf (node : Vnode) : Child := ⟨node.name, node.inode, node.flags &&& DIRECTORY ≠ 0⟩

def Entry.child (entry : Entry) : Child := ⟨entry.name, entry.inode, entry.flags &&& DIRECTORY ≠ 0⟩

def Dirent.child (dirent : Dirent) : Child := ⟨dirent.name, dirent.inode, dirent.type = 2⟩

def recordLength (block : Buffer) (offset : Nat) : Nat :=
  (block (offset + 4)).toNat + 256 * (block (offset + 5)).toNat

/-- The entries of a block, used and unused, if their records fill it. -/
def records (block : Buffer) : Nat → Nat → Option (List Dirent)
  | 0, _ => none
  | rounds + 1, offset =>
      if offset = 4096 then some []
      else if 8 + (block (offset + 6)).toNat ≤ recordLength block offset ∧
          recordLength block offset % 4 = 0 ∧ offset + recordLength block offset ≤ 4096 then
        (records block rounds (offset + recordLength block offset)).map (direntAt block offset :: ·)
      else none

def live (block : Buffer) : Option (List Dirent) :=
  (records block 513 0).map (·.filter fun dirent => dirent.inode ≠ 0)

/-- A directory block whose used entries have room in a page of nodes. -/
structure WellFormed (vol : Volume) (k : Kernel) (block : Buffer) (dirents : List Dirent) :
    Prop where
  linked : live block = some dirents
  count : dirents.length ≤ 67
  named : ∀ dirent ∈ dirents, dirent.name ≠ [] ∧ dirent.name.length ≤ 31 ∧ NUL ∉ dirent.name
  unique : (dirents.map Dirent.name).Nodup
  inodes : ∀ dirent ∈ dirents, ∃ inode, inodeAt vol k dirent.inode = some inode

/-- The page shows these nodes and no other. -/
structure Shows (k : Kernel) (page : Nat) (children : List Child) : Prop where
  each : ∀ j (small : j < children.length), childOf (k.pages page j) = children[j]
  ended : (k.pages page children.length).name = []

/-- The children of a directory as the format has them. -/
def children (own : UInt32) (dirents : List Dirent) : List Child :=
  (dirents.filter fun dirent => dirent.inode ≠ own).map Dirent.child

/-- The children that steps of the name length come to. -/
def walkedChildren (dirents : List Dirent) : List Child :=
  (dirents.foldl (Listing.add fun _ => 0) .empty).entries.map Entry.child

section Listing

variable {vol : Volume} {k k₀ : Kernel} {page : Nat}

theorem foldl_child (size size' : UInt32 → UInt32) (dirents : List Dirent) (first second : Listing)
    (flags : first.flags = second.flags)
    (same : first.entries.map Entry.child = second.entries.map Entry.child) :
    (dirents.foldl (Listing.add size) first).entries.map Entry.child =
      (dirents.foldl (Listing.add size') second).entries.map Entry.child := by
  induction dirents generalizing first second with
  | nil => exact same
  | cons dirent rest ih =>
      rw [List.foldl_cons, List.foldl_cons]
      apply ih
      · simp only [Listing.add, flags]
        split
        · rfl
        · rfl
      · simp only [Listing.add, flags]
        split
        · exact same
        · rw [List.map_append, List.map_append, same]
          rfl

theorem listingOf_child (dirents : List Dirent) :
    (listingOf vol k dirents).entries.map Entry.child = walkedChildren dirents :=
  foldl_child _ _ dirents _ _ rfl rfl

theorem Listed.shows {listing : Listing} (listed : Listed k₀ page listing k) :
    Shows k page (listing.entries.map Entry.child) := by
  constructor
  · intro j small
    rw [List.length_map] at small
    have shown := listed.shown j small
    rw [List.getElem_map, childOf, Entry.child, shown.name, shown.inode, shown.flags]
  · rw [List.length_map]
    exact listed.ended _ le_rfl

theorem Shows.named_length {first second : List Child} (shows_ : Shows k page first)
    (other : Shows k page second) (named : ∀ child ∈ second, child.name ≠ []) :
    second.length ≤ first.length := by
  by_contra longer
  have inside : first.length < second.length := by omega
  have same := congrArg Child.name (other.each first.length inside)
  exact named _ (List.getElem_mem inside) (same ▸ shows_.ended)

theorem Shows.unique {first second : List Child} (shows_ : Shows k page first)
    (other : Shows k page second) (named : ∀ child ∈ first, child.name ≠ [])
    (named' : ∀ child ∈ second, child.name ≠ []) : first = second := by
  apply List.ext_getElem
  · exact le_antisymm (other.named_length shows_ named) (shows_.named_length other named')
  · intro j small inside
    rw [← shows_.each j small, other.each j inside]

theorem add_extends (size : UInt32 → UInt32) (listing : Listing) (dirent : Dirent) :
    listing.entries <+: (listing.add size dirent).entries := by
  rw [Listing.add]
  split
  · exact List.prefix_rfl
  · exact List.prefix_append ..

theorem foldl_extends (size : UInt32 → UInt32) (dirents : List Dirent) (listing : Listing) :
    listing.entries <+: (dirents.foldl (Listing.add size) listing).entries := by
  induction dirents generalizing listing with
  | nil => exact List.prefix_rfl
  | cons dirent rest ih => exact (add_extends size listing dirent).trans (ih _)

theorem admits_of_listing (size : UInt32 → UInt32) (dirents : List Dirent) (listing : Listing)
    (named : ∀ entry ∈ listing.entries, entry.name ≠ [])
    (short : ∀ entry ∈ (dirents.foldl (Listing.add size) listing).entries, entry.name.length < 32)
    (count : (dirents.foldl (Listing.add size) listing).entries.length < DIRENT_SLOTS)
    (unique : ((dirents.foldl (Listing.add size) listing).entries.map Entry.name).Nodup) :
    listing.Admits size dirents := by
  induction dirents generalizing listing with
  | nil => trivial
  | cons dirent rest ih =>
      rw [List.foldl_cons] at short count unique
      have onward := foldl_extends size rest (listing.add size dirent)
      have before := (add_extends size listing dirent).trans onward
      have room : listing.entries.length < DIRENT_SLOTS := before.length_le.trans_lt count
      by_cases nameless : cstr dirent.name = []
      · have same : listing.add size dirent = ⟨listing.entries, dirent.flags listing.flags⟩ :=
          if_pos nameless
        refine ⟨⟨by rw [nameless]; decide, room, fun entry member => ?_⟩, ?_⟩
        · rw [nameless]
          exact named entry member
        · refine ih _ ?_ short count unique
          rw [same]
          exact named
      · have entries : (listing.add size dirent).entries = listing.entries ++
            [⟨cstr dirent.name, dirent.inode, dirent.flags listing.flags, size dirent.inode⟩] := by
          rw [Listing.add, if_neg nameless]
        refine ⟨⟨?_, room, ?_⟩, ?_⟩
        · apply short ⟨cstr dirent.name, dirent.inode, dirent.flags listing.flags,
            size dirent.inode⟩
          apply onward.subset
          rw [entries]
          exact List.mem_append_right _ (List.mem_singleton_self _)
        · intro entry member same
          have apart := unique.sublist (onward.sublist.map Entry.name)
          rw [entries, List.map_append, List.nodup_append] at apart
          exact apart.2.2 entry.name (List.mem_map_of_mem member) (cstr dirent.name)
            (List.mem_singleton_self _) same
        · refine ih _ ?_ short count unique
          rw [entries]
          intro entry member
          rcases List.mem_append.mp member with old | new
          · exact named entry old
          · rw [List.mem_singleton.mp new]
            exact nameless

end Listing

section Blocks

variable {vol : Volume} {k : Kernel} {page : Nat} {vnode device : NodePtr} {block : Buffer}
  {dirents visits : List Dirent} {own : UInt32}

/-- Steps of the name length stay in the block until they come to inode 0, and pass the same
children as the format has; the driver can read the inode of each entry passed, and has the
descriptors and pages it needs. -/
structure Agrees (vol : Volume) (k : Kernel) (block : Buffer) (own : UInt32)
    (dirents visits : List Dirent) : Prop where
  stays : (walk block 512 0).map (·.filter fun dirent => dirent.inode ≠ own) = some visits
  same : walkedChildren visits = children own dirents
  inodes : ∀ dirent ∈ visits, ∃ inode, inodeAt vol k dirent.inode = some inode
  enough : enumNeed k visits.length ≤ room k

theorem WellFormed.children_named (wellFormed : WellFormed vol k block dirents) (own : UInt32) :
    ∀ child ∈ children own dirents, child.name ≠ [] := by
  intro child member
  rcases List.mem_map.mp member with ⟨dirent, inside, rfl⟩
  exact (wellFormed.named dirent (List.mem_filter.mp inside).1).1

theorem Agrees.enumerable (agrees : Agrees vol k block own dirents visits)
    (wellFormed : WellFormed vol k block dirents) : Enumerable vol k visits := by
  have same : (listingOf vol k visits).entries.map Entry.child = children own dirents :=
    (listingOf_child visits).trans agrees.same
  have names : (listingOf vol k visits).entries.map Entry.name =
      (dirents.filter fun dirent => dirent.inode ≠ own).map Dirent.name := by
    have mapped := congrArg (List.map Child.name) same
    rw [children, List.map_map, List.map_map] at mapped
    exact mapped
  have kept := List.filter_sublist (p := fun dirent => decide (dirent.inode ≠ own)) (l := dirents)
  refine ⟨admits_of_listing _ visits .empty (fun _ member => nomatch member) ?_ ?_ ?_, agrees.inodes⟩
  · intro entry member
    have named : entry.name ∈ (dirents.filter fun dirent => dirent.inode ≠ own).map Dirent.name :=
      names ▸ List.mem_map_of_mem member
    rcases List.mem_map.mp named with ⟨dirent, inside, same_name⟩
    have short := (wellFormed.named dirent (kept.subset inside)).2.1
    rw [← same_name]
    omega
  · have lengths := congrArg List.length names
    rw [List.length_map, List.length_map] at lengths
    have bound := kept.length_le.trans wellFormed.count
    have slots : DIRENT_SLOTS = 68 := rfl
    change (listingOf vol k visits).entries.length < _
    omega
  · change ((listingOf vol k visits).entries.map Entry.name).Nodup
    rw [names]
    exact wellFormed.unique.sublist (kept.map Dirent.name)

theorem Kernel.enumerated_pages (aside : Aside k page vnode device) (k₁ : Kernel) :
    (k₁.enumerated vnode).pages page = k₁.pages page := by
  cases place : vnode with
  | root => rfl
  | dirent q slot => exact Kernel.setNode_page _ _ _ (aside.own q slot place).1.symm

theorem Agrees.shows (agrees : Agrees vol k block (k.node vnode).inode dirents visits)
    (aside : Aside k page vnode device) (blank : k.pages page = fun _ => blankNode)
    (loaded : directoryBlock vol k (k.node vnode).inode = some block)
    (wellFormed : WellFormed vol k block dirents) (depth : Nat) :
    ∃ k', ext2Enum vol (getnode vol (depth + 1)) vnode k = some ((), k') ∧
      Shows k' page (children (k.node vnode).inode dirents) := by
  have visit : visited vol k (k.node vnode).inode = some visits := by
    rw [visited, loaded, Option.bind_some, agrees.stays]
  have costs := ext2Enum_costs aside depth visit (agrees.enumerable wellFormed) blank
  rcases costs.enough agrees.enough with ⟨_, k', ran, _, k₁, listed, same⟩
  refine ⟨k', ran, ?_⟩
  have shown := listed.shows
  rw [listingOf_child, agrees.same] at shown
  have pages : k'.pages page = k₁.pages page := same ▸ Kernel.enumerated_pages aside k₁
  exact ⟨by rw [pages]; exact shown.each, by rw [pages]; exact shown.ended⟩

theorem Shows.agrees {depth : Nat} {k' : Kernel}
    (shown : Shows k' page (children (k.node vnode).inode dirents))
    (ran : ext2Enum vol (getnode vol (depth + 1)) vnode k = some ((), k'))
    (aside : Aside k page vnode device) (blank : k.pages page = fun _ => blankNode)
    (loaded : directoryBlock vol k (k.node vnode).inode = some block)
    (wellFormed : WellFormed vol k block dirents) :
    ∃ visits, Agrees vol k block (k.node vnode).inode dirents visits := by
  rcases ext2Enum_ran aside blank ran with ⟨visits, visit, enumerable⟩
  rcases (ext2Enum_costs aside depth visit enumerable blank).of_some ran with
    ⟨enough, _, k₁, listed, same⟩
  rw [visited, loaded, Option.bind_some] at visit
  refine ⟨visits, visit, ?_, enumerable.readable, enough⟩
  have pages : k'.pages page = k₁.pages page := same ▸ Kernel.enumerated_pages aside k₁
  have there : Shows k₁ page (children (k.node vnode).inode dirents) := by
    refine ⟨?_, ?_⟩
    · rw [← pages]
      exact shown.each
    · rw [← pages]
      exact shown.ended
  have listing : (listingOf vol k visits).entries.map Entry.child = walkedChildren visits :=
    listingOf_child visits
  rw [← listing]
  apply listed.shows.unique there
  · intro child member
    rcases List.mem_map.mp member with ⟨entry, inside, rfl⟩
    exact listed.named entry inside
  · exact wellFormed.children_named _

/-- For every well-formed block of a directory whose page of nodes is cleared, `ext2_enum` returns
with exactly the directory's children in that page, in order, if and only if steps of the name
length pass the same children as the records of the block. -/
theorem ext2Enum_children_iff (vol : Volume) (k : Kernel) (page : Nat) (vnode device : NodePtr)
    (depth : Nat) (block : Buffer) (dirents : List Dirent) (aside : Aside k page vnode device)
    (blank : k.pages page = fun _ => blankNode)
    (loaded : directoryBlock vol k (k.node vnode).inode = some block)
    (wellFormed : WellFormed vol k block dirents) :
    (∃ k', ext2Enum vol (getnode vol (depth + 1)) vnode k = some ((), k') ∧
        Shows k' page (children (k.node vnode).inode dirents)) ↔
      ∃ visits, Agrees vol k block (k.node vnode).inode dirents visits := by
  constructor
  · intro ⟨k', ran, shown⟩
    exact shown.agrees ran aside blank loaded wellFormed
  · intro ⟨visits, agrees⟩
    exact agrees.shows aside blank loaded wellFormed depth

end Blocks

/-- A volume whose root directory has this block; its inodes are in block 4. -/
def smallVolume (block : Buffer) : Volume where
  groupInodeCount := 32
  inodeSize := 128
  inodeTable _ := 4
  part := 2048
  disk lba :=
    if lba = 2080 then fun i => if i = 168 then 10 else 0
    else if lba = 2128 then block
    else fun _ => 0
  groups := inode_groups
  sized := small_inodes

theorem mounted_aside : Aside mounted 3 (.dirent 0 1) (.dirent 1 0) where
  found := by decide
  rootPage := by decide
  devPage dev first := by
    have there : childNode mounted .root "dev".toList = some (.dirent 0 0) := by decide
    cases there.symm.trans first
    decide
  own q slot place := by
    cases place
    decide
  taken := by decide
  dirents := rfl

/-- A block whose one record is followed by what a deleted one has left. -/
def deletedBlock : Buffer := fun i =>
  [(0, 12), (5, 16), (6, 1), (7, 1), (8, 97), (12, 13), (16, 12), (18, 1), (19, 1), (20, 98)].lookup i
    |>.getD (0 : UInt8)

theorem deletedBlock_wellFormed :
    WellFormed (smallVolume deletedBlock) mounted deletedBlock [⟨12, 1, ['a']⟩] where
  linked := by decide
  count := by decide
  named := by decide
  unique := by decide
  inodes dirent member := by
    rw [List.mem_singleton] at member
    rw [member]
    exact ⟨_, rfl⟩

theorem deletedBlock_shown :
    ¬ ∀ (vol : Volume) (k : Kernel) (page : Nat) (vnode device : NodePtr) (depth : Nat)
      (block : Buffer) (dirents : List Dirent), Aside k page vnode device →
        k.pages page = (fun _ => blankNode) →
        directoryBlock vol k (k.node vnode).inode = some block →
        WellFormed vol k block dirents →
          ∃ k', ext2Enum vol (getnode vol (depth + 1)) vnode k = some ((), k') ∧
            Shows k' page (children (k.node vnode).inode dirents) := by
  intro claim
  have loaded : directoryBlock (smallVolume deletedBlock) mounted 2 = some deletedBlock := rfl
  rcases claim (smallVolume deletedBlock) mounted 3 (.dirent 0 1) (.dirent 1 0) 0 deletedBlock
    [⟨12, 1, ['a']⟩] mounted_aside rfl loaded deletedBlock_wellFormed with ⟨k', ran, shown⟩
  rcases shown.agrees ran mounted_aside rfl loaded deletedBlock_wellFormed with ⟨visits, agrees⟩
  have walked : (walk deletedBlock 512 0).map (·.filter fun dirent => dirent.inode ≠ 2) =
      some [⟨12, 1, ['a']⟩, ⟨13, 1, ['b']⟩] := by decide
  cases walked.symm.trans agrees.stays
  exact absurd agrees.same (by decide)

/-- A block of packed records that zeros follow. -/
def packedBlock : Buffer := fun i =>
  [(0, 2), (4, 12), (6, 1), (7, 2), (8, 46), (12, 12), (16, 244), (17, 15), (18, 1), (19, 1), (20, 97)].lookup i
    |>.getD (0 : UInt8)

theorem packedBlock_shown :
    WellFormed (smallVolume packedBlock) mounted packedBlock [⟨2, 2, ['.']⟩, ⟨12, 1, ['a']⟩] ∧
      ∃ k', ext2Enum (smallVolume packedBlock) (getnode (smallVolume packedBlock) 1) (.dirent 0 1)
        mounted = some ((), k') ∧ Shows k' 3 [⟨['a'], 12, false⟩] := by
  have wellFormed : WellFormed (smallVolume packedBlock) mounted packedBlock
      [⟨2, 2, ['.']⟩, ⟨12, 1, ['a']⟩] := by
    refine ⟨by decide, by decide, by decide, by decide, ?_⟩
    intro dirent member
    rcases List.mem_cons.mp member with rfl | member
    · exact ⟨_, rfl⟩
    · rw [List.mem_singleton.mp member]
      exact ⟨_, rfl⟩
  refine ⟨wellFormed, (ext2Enum_children_iff (smallVolume packedBlock) mounted 3 (.dirent 0 1)
    (.dirent 1 0) 0 packedBlock _ mounted_aside rfl rfl wellFormed).mpr
    ⟨[⟨12, 1, ['a']⟩], by decide, by decide, ?_, ?_⟩⟩
  · intro dirent member
    rw [List.mem_singleton.mp member]
    exact ⟨_, rfl⟩
  · have free : freePages mounted = 1020 := freeSlots_from HEAP_PAGES 4
    change ((2, 8) : Int × Int) ≤ room mounted
    rw [le_room, free]
    decide

end TitorOS.Barrel.Vfs
