import TitorOS.Lib.Run
import TitorOS.Barrel.Tree
import TitorOS.Barrel.Directory

/-! Descriptors hold pointers into pages of nodes that every lookup clears and fills again. A
descriptor stays with its file, because the page is filled with the same entries in the same
order, or has been cut off the tree and is left alone. -/

namespace TitorOS.Barrel.Vfs

open TitorOS.Lib

/-- The node shows the entry, whatever its flags. -/
structure Entry.Recorded (entry : Entry) (node : Vnode) : Prop where
  name : node.name = entry.name
  inode : node.inode = entry.inode
  size : node.size = entry.size
  fs : node.fs = .ext2fs

theorem Entry.Shown.recorded {entry : Entry} {node : Vnode} (shown : entry.Shown node) :
    entry.Recorded node := ⟨shown.name, shown.inode, shown.size, shown.fs⟩

theorem Entry.Recorded.same {entry : Entry} {node node' : Vnode} (first : entry.Recorded node)
    (second : entry.Recorded node') : Same node node' where
  name := second.name.trans first.name.symm
  inode := second.inode.trans first.inode.symm
  size := second.size.trans first.size.symm
  fs := second.fs.trans first.fs.symm

/-- The slot has the entry that every enumeration of the page's directory, if it still has
one, puts there. -/
structure BoundAt (vol : Volume) (k : Kernel) (nodes : Nat → Prop) (page slot : Nat) : Prop where
  there : nodes page
  entry : ∀ v, InTree k nodes v → (k.node v).fs = .ext2fs → (k.node v).dirents = page →
    ∀ dirents, visited vol k (k.node v).inode = some dirents →
      ∃ small : slot < (listingOf vol k dirents).entries.length,
        (listingOf vol k dirents).entries[slot].Recorded (k.pages page slot)

def Bound (vol : Volume) (k : Kernel) (nodes : Nat → Prop) : NodePtr → Prop
  | .root => True
  | .dirent page slot => BoundAt vol k nodes page slot

/-- What calls on the tree leave as it is, from `k` to `k'`. -/
structure Grown (vol : Volume) (k : Kernel) (nodes : Nat → Prop) (k' : Kernel)
    (nodes' : Nat → Prop) : Prop where
  tree : Tree k' nodes'
  heap : ∀ q, k.heap q = true → k'.heap q = true
  more : ∀ q, nodes q → nodes' q
  fresh : ∀ q, nodes' q → nodes q ∨ k.heap q = false
  closed : ∀ i, (k.table i).mode = 0 → (k'.table i).mode = 0
  kept : ∀ i, (k.table i).mode ≠ 0 → k'.table i = k.table i
  bound : ∀ p, Bound vol k nodes p → Bound vol k' nodes' p ∧ Same (k.node p) (k'.node p)

section Grown

variable {vol : Volume} {k k₁ k' : Kernel} {nodes nodes₁ nodes' : Nat → Prop}

theorem Grown.trans (first : Grown vol k nodes k₁ nodes₁) (second : Grown vol k₁ nodes₁ k' nodes') :
    Grown vol k nodes k' nodes' where
  tree := second.tree
  heap q used := second.heap q (first.heap q used)
  more q member := second.more q (first.more q member)
  fresh q member := by
    rcases second.fresh q member with old | unused
    · exact first.fresh q old
    · right
      cases before : k.heap q with
      | false => rfl
      | true =>
          rw [first.heap q before] at unused
          cases unused
  closed i free := second.closed i (first.closed i free)
  kept i used := by
    have same := first.kept i used
    rw [second.kept i (same ▸ used), same]
  bound p bound := by
    rcases first.bound p bound with ⟨between, same⟩
    rcases second.bound p between with ⟨after, again⟩
    exact ⟨after, same.trans again⟩

theorem Tree.congr (tree : Tree k nodes) (root : k'.root = k.root) (pages : k'.pages = k.pages)
    (used : ∀ q, nodes q → k'.heap q = true) : Tree k' nodes where
  used := used
  root := root ▸ tree.root
  child := by
    rw [pages]
    intro q j member visible
    rw [Visible, pages] at visible
    exact tree.child q j member visible
  top := by
    rw [pages, root]
    intro q j member visible
    rw [Visible, pages] at visible
    exact tree.top q j member visible
  below := by
    rw [pages]
    intro q j member visible
    rw [Visible, pages] at visible
    exact tree.below q j member visible
  alone := by
    rw [pages]
    intro q j q' j' member member' visible visible'
    rw [Visible, pages] at visible visible'
    exact tree.alone q j q' j' member member' visible visible'

theorem InTree.congr (pages : k'.pages = k.pages) {v : NodePtr} :
    InTree k' nodes v ↔ InTree k nodes v := by
  cases v with
  | root => exact Iff.rfl
  | dirent q j => rw [InTree, InTree, Visible, Visible, pages]

theorem Bound.congr (root : k'.root = k.root) (pages : k'.pages = k.pages) {p : NodePtr}
    (bound : Bound vol k nodes p) : Bound vol k' nodes p := by
  have node := Kernel.node_congr root pages
  have disk (sector : UInt32) : blockAt vol k' sector = blockAt vol k sector :=
    blockAt_congr root pages sector
  cases p with
  | root => trivial
  | dirent page slot =>
      refine ⟨bound.there, ?_⟩
      intro v inside ext2 place dirents visits
      rw [node] at ext2 place visits
      rw [visited_eq disk] at visits
      rw [listingOf_eq disk, pages]
      exact bound.entry v ((InTree.congr pages).mp inside) ext2 place dirents visits

/-- Steps that leave the nodes alone. The heap is compared with `k`, so that pages taken
since then may be given back. -/
theorem Grown.settle (grown : Grown vol k nodes k₁ nodes') (root : k'.root = k₁.root)
    (pages : k'.pages = k₁.pages) (heap : ∀ q, k.heap q = true → k'.heap q = true)
    (used : ∀ q, nodes' q → k'.heap q = true)
    (closed : ∀ i, (k₁.table i).mode = 0 → (k'.table i).mode = 0)
    (kept : ∀ i, (k₁.table i).mode ≠ 0 → k'.table i = k₁.table i) : Grown vol k nodes k' nodes' where
  tree := grown.tree.congr root pages used
  heap := heap
  more := grown.more
  fresh := grown.fresh
  closed i free := closed i (grown.closed i free)
  kept i taken := by
    have same := grown.kept i taken
    rw [kept i (same ▸ taken), same]
  bound p bound := by
    rcases grown.bound p bound with ⟨between, same⟩
    rw [Kernel.node_congr root pages]
    exact ⟨between.congr root pages, same⟩

theorem Grown.refl (tree : Tree k nodes) : Grown vol k nodes k nodes where
  tree := tree
  heap _ := id
  more _ := id
  fresh _ := Or.inl
  closed _ := id
  kept _ _ := rfl
  bound _ bound := ⟨bound, ⟨rfl, rfl, rfl, rfl⟩⟩

theorem Grown.quiet (tree : Tree k nodes) (quiet : Quiet k k') (table : k'.table = k.table) :
    Grown vol k nodes k' nodes := by
  refine (Grown.refl tree).settle quiet.root quiet.pages quiet.heap ?_ ?_ ?_
  · exact fun q member => quiet.heap q (tree.used q member)
  · exact fun i free => by rw [table]; exact free
  · exact fun i _ => congrFun table i

variable {vnode : NodePtr} {listing : Listing}

theorem Enumerated.bound_new (enumerated : Enumerated vol k vnode listing k') (tree : Tree k nodes)
    (inside : InTree k nodes vnode) {slot : Nat} (small : slot < listing.entries.length) :
    Bound vol k' (withChildren nodes k' (k.node vnode).dirents listing.entries.length)
      (.dirent (k.node vnode).dirents slot) := by
  rcases enumerated.still tree inside with ⟨still, alike⟩
  have tree' := enumerated.tree tree inside
  refine ⟨.inl (tree.page inside), ?_⟩
  intro v member _ place dirents visits
  have same : v = vnode := tree'.owner member still (place.trans alike.dirents.symm)
  rcases enumerated.visits with ⟨dirents', visits', _, listed⟩
  rw [same, alike.inode, visited_eq enumerated.disk, visits'] at visits
  cases visits
  rw [listingOf_eq enumerated.disk, ← listed]
  exact ⟨small, (enumerated.shown slot small).recorded⟩

theorem Enumerated.grown (enumerated : Enumerated vol k vnode listing k') (tree : Tree k nodes)
    (inside : InTree k nodes vnode) (ext2 : (k.node vnode).fs = .ext2fs) :
    Grown vol k nodes k'
      (withChildren nodes k' (k.node vnode).dirents listing.entries.length) := by
  rcases enumerated.still tree inside with ⟨still, _⟩
  have tree' := enumerated.tree tree inside
  constructor
  case tree => exact tree'
  case heap => exact enumerated.heap
  case more => exact fun q => .inl
  case fresh =>
    intro q member
    rcases member with old | ⟨j, small, rfl⟩
    · exact .inl old
    · exact .inr (enumerated.fresh j small).1
  case closed => exact enumerated.closed
  case kept => exact enumerated.kept
  case bound =>
    intro p bound
    cases p with
    | root =>
        refine ⟨trivial, ?_⟩
        change Same k.root k'.root
        rw [enumerated.root]
        exact ⟨rfl, rfl, rfl, rfl⟩
    | dirent page slot =>
        by_cases here : page = (k.node vnode).dirents
        · subst here
          rcases enumerated.visits with ⟨dirents, visits, _, listed⟩
          have entry := bound.entry vnode inside ext2 rfl dirents visits
          rw [← listed] at entry
          rcases entry with ⟨small, recorded⟩
          exact ⟨enumerated.bound_new tree inside small,
            recorded.same (enumerated.shown slot small).recorded⟩
        · have alike := enumerated.others page here (tree.used page bound.there) slot
          refine ⟨⟨.inl bound.there, ?_⟩, alike.toSame⟩
          intro v member ext2' place dirents visits
          rw [visited_eq enumerated.disk] at visits
          rw [listingOf_eq enumerated.disk]
          have before : InTree k nodes v ∧ Alike (k.node v) (k'.node v) := by
            cases v with
            | root =>
                refine ⟨trivial, ?_⟩
                change Alike k.root k'.root
                rw [enumerated.root]
                exact Alike.refl _
            | dirent q j =>
                rcases enumerated.node_cases tree member.1 member.2 with
                  ⟨rfl, small⟩ | ⟨old, visible, same⟩
                · exact absurd place (enumerated.fresh_ne small (tree.used page bound.there))
                · exact ⟨⟨old, visible⟩, same⟩
          rcases before with ⟨inside', same⟩
          rw [same.inode] at visits
          rcases bound.entry v inside' (same.fs ▸ ext2') (same.dirents ▸ place) dirents visits with
            ⟨small, recorded⟩
          exact ⟨small, alike.name.trans recorded.name, alike.inode.trans recorded.inode,
            alike.size.trans recorded.size, alike.fs.trans recorded.fs⟩

theorem Tree.bound_quiet (tree : Tree k nodes) (inside : InTree k nodes vnode)
    (quiet : (k.node vnode).fs ≠ .ext2fs) (slot : Nat) :
    Bound vol k nodes (.dirent (k.node vnode).dirents slot) := by
  refine ⟨tree.page inside, ?_⟩
  intro v member ext2 place
  rw [tree.owner member inside place] at ext2
  exact absurd ext2 quiet

end Grown

section Calls

variable {vol : Volume} {k k' : Kernel} {nodes : Nat → Prop} {vnode p : NodePtr} {depth : Nat}

/-- After a look at a directory its nodes are bound, as far as they are to be seen. -/
theorem Tree.enumdir_grown (tree : Tree k nodes) (inside : InTree k nodes vnode)
    (ran : enumdir vol (getnode vol (depth + 1)) vnode k = some ((), k')) (i : Nat)
    (before : ∀ j < i, (k.pages (k.node vnode).dirents j).name ≠ []) :
    ∃ nodes', Grown vol k nodes k' nodes' ∧ InTree k' nodes' vnode ∧
      ((k'.pages (k'.node vnode).dirents i).name ≠ [] →
        Visible k' (k'.node vnode).dirents i ∧
          Bound vol k' nodes' (.dirent (k'.node vnode).dirents i)) := by
  by_cases ext2 : (k.node vnode).fs = .ext2fs
  · rcases tree.enumdir_ran inside ext2 ran with ⟨listing, enumerated⟩
    rcases enumerated.still tree inside with ⟨still, alike⟩
    refine ⟨_, enumerated.grown tree inside ext2, still, ?_⟩
    rw [alike.dirents]
    intro named
    have small := enumerated.end_ named
    exact ⟨enumerated.visible small, enumerated.bound_new tree inside small⟩
  · rw [enumdir_quiet ext2] at ran
    cases ran
    refine ⟨nodes, Grown.refl tree, inside, ?_⟩
    intro named
    refine ⟨?_, tree.bound_quiet inside ext2 i⟩
    intro j upto
    by_cases last : j = i
    · rw [last]
      exact named
    · exact before j (by omega)

theorem Tree.navigate_grown {part : List Char} (named : part ≠ []) (tries i : Nat)
    (tree : Tree k nodes) (inside : InTree k nodes vnode)
    (before : ∀ j < i, (k.pages (k.node vnode).dirents j).name ≠ [])
    (ran : navigate (enumdir vol (getnode vol (depth + 1))) vnode part tries i k = some (p, k')) :
    ∃ nodes', Grown vol k nodes k' nodes' ∧ InTree k' nodes' p ∧ Bound vol k' nodes' p := by
  induction tries generalizing i k nodes with
  | zero => cases ran
  | succ tries ih =>
      rw [navigate, get_bind] at ran
      split at ran
      · cases ran
      · rcases bind_some ran with ⟨_, k₁, looked, steps⟩
        rcases tree.enumdir_grown inside looked i before with ⟨nodes₁, grown, still, seen⟩
        rw [get_bind] at steps
        split at steps
        · rename_i here
          cases steps
          rcases seen (here ▸ named) with ⟨visible, bound⟩
          exact ⟨nodes₁, grown, ⟨grown.tree.page still, visible⟩, bound⟩
        · split at steps
          · cases steps
          · rename_i unended
            rcases seen unended with ⟨visible, _⟩
            rcases ih (i + 1) grown.tree still (fun j below => visible j (by omega)) steps with
              ⟨nodes', later, inside', bound⟩
            exact ⟨nodes', grown.trans later, inside', bound⟩

theorem cstr_token {text : List Char} (token : text.dropWhile (· = NUL) ≠ []) :
    cstr (text.dropWhile (· = NUL)) ≠ [] := by
  have head := List.head_dropWhile_not (fun c => decide (c = NUL)) token
  cases found : text.dropWhile (· = NUL) with
  | nil => exact absurd found token
  | cons c rest =>
      have first : c ≠ NUL := by simpa [found] using head
      rw [cstr, List.takeWhile_cons_of_pos (by simpa using first)]
      exact List.cons_ne_nil _ _

theorem strtok_part {str part : List Char} (found : (strtok str).map cstr = some part) :
    part ≠ [] := by
  rcases Option.map_eq_some_iff.mp found with ⟨token, there, rfl⟩
  rw [strtok] at there
  split at there
  · cases there
  · rename_i unended
    cases there
    exact cstr_token unended

theorem strtokNext_part {token : Option (List Char)} {part : List Char}
    (found : (strtokNext token).map cstr = some part) : part ≠ [] := by
  rcases Option.map_eq_some_iff.mp found with ⟨next, there, rfl⟩
  cases token with
  | none => cases there
  | some token =>
      rw [strtokNext] at there
      split at there
      · cases there
      · rename_i unended
        cases there
        exact cstr_token unended

theorem Tree.descend_grown {path : List Char} (rounds : Nat) {currentpath : List Char}
    {pathpart : Option (List Char)} (named : ∀ part, pathpart = some part → part ≠ [])
    (tree : Tree k nodes) (inside : InTree k nodes vnode) (bound : Bound vol k nodes vnode)
    (ran : descend (enumdir vol (getnode vol (depth + 1))) path rounds currentpath pathpart vnode k =
      some (p, k')) :
    ∃ nodes', Grown vol k nodes k' nodes' ∧ InTree k' nodes' p ∧ Bound vol k' nodes' p := by
  induction rounds generalizing currentpath pathpart vnode k nodes with
  | zero => cases ran
  | succ rounds ih =>
      by_cases done : currentpath = path
      · rw [descend_done done] at ran
        cases ran
        exact ⟨nodes, Grown.refl tree, inside, bound⟩
      · cases pathpart with
        | none =>
            rw [descend, if_neg done] at ran
            cases ran
        | some part =>
            rw [descend, if_neg done] at ran
            rcases bind_some ran with ⟨node, k₁, found, steps⟩
            rcases tree.navigate_grown (named part rfl) 256 0 inside
              (fun j below => absurd below (Nat.not_lt_zero j)) found with
              ⟨nodes₁, grown, inside₁, bound₁⟩
            rw [modify_bind, get_bind] at steps
            have quiet : Grown vol k₁ nodes₁ { k₁ with token := strtokNext k₁.token } nodes₁ :=
              .quiet grown.tree ⟨rfl, rfl, fun _ used => used⟩ rfl
            have boundOn : Bound vol { k₁ with token := strtokNext k₁.token } nodes₁ node := by
              refine bound₁.congr ?_ ?_
              · rfl
              · rfl
            rcases ih (fun part there => strtokNext_part there) quiet.tree
              ((InTree.congr rfl).mpr inside₁) boundOn steps with ⟨nodes', later, inside', bound'⟩
            exact ⟨nodes', (grown.trans quiet).trans later, inside', bound'⟩

theorem Tree.getnode_grown {path : List Char} (tree : Tree k nodes)
    (ran : getnode vol (depth + 2) path k = some (p, k')) :
    ∃ nodes', Grown vol k nodes k' nodes' ∧ InTree k' nodes' p ∧ Bound vol k' nodes' p := by
  rcases getnode_ran ran with ⟨short, enough⟩
  rcases getnode_entered vol (depth + 1) short enough with
    ⟨currentpath, pathpart, k₁, entered, same⟩
  rw [same] at ran
  rcases Option.map_eq_some_iff.mp ran with ⟨⟨node, k₂⟩, found, returned⟩
  have table : k₁.table = k.table := by rw [Kernel.table, Kernel.table, entered.fds]
  have start : Grown vol k nodes k₁ nodes := .quiet tree entered.toQuiet table
  have token : ∀ part, k₁.token.map cstr = some part → part ≠ [] := by
    intro part there
    rw [entered.token] at there
    exact strtok_part there
  have rootInside : InTree k₁ nodes .root := trivial
  have rootBound : Bound vol k₁ nodes .root := trivial
  rcases start.tree.descend_grown _ token rootInside rootBound found with
    ⟨nodes', grown, inside, bound⟩
  have result : p = node ∧ k' = { k₂ with
      heap := Function.update (Function.update k₂.heap currentpath false) pathpart false } := by
    cases returned
    exact ⟨rfl, rfl⟩
  rcases result with ⟨rfl, freed⟩
  have root : k'.root = k₂.root := by rw [freed]
  have pages : k'.pages = k₂.pages := by rw [freed]
  have table' : k'.table = k₂.table := by
    rw [freed]
    rfl
  have whole := start.trans grown
  have apart (page : Nat) (unused : k.heap page = false) (taken : k₁.heap page = true) :
      ¬ nodes' page := by
    intro member
    rcases grown.fresh page member with old | new
    · rw [tree.used page old] at unused
      cases unused
    · rw [taken] at new
      cases new
  have back (q : Nat) (first : q ≠ currentpath) (second : q ≠ pathpart) :
      k'.heap q = k₂.heap q := by
    rw [freed]
    exact (Function.update_of_ne second ..).trans (Function.update_of_ne first ..)
  refine ⟨nodes', whole.settle root pages ?_ ?_ ?_ ?_, (InTree.congr pages).mpr inside,
    bound.congr root pages⟩
  · intro q used
    rw [back]
    · exact whole.heap q used
    · intro same
      rw [same, entered.unused.1] at used
      cases used
    · intro same
      rw [same, entered.unused.2] at used
      cases used
  · intro q member
    rw [back]
    · exact grown.tree.used q member
    · intro same
      exact apart currentpath entered.unused.1 entered.taken.1 (same ▸ member)
    · intro same
      exact apart pathpart entered.unused.2 entered.taken.2 (same ▸ member)
  · intro i free
    rw [table']
    exact free
  · intro i _
    rw [table']

end Calls

section Runs

inductive Call where
  | getnode (path : List Char)
  | open_ (path : List Char) (mode : UInt8)
  | close (fd : Nat)
  | readdir (path : List Char)
  deriving DecidableEq

/-- The kernel when a call of the active process returns. -/
def call (vol : Volume) (depth : Nat) (k : Kernel) : Call → Option Kernel
  | .getnode path => (getnode vol (depth + 2) path k).map (·.2)
  | .open_ path mode => (open_ (getnode vol (depth + 2)) path mode k).map (·.2)
  | .close fd => (close fd k).map (·.2)
  | .readdir path => (readdir vol (depth + 1) path k).map (·.2)

/-- Every open descriptor is bound. -/
structure Sound (vol : Volume) (k : Kernel) (nodes : Nat → Prop) : Prop where
  tree : Tree k nodes
  bound : ∀ i, (k.table i).mode ≠ 0 → Bound vol k nodes (k.table i).node

variable {vol : Volume} {k k₁ k' : Kernel} {nodes nodes' : Nat → Prop} {depth : Nat}

theorem Sound.grown (sound : Sound vol k nodes) (grown : Grown vol k nodes k' nodes') :
    Sound vol k' nodes' := by
  refine ⟨grown.tree, ?_⟩
  intro i opened
  by_cases free : (k.table i).mode = 0
  · exact absurd (grown.closed i free) opened
  · rw [grown.kept i free]
    exact (grown.bound _ (sound.bound i free)).1

/-- What a call does for an open descriptor. -/
structure Stays (k : Kernel) (i : Nat) (k' : Kernel) : Prop where
  table : k'.table i = k.table i
  same : Same (k.node (k.table i).node) (k'.node (k.table i).node)

theorem Sound.stays (sound : Sound vol k nodes) (grown : Grown vol k nodes k' nodes') {i : Nat}
    (opened : (k.table i).mode ≠ 0) : Stays k i k' :=
  ⟨grown.kept i opened, (grown.bound _ (sound.bound i opened)).2⟩

theorem Stays.trans {i : Nat} (first : Stays k i k₁) (second : Stays k₁ i k') : Stays k i k' := by
  refine ⟨second.table.trans first.table, ?_⟩
  have later := second.same
  rw [first.table] at later
  exact first.same.trans later

theorem Tree.open_grown {path : List Char} {mode : UInt8} {i : Nat} (tree : Tree k nodes)
    (ran : open_ (getnode vol (depth + 2)) path mode k = some (i, k')) :
    ∃ k₁ nodes' node, Grown vol k nodes k₁ nodes' ∧ Bound vol k₁ nodes' node ∧
      firstFree FD_TABLE_SIZE (modeUsed k₁.table) = some i ∧
        k' = { k₁ with fds := some (Function.update k₁.table i ⟨node, mode, 0⟩) } := by
  have entry {k₀ : Kernel} (start : Grown vol k nodes k₀ nodes)
      (ran : openEntry (getnode vol (depth + 2)) path mode k₀ = some (i, k')) :
      ∃ k₁ nodes' node, Grown vol k nodes k₁ nodes' ∧ Bound vol k₁ nodes' node ∧
        firstFree FD_TABLE_SIZE (modeUsed k₁.table) = some i ∧
          k' = { k₁ with fds := some (Function.update k₁.table i ⟨node, mode, 0⟩) } := by
    rw [openEntry] at ran
    rcases bind_some ran with ⟨node, k₁, found, steps⟩
    rcases start.tree.getnode_grown found with ⟨nodes', grown, _, bound⟩
    rw [get_bind] at steps
    cases fds : k₁.fds with
    | none =>
        simp only [fds] at steps
        cases steps
    | some table =>
        simp only [fds] at steps
        have same : k₁.table = table := Kernel.table_eq fds
        cases first : firstFree FD_TABLE_SIZE (modeUsed table) with
        | none =>
            simp only [first] at steps
            cases steps
        | some slot =>
            simp only [first] at steps
            cases steps
            rw [← same] at first
            exact ⟨k₁, nodes', node, start.trans grown, bound, first, by rw [same]⟩
  cases fds : k.fds with
  | some table =>
      rw [open_some (Kernel.fds_eq fds)] at ran
      exact entry (Grown.refl tree) ran
  | none =>
      rw [open_none fds] at ran
      rcases bind_some ran with ⟨page, k₁, first, steps⟩
      rcases (kmalloc_costs k).of_some first with ⟨_, _, _, _, same₁⟩
      rw [modify_bind] at steps
      refine entry (.quiet tree ?_ ?_) steps
      · rw [same₁]
        exact ⟨rfl, rfl, (quiet_kmalloc rfl).heap⟩
      · rw [Kernel.table, Kernel.table, fds]
        rfl

theorem Tree.readdir_grown {path text : List Char} (tree : Tree k nodes)
    (ran : readdir vol (depth + 1) path k = some (text, k')) :
    ∃ nodes', Grown vol k nodes k' nodes' := by
  rw [readdir] at ran
  rcases bind_some ran with ⟨node, k₁, found, steps⟩
  rcases tree.getnode_grown found with ⟨nodes₁, grown₁, inside, _⟩
  rcases bind_some steps with ⟨_, k₂, looked, steps⟩
  rcases grown₁.tree.enumdir_grown inside looked 0
    (fun j below => absurd below (Nat.not_lt_zero j)) with ⟨nodes₂, grown₂, _, _⟩
  rcases bind_some steps with ⟨contents, k₃, taken, steps⟩
  rcases (kmalloc_costs k₂).of_some taken with ⟨_, _, _, free, same₃⟩
  rw [get_bind] at steps
  cases listed : contentsOf (k₃.pages (k₃.node node).dirents) (DIRENT_SLOTS + 1) 0 with
  | none =>
    simp only [listed] at steps
    cases steps
  | some lines =>
    simp only [listed] at steps
    have heap : k'.heap = k₂.heap := by
      cases steps
      rw [same₃]
      change Function.update (Function.update k₂.heap contents true) contents false = k₂.heap
      rw [Function.update_idem, ← free, Function.update_eq_self]
    have others : k'.root = k₂.root ∧ k'.pages = k₂.pages ∧ k'.table = k₂.table := by
      cases steps
      rw [same₃]
      exact ⟨rfl, rfl, rfl⟩
    rcases others with ⟨root, pages, table⟩
    have grown := grown₁.trans grown₂
    refine ⟨nodes₂, grown.settle root pages ?_ ?_ ?_ ?_⟩
    · rw [heap]
      exact grown.heap
    · rw [heap]
      exact grown.tree.used
    · intro i unused
      rw [table]
      exact unused
    · intro i _
      rw [table]

theorem close_ran {fd : Nat} (ran : close fd k = some ((), k')) :
    (k.table fd).mode ≠ 0 ∧
      k' = { k with fds := some (Function.update k.table fd { k.table fd with mode := 0 }) } := by
  rw [close, get_bind] at ran
  cases fds : k.fds with
  | none =>
      simp only [fds] at ran
      cases ran
  | some table =>
      have same : k.table = table := Kernel.table_eq fds
      simp only [fds] at ran
      split at ran
      · cases ran
      · rename_i used
        cases ran
        rw [same]
        exact ⟨used, rfl⟩

/-- One call: what is open stays as it is, but for the descriptor that is closed. -/
theorem Sound.call {c : Call} (sound : Sound vol k nodes) (ran : call vol depth k c = some k') :
    (∃ nodes', Sound vol k' nodes') ∧
      ∀ i, (k.table i).mode ≠ 0 → c ≠ .close i → Stays k i k' := by
  cases c with
  | getnode path =>
      rw [Vfs.call] at ran
      rcases Option.map_eq_some_iff.mp ran with ⟨⟨node, k₁⟩, returned, rfl⟩
      rcases sound.tree.getnode_grown returned with ⟨nodes', grown, _⟩
      exact ⟨⟨nodes', sound.grown grown⟩, fun i opened _ => sound.stays grown opened⟩
  | readdir path =>
      rw [Vfs.call] at ran
      rcases Option.map_eq_some_iff.mp ran with ⟨⟨text, k₁⟩, returned, rfl⟩
      rcases sound.tree.readdir_grown returned with ⟨nodes', grown⟩
      exact ⟨⟨nodes', sound.grown grown⟩, fun i opened _ => sound.stays grown opened⟩
  | open_ path mode =>
      rw [Vfs.call] at ran
      rcases Option.map_eq_some_iff.mp ran with ⟨⟨fd, k₂⟩, returned, rfl⟩
      rcases sound.tree.open_grown returned with ⟨k₁, nodes', node, grown, bound, first, same⟩
      have free : (k₁.table fd).mode = 0 := by simpa [modeUsed] using (firstFree_some first).2
      have between := sound.grown grown
      have table : k₂.table = Function.update k₁.table fd ⟨node, mode, 0⟩ := by
        rw [same]
        rfl
      have root : k₂.root = k₁.root := by rw [same]
      have pages : k₂.pages = k₁.pages := by rw [same]
      refine ⟨⟨nodes', ?_, ?_⟩, ?_⟩
      · refine between.tree.congr root pages ?_
        rw [same]
        exact between.tree.used
      · intro i opened
        by_cases new : i = fd
        · rw [new, table, Function.update_self]
          exact bound.congr root pages
        · rw [table, Function.update_of_ne new] at opened ⊢
          exact (between.bound i opened).congr root pages
      · intro i opened _
        have stays := sound.stays grown opened
        have other : i ≠ fd := by
          intro new
          rw [← stays.table, new] at opened
          exact opened free
        refine ⟨?_, ?_⟩
        · rw [table, Function.update_of_ne other, stays.table]
        · rw [Kernel.node_congr root pages]
          exact stays.same
  | close fd =>
      rw [Vfs.call] at ran
      rcases Option.map_eq_some_iff.mp ran with ⟨⟨_, k₁⟩, returned, rfl⟩
      have same := (close_ran returned).2
      have table : k₁.table = Function.update k.table fd { k.table fd with mode := 0 } := by
        rw [same]
        rfl
      have root : k₁.root = k.root := by rw [same]
      have pages : k₁.pages = k.pages := by rw [same]
      refine ⟨⟨nodes, ?_, ?_⟩, ?_⟩
      · refine sound.tree.congr root pages ?_
        rw [same]
        exact sound.tree.used
      · intro i opened
        by_cases shut : i = fd
        · rw [shut, table, Function.update_self] at opened
          exact absurd rfl opened
        · rw [table, Function.update_of_ne shut] at opened ⊢
          exact (sound.bound i opened).congr root pages
      · intro i _ other
        have apart : i ≠ fd := fun shut => other (shut ▸ rfl)
        refine ⟨by rw [table, Function.update_of_ne apart], ?_⟩
        rw [Kernel.node_congr root pages]
        exact ⟨rfl, rfl, rfl, rfl⟩

/-- Before any descriptor is open. -/
structure Boot (k : Kernel) (nodes : Nat → Prop) : Prop where
  tree : Tree k nodes
  closed : ∀ i, (k.table i).mode = 0

theorem Boot.run_sound (boot : Boot k nodes) (run : Run (call vol depth) anyStep k k') :
    ∃ nodes', Sound vol k' nodes' := by
  refine run.invariant (fun k => ∃ nodes, Sound vol k nodes) ?_ ?_
  · exact ⟨nodes, boot.tree, fun i opened => absurd (boot.closed i) opened⟩
  · intro k₁ c k₂ ⟨nodes₁, sound⟩ _ ran
    exact (sound.call ran).1

/-- In every run of lookups, opens, closes and directory listings, a descriptor that is open and
is not closed keeps its node, and the node its name, inode, size and file system. A call that
does not return, or whose directory has no room in its page, ends the run. -/
theorem open_descriptor_stays (vol : Volume) (depth : Nat) (boot k k' : Kernel)
    (nodes : Nat → Prop) (i : Nat) (booted : Boot boot nodes)
    (run : Run (call vol depth) anyStep boot k) (opened : (k.table i).mode ≠ 0)
    (later : Run (call vol depth) (fun _ c => c ≠ .close i) k k') :
    k'.table i = k.table i ∧
      Same (k.node (k.table i).node) (k'.node (k.table i).node) := by
  have start : (∃ nodes', Sound vol k nodes') ∧ Stays k i k :=
    ⟨booted.run_sound run, rfl, rfl, rfl, rfl, rfl⟩
  have last := later.invariant (fun t => (∃ nodes', Sound vol t nodes') ∧ Stays k i t) start
    (fun t c u ⟨⟨nodes', sound⟩, stays⟩ other ran => by
      rcases sound.call ran with ⟨after, step⟩
      exact ⟨after, stays.trans (step i (stays.table ▸ opened) other)⟩)
  exact ⟨last.2.table, last.2.same⟩

end Runs

theorem mounted_visible {q j : Nat} (member : q < 4) (visible : Visible mounted q j) :
    (q = 0 ∧ j = 0) ∨ (q = 0 ∧ j = 1) ∨ (q = 1 ∧ j = 0) := by
  have bound (stop : Nat) (ended : (mounted.pages q stop).name = []) : j < stop := by
    by_contra late
    exact visible stop (by omega) ended
  match q with
  | 0 =>
      have := bound 2 rfl
      omega
  | 1 =>
      have := bound 1 rfl
      omega
  | 2 =>
      have := bound 0 rfl
      omega
  | 3 =>
      have := bound 0 rfl
      omega

theorem mounted_boot : Boot mounted (· < 4) where
  tree := by
    constructor
    case used =>
      intro q member
      exact decide_eq_true member
    case root => decide
    case child =>
      intro q j member visible
      rcases mounted_visible member visible with ⟨rfl, rfl⟩ | ⟨rfl, rfl⟩ | ⟨rfl, rfl⟩
      all_goals decide
    case top =>
      intro q j member visible
      rcases mounted_visible member visible with ⟨rfl, rfl⟩ | ⟨rfl, rfl⟩ | ⟨rfl, rfl⟩
      all_goals decide
    case below =>
      intro q j member visible
      rcases mounted_visible member visible with ⟨rfl, rfl⟩ | ⟨rfl, rfl⟩ | ⟨rfl, rfl⟩
      all_goals decide
    case alone =>
      intro q j q' j' member member' visible visible'
      rcases mounted_visible member visible with ⟨rfl, rfl⟩ | ⟨rfl, rfl⟩ | ⟨rfl, rfl⟩
      all_goals
        rcases mounted_visible member' visible' with ⟨rfl, rfl⟩ | ⟨rfl, rfl⟩ | ⟨rfl, rfl⟩
        all_goals decide
  closed _ := rfl

theorem packedBlock_stays :
    ∃ k k', Run (call (smallVolume packedBlock) 0) anyStep mounted k ∧ (k.table 0).mode ≠ 0 ∧
      (k.node (k.table 0).node).name = ['a'] ∧
        Run (call (smallVolume packedBlock) 0) (fun _ c => c ≠ .close 0) k k' ∧
          k'.table 0 = k.table 0 ∧
            Same (k.node (k.table 0).node) (k'.node (k.table 0).node) := by
  have opens : ((call (smallVolume packedBlock) 0 mounted (.open_ "/mnt/a".toList 1)).map fun k =>
      decide ((k.table 0).mode ≠ 0 ∧ (k.node (k.table 0).node).name = ['a']) &&
        (call (smallVolume packedBlock) 0 k (.readdir "/mnt".toList)).isSome) = some true := by
    decide +kernel
  rcases Option.map_eq_some_iff.mp opens with ⟨k, first, holds⟩
  rcases Bool.and_eq_true_iff.mp holds with ⟨found, lists⟩
  rcases of_decide_eq_true found with ⟨opened, named⟩
  rcases Option.isSome_iff_exists.mp lists with ⟨k', second⟩
  have run : Run (call (smallVolume packedBlock) 0) anyStep mounted k :=
    Run.refl.tail trivial first
  have later : Run (call (smallVolume packedBlock) 0) (fun _ c => c ≠ .close 0) k k' := by
    refine Run.refl.tail ?_ second
    decide
  exact ⟨k, k', run, opened, named, later, open_descriptor_stays (smallVolume packedBlock) 0 mounted
    k k' (· < 4) 0 mounted_boot run opened later⟩

end TitorOS.Barrel.Vfs
