import Mathlib.Tactic.Positivity
import Mathlib.Tactic.Ring
import TitorOS.Barrel.Bound

/-! Paths. `getnode` cuts a path with `strtok` and looks the parts up one after the other; a look
at an ext2 directory enters `getnode` again, for the device, and leaves nothing in the static
pointer of `strtok`. -/

namespace TitorOS.Barrel.Vfs

open TitorOS.Lib

section Strings

/-- A part of a path, as a file may be called. -/
structure Proper (part : List Char) : Prop where
  named : part ≠ []
  slash : '/' ∉ part
  ended : NUL ∉ part

instance (part : List Char) : Decidable (Proper part) :=
  decidable_of_iff (part ≠ [] ∧ '/' ∉ part ∧ NUL ∉ part)
    ⟨fun ⟨named, slash, ended⟩ => ⟨named, slash, ended⟩,
      fun ⟨named, slash, ended⟩ => ⟨named, slash, ended⟩⟩

def pathOf (parts : List (List Char)) : List Char := parts.flatMap ('/' :: ·)

/-- What `strtok` still has to hand out. -/
def tokenOf : List (List Char) → Option (List Char)
  | [] => none
  | part :: rest => some (part ++ rest.flatMap (NUL :: ·))

theorem map_delimiter {part : List Char} (proper : Proper part) :
    part.map (fun c => if c = '/' then NUL else c) = part := by
  have same : ∀ c ∈ part, (if c = '/' then NUL else c) = id c := by
    intro c member
    apply if_neg
    intro slash
    exact proper.slash (slash ▸ member)
  rw [List.map_congr_left same, List.map_id]

theorem map_path {parts : List (List Char)} (proper : ∀ part ∈ parts, Proper part) :
    (pathOf parts).map (fun c => if c = '/' then NUL else c) = parts.flatMap (NUL :: ·) := by
  induction parts with
  | nil => rfl
  | cons part rest ih =>
      have tail := ih fun other member => proper other (List.mem_cons_of_mem _ member)
      have head := map_delimiter (proper part List.mem_cons_self)
      rw [pathOf] at tail ⊢
      rw [List.flatMap_cons, List.flatMap_cons, List.map_append, List.map_cons, if_pos rfl, head, tail]

theorem dropWhile_part {part : List Char} (proper : Proper part) (rest : List Char) :
    (part ++ rest).dropWhile (· = NUL) = part ++ rest := by
  cases part with
  | nil => exact absurd rfl proper.named
  | cons c tail =>
      have first : c ≠ NUL := fun same => proper.ended (same ▸ List.mem_cons_self)
      simp [first]

theorem token_part {part : List Char} (proper : Proper part) (rest : List (List Char)) :
    (match (part ++ rest.flatMap (NUL :: ·)).dropWhile (· = NUL) with
      | [] => none
      | token => some token) = tokenOf (part :: rest) := by
  rw [dropWhile_part proper, tokenOf]
  split
  · rename_i empty
    exact absurd (List.append_eq_nil_iff.mp empty).1 proper.named
  · rfl

theorem strtok_path {parts : List (List Char)} (proper : ∀ part ∈ parts, Proper part) :
    strtok (pathOf parts) = tokenOf parts := by
  rw [strtok, map_path proper]
  cases parts with
  | nil => rfl
  | cons part rest => exact token_part (proper part List.mem_cons_self) rest

theorem cstr_part {part : List Char} (proper : Proper part) (rest : List (List Char)) :
    cstr (part ++ rest.flatMap (NUL :: ·)) = part := by
  have inside : ∀ c ∈ part, decide (c ≠ NUL) = true := by
    intro c member
    exact decide_eq_true fun same => proper.ended (same ▸ member)
  rw [cstr, List.takeWhile_append_of_pos inside]
  cases rest with
  | nil => simp
  | cons next rest => simp

theorem strtokNext_token {part : List Char} {rest : List (List Char)} (proper : Proper part)
    (others : ∀ other ∈ rest, Proper other) :
    strtokNext (tokenOf (part :: rest)) = tokenOf rest := by
  have gone : part.drop (part.length + 1) = [] := List.drop_eq_nil_of_le (by omega)
  rw [tokenOf, strtokNext, cstr_part proper, List.drop_append, gone, Nat.add_sub_cancel_left,
    List.nil_append]
  cases rest with
  | nil => rfl
  | cons next rest => exact token_part (others next List.mem_cons_self) rest

end Strings

section Chain

/-- What a path leads to: a node of the tree, or an entry of a directory on disk. -/
inductive Target where
  | node (p : NodePtr)
  | file (child : Child)
  deriving DecidableEq

/-- The children that a directory has on disk. -/
def diskChildren (vol : Volume) (k : Kernel) (inodeNo : UInt32) : Option (List Child) := do
  let block ← directoryBlock vol k inodeNo
  let dirents ← live block
  return children inodeNo dirents

def diskLookup (vol : Volume) (k : Kernel) (inodeNo : UInt32) (part : List Char) :
    Option Target := do
  let all ← diskChildren vol k inodeNo
  let child ← all.find? fun child => child.name = part
  return .file child

/-- One part of a path. -/
def lookup (vol : Volume) (k : Kernel) : Target → List Char → Option Target
  | .node p, part =>
      if (k.node p).flags &&& DIRECTORY = 0 then none
      else if (k.node p).fs = .ext2fs then diskLookup vol k (k.node p).inode part
      else (childNode k p part).map .node
  | .file child, part => if child.directory then diskLookup vol k child.inode part else none

def resolve (vol : Volume) (k : Kernel) (start : Target) (parts : List (List Char)) :
    Option Target :=
  parts.foldlM (lookup vol k) start

/-- The node a path leads to by directories that no driver enumerates. -/
def treeNode (k : Kernel) (start : NodePtr) (parts : List (List Char)) : Option NodePtr :=
  parts.foldlM (childNode k) start

/-- The node that was returned is the one meant. -/
def Denotes (k : Kernel) (p : NodePtr) : Target → Prop
  | .node q => p = q
  | .file child => childOf (k.node p) = child ∧ (k.node p).fs = .ext2fs

variable {vol : Volume} {k k' : Kernel}

theorem lookup_childNode {p q : NodePtr} {part : List Char} (found : childNode k p part = some q) :
    lookup vol k (.node p) part = some (.node q) := by
  have shape := found
  rw [childNode] at shape
  split at shape
  · cases shape
  · rename_i quiet
    rw [not_or] at quiet
    rw [lookup, if_neg quiet.1, if_neg quiet.2, found, Option.map_some]

theorem resolve_treeNode {start parent : NodePtr} {parts : List (List Char)}
    (found : treeNode k start parts = some parent) :
    resolve vol k (.node start) parts = some (.node parent) := by
  induction parts generalizing start with
  | nil =>
      cases found
      rfl
  | cons part rest ih =>
      rw [treeNode, List.foldlM_cons] at found
      rcases Option.bind_eq_some_iff.mp found with ⟨next, first, later⟩
      rw [resolve, List.foldlM_cons, lookup_childNode first]
      exact ih later

theorem treeNode_congr (root : k'.root = k.root) (pages : k'.pages = k.pages) (start : NodePtr)
    (parts : List (List Char)) : treeNode k' start parts = treeNode k start parts := by
  have same : childNode k' = childNode k := by
    funext p part
    exact childNode_congr root pages p part
  rw [treeNode, treeNode, same]

theorem treeNode_inTree {nodes : Nat → Prop} {start parent : NodePtr} {parts : List (List Char)}
    (proper : ∀ part ∈ parts, Proper part) (tree : Tree k nodes) (inside : InTree k nodes start)
    (found : treeNode k start parts = some parent) : InTree k nodes parent := by
  induction parts generalizing start with
  | nil =>
      cases found
      exact inside
  | cons part rest ih =>
      rw [treeNode, List.foldlM_cons] at found
      rcases Option.bind_eq_some_iff.mp found with ⟨next, first, later⟩
      have named := (proper part List.mem_cons_self).named
      exact ih (fun other member => proper other (List.mem_cons_of_mem _ member))
        (childNode_inTree named tree inside first) later

end Chain

section Navigate

variable {vol : Volume} {k k' : Kernel} {nodes : Nat → Prop} {vnode p : NodePtr} {depth : Nat}
  {part : List Char}

/-- From slot `i` on, `entry` is the first of its name. -/
structure FirstNamed (entries : List Entry) (part : List Char) (i slot : Nat) (entry : Entry) :
    Prop where
  there : entries[slot]? = some entry
  late : i ≤ slot
  name : entry.name = part
  before : ∀ m other, i ≤ m → m < slot → entries[m]? = some other → other.name ≠ part

/-- What it takes to enumerate a directory of `count` entries again and again, up to the entry
in `slot`: each time a page and two for each entry are lost. `table` is the page of the
descriptor table, if there is none yet. -/
def lookNeed (table : Int) (count slot : Nat) : Int × Int :=
  (2, table + slot * (1 + 2 * count) + 5 + 2 * count)

def lookNet (table : Int) (count slot : Nat) : Int × Int :=
  (0, table + (slot + 1) * (1 + 2 * count))

/-- The node found, and what else is left of the enumerations. -/
structure Looked (k : Kernel) (vnode : NodePtr) (entry : Entry) (slot : Nat) (p : NodePtr)
    (k' : Kernel) : Prop where
  place : p = .dirent (k.node vnode).dirents slot
  shown : entry.Shown (k'.pages (k.node vnode).dirents slot)
  token : k'.token = none

theorem enumNeed_some (k : Kernel) {count : Nat} (some_ : count ≠ 0) :
    enumNeed k count = (2, tablePage k + 5 + 2 * count) := if_neg some_

theorem lookNeed_zero (k : Kernel) {count : Nat} (some_ : count ≠ 0) :
    enumNeed k count ⊔ (0 + (0, tablePage k + 1 + 2 * (count : Int))) =
      lookNeed (tablePage k) count 0 := by
  have nonneg := tablePage_nonneg k
  rw [enumNeed_some k some_, zero_add]
  refine Prod.ext ?_ ?_
  · rfl
  · simp only [lookNeed, Prod.snd_sup]
    omega

theorem lookNeed_pages (k : Kernel) (count slot : Nat) :
    ((0, 2) : Int × Int) ≤ lookNeed (tablePage k) count slot + (0, 2) := by
  have nonneg := tablePage_nonneg k
  have positive : (0 : Int) ≤ slot * (1 + 2 * count) := by positivity
  refine ⟨?_, ?_⟩
  · simp only [lookNeed, Prod.fst_add]
    omega
  · simp only [lookNeed, Prod.snd_add]
    omega

theorem lookNet_zero (table : Int) (count : Nat) :
    ((0, table + 1 + 2 * (count : Int)) : Int × Int) + 0 = lookNet table count 0 := by
  rw [add_zero, lookNet]
  refine Prod.ext rfl ?_
  simp only [Nat.cast_zero]
  ring

theorem lookNeed_succ (k : Kernel) {count : Nat} (some_ : count ≠ 0) (slot : Nat) :
    enumNeed k count ⊔ (lookNeed 0 count slot + (0, tablePage k + 1 + 2 * (count : Int))) =
      lookNeed (tablePage k) count (slot + 1) := by
  have nonneg := tablePage_nonneg k
  have rounds : ((slot + 1 : Nat) : Int) * (1 + 2 * count) =
      slot * (1 + 2 * count) + (1 + 2 * count) := by
    push_cast
    ring
  have positive : (0 : Int) ≤ slot * (1 + 2 * count) := by positivity
  rw [enumNeed_some k some_]
  refine Prod.ext ?_ ?_
  · rfl
  · simp only [lookNeed, rounds, Prod.snd_sup, Prod.snd_add]
    omega

theorem lookNet_succ (table : Int) (count slot : Nat) :
    ((0, table + 1 + 2 * (count : Int)) : Int × Int) + lookNet 0 count slot =
      lookNet table count (slot + 1) := by
  refine Prod.ext rfl ?_
  simp only [lookNet, Prod.snd_add]
  push_cast
  ring

theorem listingOf_nil : (listingOf vol k []).entries = [] := rfl

theorem FirstNamed.dirents {dirents : List Dirent} {i slot : Nat} {entry : Entry}
    (first : FirstNamed (listingOf vol k dirents).entries part i slot entry) :
    dirents.length ≠ 0 := by
  intro none
  have there := first.there
  rw [List.length_eq_zero_iff.mp none, listingOf_nil] at there
  cases there

theorem Listing.Admits.slots {size : UInt32 → UInt32} {dirents : List Dirent} {listing : Listing}
    (admits : listing.Admits size dirents) (small : listing.entries.length ≤ DIRENT_SLOTS) :
    (dirents.foldl (Listing.add size) listing).entries.length ≤ DIRENT_SLOTS := by
  induction dirents generalizing listing with
  | nil => exact small
  | cons dirent rest ih =>
      refine ih admits.2 ?_
      have free := admits.1.2.1
      rw [Listing.add]
      split
      · exact small
      · rw [List.length_append, List.length_singleton]
        exact free

theorem FirstNamed.within {dirents : List Dirent} {slot : Nat} {entry : Entry}
    (first : FirstNamed (listingOf vol k dirents).entries part 0 slot entry)
    (enumerable : Enumerable vol k dirents) : slot < 0 + 256 := by
  have inside := (List.getElem?_eq_some_iff.mp first.there).1
  have slots := enumerable.admits.slots (Nat.zero_le _)
  have few : DIRENT_SLOTS = 68 := rfl
  rw [listingOf] at inside
  omega

theorem FirstNamed.next {entries : List Entry} {i slot : Nat} {entry : Entry}
    (first : FirstNamed entries part i slot entry) (other : i ≠ slot) :
    FirstNamed entries part (i + 1) slot entry where
  there := first.there
  late := by
    have := first.late
    omega
  name := first.name
  before m e low high there := first.before m e (by omega) high there

theorem FirstNamed.back {entries : List Entry} {i slot : Nat} {entry : Entry}
    (first : FirstNamed entries part (i + 1) slot entry) (small : i < entries.length)
    (unlike : entries[i].name ≠ part) : FirstNamed entries part i slot entry where
  there := first.there
  late := by
    have := first.late
    omega
  name := first.name
  before m other low high there := by
    by_cases here : m = i
    · subst here
      cases (List.getElem?_eq_getElem small).symm.trans there
      exact unlike
    · exact first.before m other (by omega) high there

theorem directory_marked {flags : UInt32} (directory : flags &&& DIRECTORY ≠ 0) :
    (flags ||| 0x40000000) &&& DIRECTORY ≠ 0 := by
  have same : (flags ||| 0x40000000) &&& DIRECTORY = flags &&& DIRECTORY := by
    have apart : (0x40000000 : UInt32).toBitVec &&& DIRECTORY.toBitVec = 0#32 := rfl
    apply UInt32.eq_of_toBitVec_eq
    rw [UInt32.toBitVec_and, UInt32.toBitVec_or, UInt32.toBitVec_and, BitVec.and_or_distrib_right,
      apart, BitVec.or_zero]
  rw [same]
  exact directory

theorem visited_device {inodeNo : UInt32} {dirents : List Dirent}
    (visits : visited vol k inodeNo = some dirents) : ∃ device, volumeNode k = some device := by
  rcases Option.bind_eq_some_iff.mp visits with ⟨_, loaded, _⟩
  rcases Option.bind_eq_some_iff.mp loaded with ⟨_, _, there⟩
  rcases Option.bind_eq_some_iff.mp there with ⟨device, found, _⟩
  exact ⟨device, found⟩

/-- An ext2 directory after one more look at it. -/
structure Again (vol : Volume) (k : Kernel) (vnode : NodePtr) (dirents : List Dirent)
    (k' : Kernel) (nodes' : Nat → Prop) : Prop where
  tree : Tree k' nodes'
  inside : InTree k' nodes' vnode
  ext2 : (k'.node vnode).fs = .ext2fs
  place : (k'.node vnode).dirents = (k.node vnode).dirents
  visits : visited vol k' (k'.node vnode).inode = some dirents
  enumerable : Enumerable vol k' dirents
  listing : listingOf vol k' dirents = listingOf vol k dirents
  table : tablePage k' = 0

theorem Enumerated.again {dirents : List Dirent}
    (enumerated : Enumerated vol k vnode (listingOf vol k dirents) k') (tree : Tree k nodes)
    (inside : InTree k nodes vnode) (ext2 : (k.node vnode).fs = .ext2fs)
    (visits : visited vol k (k.node vnode).inode = some dirents)
    (enumerable : Enumerable vol k dirents) :
    ∃ nodes', Again vol k vnode dirents k' nodes' := by
  rcases enumerated.still tree inside with ⟨still, alike⟩
  refine ⟨_, enumerated.tree tree inside, still, alike.fs.trans ext2, alike.dirents, ?_,
    enumerable.congr enumerated.disk, listingOf_eq enumerated.disk dirents,
    tablePage_some enumerated.fds⟩
  rw [visited_eq enumerated.disk, alike.inode, visits]

theorem Enumerated.name {listing : Listing} (enumerated : Enumerated vol k vnode listing k')
    {slot : Nat} {entry : Entry} (there : listing.entries[slot]? = some entry) :
    entry.Shown (k'.pages (k.node vnode).dirents slot) := by
  rcases List.getElem?_eq_some_iff.mp there with ⟨small, rfl⟩
  exact enumerated.shown slot small

theorem navigate_directory {enum : NodePtr → Op Unit} (tries i : Nat)
    (directory : (k.node vnode).flags &&& DIRECTORY ≠ 0) :
    navigate enum vnode part (tries + 1) i k = (do
      enum vnode
      let k ← get
      let dirents := (k.node vnode).dirents
      if (k.pages dirents i).name = part then pure (NodePtr.dirent dirents i)
      else if (k.pages dirents i).name = [] then failure
      else navigate enum vnode part tries (i + 1)) k := by
  rw [navigate, get_bind, if_neg directory]

/-- A part of a path in an ext2 directory, which is enumerated for each entry up to it. -/
theorem Tree.navigate_costs {dirents : List Dirent} {entry : Entry} {slot : Nat}
    (depth tries i : Nat) (tree : Tree k nodes) (inside : InTree k nodes vnode)
    (ext2 : (k.node vnode).fs = .ext2fs) (directory : (k.node vnode).flags &&& DIRECTORY ≠ 0)
    (visits : visited vol k (k.node vnode).inode = some dirents)
    (enumerable : Enumerable vol k dirents)
    (first : FirstNamed (listingOf vol k dirents).entries part i slot entry)
    (within : slot < i + tries) :
    Costs room (navigate (enumdir vol (getnode vol (depth + 1))) vnode part tries i) k
      (lookNeed (tablePage k) dirents.length (slot - i))
      (lookNet (tablePage k) dirents.length (slot - i)) (Looked k vnode entry slot) := by
  induction tries generalizing i k nodes with
  | zero =>
      have late := first.late
      omega
  | succ tries ih =>
      rcases visited_device visits with ⟨device, found⟩
      have some_ := first.dirents
      have look := tree.enumdir_costs inside ext2 depth found visits enumerable
      refine Costs.congr ?_ (navigate_directory tries i directory)
      by_cases last : i = slot
      · rw [last, Nat.sub_self]
        refine (Costs.bind 0 0 look ?_).cast (lookNeed_zero k some_) (lookNet_zero _ _)
        intro _ k₁ enumerated _
        rcases enumerated.again tree inside ext2 visits enumerable with ⟨nodes₁, again⟩
        have shown := enumerated.name first.there
        refine Costs.congr (Costs.pure (a := NodePtr.dirent (k.node vnode).dirents slot)
          (room_nonneg k₁) ⟨rfl, shown, enumerated.token⟩) ?_
        rw [get_bind, again.place, if_pos (shown.name.trans first.name)]
      · have late := first.late
        have rest : slot - i = slot - (i + 1) + 1 := by omega
        have small : i < (listingOf vol k dirents).entries.length := by
          have := (List.getElem?_eq_some_iff.mp first.there).1
          omega
        have unlike : (listingOf vol k dirents).entries[i].name ≠ part :=
          first.before i _ le_rfl (by omega) (List.getElem?_eq_getElem small)
        rw [rest]
        refine (Costs.bind (lookNeed 0 dirents.length (slot - (i + 1)))
          (lookNet 0 dirents.length (slot - (i + 1))) look ?_).cast (lookNeed_succ k some_ _)
          (lookNet_succ _ _ _)
        intro _ k₁ enumerated _
        rcases enumerated.again tree inside ext2 visits enumerable with ⟨nodes₁, again⟩
        have name := (enumerated.shown i small).name
        have named := enumerated.named _ (List.getElem_mem small)
        have directory₁ : (k₁.node vnode).flags &&& DIRECTORY ≠ 0 := by
          rw [enumerated.marked]
          exact directory_marked directory
        have costs := ih (i + 1) again.tree again.inside again.ext2 directory₁ again.visits
          again.enumerable (again.listing ▸ first.next last) (by omega)
        rw [again.table] at costs
        refine Costs.congr (costs.mono ?_) ?_
        · intro p k₂ ⟨place, shown, token⟩
          rw [again.place] at place shown
          exact ⟨place, shown, token⟩
        · rw [get_bind, again.place, name, if_neg unlike, if_neg named]

theorem Tree.navigate_ran (named : part ≠ []) (tries i : Nat) (tree : Tree k nodes)
    (inside : InTree k nodes vnode) (ext2 : (k.node vnode).fs = .ext2fs)
    (ran : navigate (enumdir vol (getnode vol (depth + 1))) vnode part tries i k = some (p, k')) :
    (k.node vnode).flags &&& DIRECTORY ≠ 0 ∧
      ∃ dirents slot entry, visited vol k (k.node vnode).inode = some dirents ∧
        Enumerable vol k dirents ∧ slot < i + tries ∧
          FirstNamed (listingOf vol k dirents).entries part i slot entry := by
  induction tries generalizing i k nodes with
  | zero => cases ran
  | succ tries ih =>
      by_cases plain : (k.node vnode).flags &&& DIRECTORY = 0
      · rw [navigate, get_bind, if_pos plain] at ran
        cases ran
      · rw [navigate_directory tries i plain] at ran
        rcases bind_some ran with ⟨_, k₁, looked, steps⟩
        rcases tree.enumdir_ran inside ext2 looked with ⟨listing, enumerated⟩
        rcases enumerated.visits with ⟨dirents, visits, enumerable, rfl⟩
        rcases enumerated.again tree inside ext2 visits enumerable with ⟨nodes₁, again⟩
        refine ⟨plain, dirents, ?_⟩
        rw [get_bind, again.place] at steps
        split at steps
        · rename_i here
          have small := enumerated.end_ (here ▸ named)
          have name := (enumerated.shown i small).name
          refine ⟨i, _, visits, enumerable, by omega, List.getElem?_eq_getElem small, le_rfl,
            name.symm.trans here, ?_⟩
          intro m other low high
          omega
        · rename_i unlike
          split at steps
          · cases steps
          · rename_i unended
            have small := enumerated.end_ unended
            have name := (enumerated.shown i small).name
            rcases ih (i + 1) again.tree again.inside again.ext2 steps with
              ⟨_, dirents', slot, entry, visits', _, within, first⟩
            cases again.visits.symm.trans visits'
            rw [again.listing] at first
            exact ⟨slot, entry, visits, enumerable, by omega, first.back small
              (fun same => unlike (name.trans same))⟩

/-- Nothing is left in `strtok` after a look at an ext2 directory. -/
theorem Tree.navigate_token (named : part ≠ []) (tree : Tree k nodes) (inside : InTree k nodes vnode)
    (ext2 : (k.node vnode).fs = .ext2fs)
    (ran : navigate (enumdir vol (getnode vol (depth + 1))) vnode part 256 0 k = some (p, k')) :
    k'.token = none := by
  rcases tree.navigate_ran named 256 0 inside ext2 ran with
    ⟨directory, dirents, slot, entry, visits, enumerable, within, first⟩
  rcases (tree.navigate_costs depth 256 0 inside ext2 directory visits enumerable first
    within).of_some ran with ⟨_, _, looked⟩
  exact looked.token

end Navigate

section Descend

variable {vol : Volume} {k k' : Kernel} {nodes : Nat → Prop} {start parent p : NodePtr}
  {depth : Nat} {path currentpath part : List Char}

theorem pathOf_cons (part : List Char) (rest : List (List Char)) :
    pathOf (part :: rest) = '/' :: part ++ pathOf rest := List.flatMap_cons

theorem pathOf_length (parts : List (List Char)) : parts.length ≤ (pathOf parts).length := by
  induction parts with
  | nil => exact le_rfl
  | cons part rest ih =>
      rw [pathOf_cons, List.length_append, List.length_cons, List.length_cons]
      omega

theorem pathOf_unended {rest : List (List Char)}
    (onward : currentpath ++ pathOf (part :: rest) = path) : currentpath ≠ path := by
  intro same
  rw [same, pathOf_cons] at onward
  cases List.append_right_eq_self.mp onward

theorem pathOf_onward {rest : List (List Char)}
    (onward : currentpath ++ pathOf (part :: rest) = path) :
    currentpath ++ ['/'] ++ part ++ pathOf rest = path := by
  rw [← onward, pathOf_cons]
  simp

theorem tokenOf_part {rest : List (List Char)} (proper : Proper part) :
    (tokenOf (part :: rest)).map cstr = some part := by
  rw [tokenOf, Option.map_some, cstr_part proper]

theorem descend_tree {getnode : List Char → Op NodePtr} {front rest : List (List Char)}
    (rounds : Nat) (proper : ∀ part ∈ front ++ rest, Proper part)
    (found : treeNode k start front = some parent) (token : k.token = tokenOf (front ++ rest))
    (onward : currentpath ++ pathOf (front ++ rest) = path) :
    descend (enumdir vol getnode) path (rounds + front.length) currentpath (k.token.map cstr) start k =
      descend (enumdir vol getnode) path rounds (currentpath ++ pathOf front)
        ((tokenOf rest).map cstr) parent { k with token := tokenOf rest } := by
  induction front generalizing start currentpath k with
  | nil =>
      cases found
      rw [List.nil_append] at token
      rw [← token]
      simp [pathOf]
  | cons part front ih =>
      rw [treeNode, List.foldlM_cons] at found
      rcases Option.bind_eq_some_iff.mp found with ⟨next, first, later⟩
      rw [List.cons_append] at token onward proper
      have here := proper part List.mem_cons_self
      have others (other : List Char) (member : other ∈ front ++ rest) : Proper other :=
        proper other (List.mem_cons_of_mem _ member)
      have ran : navigate (enumdir vol getnode) start part 256 0 k = some (next, k) := by
        rw [navigate_childNode (childNode_quiet first), first]
        rfl
      have moved : strtokNext k.token = tokenOf (front ++ rest) := by
        rw [token, strtokNext_token here others]
      rw [List.length_cons, ← Nat.add_assoc, token, tokenOf_part here,
        descend_step _ _ (pathOf_unended onward), bind_run ran, modify_bind, get_bind, moved]
      have onward' := pathOf_onward onward
      generalize after : ({ k with token := tokenOf (front ++ rest) } : Kernel) = k₁
      have token₁ : k₁.token = tokenOf (front ++ rest) := by rw [← after]
      have later₁ : treeNode k₁ next front = some parent := by
        rw [← later, ← after]
        exact treeNode_congr rfl rfl next front
      rw [ih others later₁ token₁ onward', ← after, pathOf_cons]
      simp

theorem descend_lost {enum : NodePtr → Op Unit} (unended : currentpath ≠ path) (rounds : Nat)
    (node : NodePtr) (k : Kernel) : descend enum path rounds currentpath none node k = none := by
  cases rounds with
  | zero => rfl
  | succ rounds =>
      rw [descend, if_neg unended]
      rfl

theorem Tree.retoken (tree : Tree k nodes) (token : Option (List Char)) :
    Tree { k with token := token } nodes := tree.congr rfl rfl tree.used

/-- A path that was followed to its end came by no ext2 directory before its last part. -/
theorem Tree.descend_ran {front : List (List Char)} {last : List Char} (rounds : Nat)
    (proper : ∀ part ∈ front ++ [last], Proper part) (tree : Tree k nodes)
    (inside : InTree k nodes start) (token : k.token = tokenOf (front ++ [last]))
    (onward : currentpath ++ pathOf (front ++ [last]) = path)
    (ran : descend (enumdir vol (getnode vol (depth + 1))) path rounds currentpath
      (k.token.map cstr) start k = some (p, k')) :
    ∃ parent, treeNode k start front = some parent := by
  induction front generalizing start currentpath k rounds with
  | nil => exact ⟨start, rfl⟩
  | cons part front ih =>
      cases rounds with
      | zero => cases ran
      | succ rounds =>
          rw [List.cons_append] at token onward proper
          have here := proper part List.mem_cons_self
          have others (other : List Char) (member : other ∈ front ++ [last]) : Proper other :=
            proper other (List.mem_cons_of_mem _ member)
          rw [token, tokenOf_part here, descend_step _ _ (pathOf_unended onward)] at ran
          rcases bind_some ran with ⟨next, k₁, found, steps⟩
          rw [modify_bind, get_bind] at steps
          have onward' := pathOf_onward onward
          by_cases ext2 : (k.node start).fs = .ext2fs
          · rw [tree.navigate_token here.named inside ext2 found] at steps
            cases rest : front ++ [last] with
            | nil => simp at rest
            | cons next rest' =>
                rw [rest] at onward'
                have lost := pathOf_unended onward'
                exact absurd (steps.symm.trans (descend_lost lost _ _ _)) (by simp)
          · rw [navigate_childNode ext2] at found
            rcases Option.map_eq_some_iff.mp found with ⟨_, first, same⟩
            cases same
            have moved : strtokNext k.token = tokenOf (front ++ [last]) := by
              rw [token, strtokNext_token here others]
            rw [moved] at steps
            have tree₁ := tree.retoken (tokenOf (front ++ [last]))
            have inside₁ := (InTree.congr rfl).mpr (childNode_inTree here.named tree inside first)
            rcases ih rounds others tree₁ inside₁ rfl onward' steps with ⟨parent, later⟩
            refine ⟨parent, ?_⟩
            rw [treeNode, List.foldlM_cons, first]
            exact later

theorem descend_last {enum : NodePtr → Op Unit} (rounds : Nat)
    (onward : currentpath ++ pathOf [part] = path) (parent : NodePtr) (k : Kernel) :
    descend enum path (rounds + 2) currentpath (some part) parent k =
      (navigate enum parent part 256 0 k).map fun (node, k') =>
        (node, { k' with token := strtokNext k'.token }) := by
  have ended : currentpath ++ ['/'] ++ part = path := by
    have rest := pathOf_onward onward
    rw [pathOf, List.flatMap_nil, List.append_nil] at rest
    exact rest
  rw [descend_step _ _ (pathOf_unended onward)]
  cases ran : navigate enum parent part 256 0 k with
  | none =>
      rw [bind_none ran]
      rfl
  | some result =>
      rw [bind_run ran, modify_bind, get_bind, descend_done ended]
      rfl

end Descend

section Paths

variable {vol : Volume} {k k' : Kernel} {nodes : Nat → Prop} {parent p : NodePtr} {depth : Nat}
  {front : List (List Char)} {last : List Char} {target : Target}

/-- The nodes, as far as a result of `getnode` has to do with them. -/
def nodesOf (result : NodePtr × Kernel) : NodePtr × Vnode × (Nat → Nat → Vnode) :=
  (result.1, result.2.root, result.2.pages)

theorem Denotes.same {first second : NodePtr × Kernel} (same : nodesOf second = nodesOf first)
    (denotes : Denotes first.2 first.1 target) : Denotes second.2 second.1 target := by
  have node : second.1 = first.1 := congrArg (fun seen => seen.1) same
  have root : second.2.root = first.2.root := congrArg (fun seen => seen.2.1) same
  have pages : second.2.pages = first.2.pages := congrArg (fun seen => seen.2.2) same
  rw [node]
  cases target with
  | node q => exact denotes
  | file child =>
      rw [Denotes, Kernel.node_congr root pages]
      exact denotes

theorem Entered.treeNode {path : List Char} {currentpath pathpart : Nat} {k₁ : Kernel}
    (entered : Entered k path currentpath pathpart k₁) (start : NodePtr) (parts : List (List Char)) :
    treeNode k₁ start parts = treeNode k start parts :=
  treeNode_congr entered.root entered.pages start parts

/-- The kernel when `getnode` comes to the last directory of a path. -/
structure AtLast (k : Kernel) (nodes : Nat → Prop) (parent : NodePtr) (k₁ : Kernel) : Prop
    extends Quiet k k₁ where
  fds : k₁.fds = k.fds
  left : room k₁ = room k - (0, 2)
  tree : Tree k₁ nodes
  inside : InTree k₁ nodes parent

theorem Entered.tree {path : List Char} {currentpath pathpart : Nat} {k₁ : Kernel}
    (entered : Entered k path currentpath pathpart k₁) (tree : Tree k nodes) : Tree k₁ nodes :=
  tree.congr entered.root entered.pages fun q member => entered.heap q (tree.used q member)

theorem descend_parent (vol : Volume) (getnode : List Char → Op NodePtr)
    (proper : ∀ part ∈ front ++ [last], Proper part)
    (found : treeNode k .root front = some parent) (token : k.token = tokenOf (front ++ [last])) :
    ∃ rounds, descend (enumdir vol getnode) (pathOf (front ++ [last]))
      ((pathOf (front ++ [last])).length + 1) [] (k.token.map cstr) .root k =
        descend (enumdir vol getnode) (pathOf (front ++ [last])) (rounds + 2) (pathOf front)
          (some last) parent { k with token := tokenOf [last] } := by
  have start : [] ++ pathOf (front ++ [last]) = pathOf (front ++ [last]) := rfl
  have lastProper := proper last (List.mem_append_right _ List.mem_cons_self)
  have long := pathOf_length (front ++ [last])
  rw [List.length_append, List.length_singleton] at long
  have rounds : (pathOf (front ++ [last])).length + 1 =
      (pathOf (front ++ [last])).length - (front.length + 1) + 2 + front.length := by
    omega
  refine ⟨(pathOf (front ++ [last])).length - (front.length + 1), ?_⟩
  rw [rounds, descend_tree _ proper found token start, tokenOf_part lastProper, List.nil_append]

/-- Up to its last part, a path by directories that no driver enumerates is only walked. -/
theorem Tree.getnode_parent (vol : Volume) (depth : Nat) (tree : Tree k nodes)
    (short : (pathOf (front ++ [last])).length < 4096)
    (enough : ((0, 2) : Int × Int) ≤ room k) (proper : ∀ part ∈ front ++ [last], Proper part)
    (found : treeNode k .root front = some parent) :
    ∃ k₁, AtLast k nodes parent k₁ ∧
      (getnode vol (depth + 1) (pathOf (front ++ [last])) k).map nodesOf =
        (navigate (enumdir vol (getnode vol depth)) parent last 256 0 k₁).map nodesOf := by
  rcases getnode_entered vol depth short enough with
    ⟨currentpath, pathpart, k₁, entered, same⟩
  have found₁ := (entered.treeNode .root front).trans found
  have token : k₁.token = tokenOf (front ++ [last]) := by
    rw [entered.token, strtok_path proper]
  have whole : pathOf front ++ pathOf [last] = pathOf (front ++ [last]) :=
    List.flatMap_append.symm
  rcases descend_parent vol (getnode vol depth) proper found₁ token with
    ⟨rounds, walked⟩
  have rootInside : InTree k₁ nodes .root := trivial
  have inside := treeNode_inTree (fun part member => proper part (List.mem_append_left _ member))
    (entered.tree tree) rootInside found₁
  refine ⟨{ k₁ with token := tokenOf [last] }, ⟨⟨entered.root, entered.pages, entered.heap⟩,
    entered.fds, entered.left, (entered.tree tree).congr rfl rfl (entered.tree tree).used,
    (InTree.congr rfl).mpr inside⟩, ?_⟩
  rw [same, walked, descend_last _ whole, Option.map_map, Option.map_map]
  rfl

/-- What the last part asks of its directory. -/
def InReach (vol : Volume) (k : Kernel) (parent : NodePtr) (last : List Char) (target : Target) :
    Prop :=
  if (k.node parent).fs = .ext2fs then
    ∃ dirents slot entry, visited vol k (k.node parent).inode = some dirents ∧
      Enumerable vol k dirents ∧
        FirstNamed (listingOf vol k dirents).entries last 0 slot entry ∧
          .file entry.child = target ∧
            lookNeed (tablePage k) dirents.length slot + (0, 2) ≤ room k
  else 2 ≤ freePages k

/-- The path fits in a page, comes by no ext2 directory before its last part, and the driver, if
the last directory has one, comes to the right entry and has what it needs. -/
structure Resolvable (vol : Volume) (k : Kernel) (front : List (List Char)) (last : List Char)
    (target : Target) : Prop where
  short : (pathOf (front ++ [last])).length < 4096
  reach : ∃ parent, treeNode k .root front = some parent ∧ InReach vol k parent last target

theorem resolve_last (found : treeNode k .root front = some parent)
    (chain : resolve vol k (.node .root) (front ++ [last]) = some target) :
    lookup vol k (.node parent) last = some target := by
  have upTo : resolve vol k (.node .root) front = some (.node parent) := resolve_treeNode found
  rw [resolve] at upTo
  rw [resolve, List.foldlM_append, upTo] at chain
  simpa using chain

theorem lookup_quiet (quiet : (k.node parent).fs ≠ .ext2fs)
    (found : lookup vol k (.node parent) last = some target) :
    ∃ node, childNode k parent last = some node ∧ target = .node node := by
  rw [lookup, if_neg quiet] at found
  split at found
  · cases found
  · rcases Option.map_eq_some_iff.mp found with ⟨node, first, same⟩
    exact ⟨node, first, same.symm⟩

theorem lookup_ext2 (ext2 : (k.node parent).fs = .ext2fs)
    (found : lookup vol k (.node parent) last = some target) :
    (k.node parent).flags &&& DIRECTORY ≠ 0 ∧ ∃ child, target = .file child := by
  rw [lookup, if_pos ext2] at found
  split at found
  · cases found
  · rename_i directory
    rcases Option.bind_eq_some_iff.mp found with ⟨_, _, rest⟩
    rcases Option.bind_eq_some_iff.mp rest with ⟨child, _, same⟩
    cases same
    exact ⟨directory, child, rfl⟩

theorem Looked.child {entry : Entry} {slot : Nat} (looked : Looked k parent entry slot p k') :
    childOf (k'.node p) = entry.child ∧ (k'.node p).fs = .ext2fs := by
  rw [looked.place]
  change childOf (k'.pages _ slot) = _ ∧ (k'.pages _ slot).fs = _
  rw [childOf, Entry.child, looked.shown.name, looked.shown.inode, looked.shown.flags]
  exact ⟨rfl, looked.shown.fs⟩

theorem AtLast.reach {k₁ : Kernel} {dirents : List Dirent} {slot : Nat} {entry : Entry}
    (atLast : AtLast k nodes parent k₁) :
    (visited vol k₁ (k₁.node parent).inode = some dirents ∧ Enumerable vol k₁ dirents ∧
      FirstNamed (listingOf vol k₁ dirents).entries last 0 slot entry ∧
        lookNeed (tablePage k₁) dirents.length slot ≤ room k₁) ↔
      visited vol k (k.node parent).inode = some dirents ∧ Enumerable vol k dirents ∧
        FirstNamed (listingOf vol k dirents).entries last 0 slot entry ∧
          lookNeed (tablePage k) dirents.length slot + (0, 2) ≤ room k := by
  have disk (sector : UInt32) : blockAt vol k₁ sector = blockAt vol k sector :=
    blockAt_congr atLast.root atLast.pages sector
  have table : tablePage k₁ = tablePage k := by rw [tablePage, tablePage, atLast.fds]
  have enumerable : Enumerable vol k₁ dirents ↔ Enumerable vol k dirents :=
    ⟨fun holds => holds.congr fun sector => (disk sector).symm, fun holds => holds.congr disk⟩
  rw [visited_eq disk, Kernel.node_congr atLast.root atLast.pages, listingOf_eq disk, table,
    atLast.left, le_sub_iff_add_le, enumerable]

theorem AtLast.node {k₁ : Kernel} (atLast : AtLast k nodes parent k₁) :
    k₁.node parent = k.node parent := Kernel.node_congr atLast.root atLast.pages parent

/-- A path that was resolved came by no ext2 directory before its last part. -/
theorem Tree.getnode_treeNode (tree : Tree k nodes)
    (proper : ∀ part ∈ front ++ [last], Proper part)
    (ran : getnode vol (depth + 2) (pathOf (front ++ [last])) k = some (p, k')) :
    ∃ parent, treeNode k .root front = some parent := by
  rcases getnode_ran ran with ⟨short, enough⟩
  rcases getnode_entered vol (depth + 1) short enough with
    ⟨currentpath, pathpart, k₁, entered, same⟩
  rw [same] at ran
  rcases Option.map_eq_some_iff.mp ran with ⟨⟨node, k₂⟩, walked, _⟩
  have token := entered.token.trans (strtok_path proper)
  have rootInside : InTree k₁ nodes .root := trivial
  have start : [] ++ pathOf (front ++ [last]) = pathOf (front ++ [last]) := rfl
  rcases (entered.tree tree).descend_ran _ proper rootInside token start walked with
    ⟨parent, found⟩
  exact ⟨parent, (entered.treeNode .root front).symm.trans found⟩

theorem Tree.getnode_resolvable (tree : Tree k nodes)
    (proper : ∀ part ∈ front ++ [last], Proper part)
    (chain : resolve vol k (.node .root) (front ++ [last]) = some target)
    (ran : getnode vol (depth + 2) (pathOf (front ++ [last])) k = some (p, k'))
    (denotes : Denotes k' p target) : Resolvable vol k front last target := by
  rcases getnode_ran ran with ⟨short, enough⟩
  rcases tree.getnode_treeNode proper ran with ⟨parent, found⟩
  refine ⟨short, parent, found, ?_⟩
  rw [InReach]
  split
  · rename_i ext2
    have named := (proper last (List.mem_append_right _ List.mem_cons_self)).named
    rcases tree.getnode_parent vol (depth + 1) short enough proper found with
      ⟨k₁, atLast, same⟩
    rw [ran] at same
    rcases Option.map_eq_some_iff.mp same.symm with ⟨result, navigated, seen⟩
    rw [← atLast.node] at ext2
    rcases atLast.tree.navigate_ran named 256 0 atLast.inside ext2 navigated with
      ⟨directory, dirents, slot, entry, visits, enumerable, within, first⟩
    rcases (atLast.tree.navigate_costs depth 256 0 atLast.inside ext2 directory visits enumerable first
      within).of_some navigated with ⟨need, _, looked⟩
    rcases atLast.reach.mp ⟨visits, enumerable, first, need⟩ with
      ⟨visits, enumerable, first, need⟩
    refine ⟨dirents, slot, entry, visits, enumerable, first, ?_, need⟩
    rw [atLast.node] at ext2
    rcases (lookup_ext2 ext2 (resolve_last found chain)).2 with ⟨child, rfl⟩
    rw [← looked.child.1, (denotes.same seen).1]
  · rw [le_room] at enough
    omega

theorem Resolvable.getnode_ran (resolvable : Resolvable vol k front last target)
    (tree : Tree k nodes) (proper : ∀ part ∈ front ++ [last], Proper part)
    (chain : resolve vol k (.node .root) (front ++ [last]) = some target) (depth : Nat) :
    ∃ p k', getnode vol (depth + 2) (pathOf (front ++ [last])) k = some (p, k') ∧
      Denotes k' p target := by
  rcases resolvable.reach with ⟨parent, found, reach⟩
  have lookup := resolve_last found chain
  have finish {k₁ : Kernel} {result : NodePtr × Kernel}
      (same : (getnode vol (depth + 2) (pathOf (front ++ [last])) k).map nodesOf =
        (navigate (enumdir vol (getnode vol (depth + 1))) parent last 256 0 k₁).map nodesOf)
      (ran : navigate (enumdir vol (getnode vol (depth + 1))) parent last 256 0 k₁ = some result)
      (denotes : Denotes result.2 result.1 target) :
      ∃ p k', getnode vol (depth + 2) (pathOf (front ++ [last])) k = some (p, k') ∧
        Denotes k' p target := by
    rw [ran] at same
    rcases Option.map_eq_some_iff.mp same with ⟨⟨p, k'⟩, returned, seen⟩
    exact ⟨p, k', returned, denotes.same seen⟩
  rw [InReach] at reach
  split at reach
  · rename_i ext2
    rcases reach with ⟨dirents, slot, entry, visits, enumerable, first, right, need⟩
    have enough : ((0, 2) : Int × Int) ≤ room k := (lookNeed_pages k _ _).trans need
    rcases tree.getnode_parent vol (depth + 1) resolvable.short enough proper
      found with ⟨k₁, atLast, same⟩
    rcases lookup_ext2 ext2 lookup with ⟨directory, _⟩
    rcases atLast.reach.mpr ⟨visits, enumerable, first, need⟩ with
      ⟨visits, enumerable, first, need⟩
    rw [← atLast.node] at ext2 directory
    rcases (atLast.tree.navigate_costs depth 256 0 atLast.inside ext2 directory visits enumerable
      first (first.within enumerable)).enough need with ⟨p, k₂, ran, _, looked⟩
    rw [← right] at finish ⊢
    exact finish same ran looked.child
  · rename_i quiet
    have enough : ((0, 2) : Int × Int) ≤ room k := by
      rw [le_room]
      omega
    rcases tree.getnode_parent vol (depth + 1) resolvable.short enough proper
      found with ⟨k₁, atLast, same⟩
    rcases lookup_quiet quiet lookup with ⟨node, there, rfl⟩
    rw [← atLast.node] at quiet
    rw [← childNode_congr atLast.root atLast.pages] at there
    have ran : navigate (enumdir vol (getnode vol (depth + 1))) parent last 256 0 k₁ =
        some (node, k₁) := by
      rw [navigate_childNode quiet, there]
      rfl
    exact finish same ran rfl

/-- For every tree of nodes and every path whose parts name a chain of nodes, some of them perhaps
entries of directories on disk, `getnode` returns the node the chain leads to if and only if the
path is shorter than a page, no ext2 directory comes before its last part, and the last directory,
if it is an ext2 directory, can be enumerated up to the right entry with what is left of the
descriptors and of the heap. -/
theorem getnode_resolves_iff (vol : Volume) (k : Kernel) (nodes : Nat → Prop)
    (front : List (List Char)) (last : List Char) (target : Target) (depth : Nat)
    (tree : Tree k nodes) (proper : ∀ part ∈ front ++ [last], Proper part)
    (chain : resolve vol k (.node .root) (front ++ [last]) = some target) :
    (∃ p k', getnode vol (depth + 2) (pathOf (front ++ [last])) k = some (p, k') ∧
        Denotes k' p target) ↔
      Resolvable vol k front last target := by
  constructor
  · intro ⟨p, k', ran, denotes⟩
    exact tree.getnode_resolvable proper chain ran denotes
  · intro resolvable
    exact resolvable.getnode_ran tree proper chain depth

end Paths

/-- The directories on disk that the tree leads to. -/
inductive OnDisk (vol : Volume) (k : Kernel) (nodes : Nat → Prop) : UInt32 → Prop where
  | mount {p : NodePtr} (inside : InTree k nodes p) (ext2 : (k.node p).fs = .ext2fs)
      (directory : (k.node p).flags &&& DIRECTORY ≠ 0) : OnDisk vol k nodes (k.node p).inode
  | entry {own : UInt32} {all : List Child} {child : Child} (above : OnDisk vol k nodes own)
      (listed : diskChildren vol k own = some all) (member : child ∈ all)
      (directory : child.directory = true) : OnDisk vol k nodes child.inode

def WellFormedDisk (vol : Volume) (k : Kernel) (nodes : Nat → Prop) : Prop :=
  ∀ inodeNo, OnDisk vol k nodes inodeNo →
    ∃ block dirents, directoryBlock vol k inodeNo = some block ∧ WellFormed vol k block dirents

/-- The block of a directory with one file or directory in it. -/
def singleBlock (own parent child type name : UInt8) : Buffer := fun i =>
  [(0, own), (4, 12), (6, 1), (7, 2), (8, 46), (12, parent), (16, 12), (18, 2), (19, 2), (20, 46),
    (21, 46), (24, child), (28, 232), (29, 15), (30, 1), (31, type), (32, name)].lookup i
    |>.getD (0 : UInt8)

/-- A volume with the directory "d" in its root directory, and the file "f" in it. -/
def nestedVolume : Volume where
  groupInodeCount := 32
  inodeSize := 128
  inodeTable _ := 4
  part := 2048
  disk lba :=
    if lba = 2080 then fun i => if i = 168 then 10 else if i = 1448 then 11 else 0
    else if lba = 2128 then singleBlock 2 2 12 2 100
    else if lba = 2136 then singleBlock 12 2 13 1 102
    else fun _ => 0
  groups := inode_groups
  sized := small_inodes

theorem nestedVolume_top :
    WellFormed nestedVolume mounted (singleBlock 2 2 12 2 100)
      [⟨2, 2, ['.']⟩, ⟨2, 2, ['.', '.']⟩, ⟨12, 2, ['d']⟩] where
  linked := by decide
  count := by decide
  named := by decide
  unique := by decide
  inodes dirent member := by
    have readable : ∀ dirent ∈ [⟨2, 2, ['.']⟩, ⟨2, 2, ['.', '.']⟩, (⟨12, 2, ['d']⟩ : Dirent)],
        (inodeAt nestedVolume mounted dirent.inode).isSome := by decide
    exact Option.isSome_iff_exists.mp (readable dirent member)

theorem nestedVolume_inner :
    WellFormed nestedVolume mounted (singleBlock 12 2 13 1 102)
      [⟨12, 2, ['.']⟩, ⟨2, 2, ['.', '.']⟩, ⟨13, 1, ['f']⟩] where
  linked := by decide
  count := by decide
  named := by decide
  unique := by decide
  inodes dirent member := by
    have readable : ∀ dirent ∈ [⟨12, 2, ['.']⟩, ⟨2, 2, ['.', '.']⟩, (⟨13, 1, ['f']⟩ : Dirent)],
        (inodeAt nestedVolume mounted dirent.inode).isSome := by decide
    exact Option.isSome_iff_exists.mp (readable dirent member)

theorem nestedVolume_onDisk {inodeNo : UInt32} (onDisk : OnDisk nestedVolume mounted (· < 4) inodeNo) :
    inodeNo = 2 ∨ inodeNo = 12 := by
  induction onDisk with
  | @mount p inside ext2 directory =>
      cases p with
      | root => cases ext2
      | dirent q j =>
          rcases mounted_visible inside.1 inside.2 with ⟨rfl, rfl⟩ | ⟨rfl, rfl⟩ | ⟨rfl, rfl⟩
          · cases ext2
          · exact .inl rfl
          · cases ext2
  | @entry own all child above listed member directory ih =>
      have top : diskChildren nestedVolume mounted 2 = some [⟨['d'], 12, true⟩] := by decide
      have inner : diskChildren nestedVolume mounted 12 =
          some [⟨['.', '.'], 2, true⟩, ⟨['f'], 13, false⟩] := by decide
      rcases ih with rfl | rfl
      · cases top.symm.trans listed
        rw [List.mem_singleton.mp member]
        exact .inr rfl
      · cases inner.symm.trans listed
        rcases List.mem_cons.mp member with rfl | member
        · exact .inl rfl
        · rw [List.mem_singleton.mp member] at directory
          cases directory

theorem nestedVolume_wellFormed : WellFormedDisk nestedVolume mounted (· < 4) := by
  intro inodeNo onDisk
  rcases nestedVolume_onDisk onDisk with rfl | rfl
  · exact ⟨_, _, rfl, nestedVolume_top⟩
  · exact ⟨_, _, rfl, nestedVolume_inner⟩

theorem nested_directory_found :
    ∃ p k', getnode nestedVolume 2 (pathOf ([['m', 'n', 't']] ++ [['d']])) mounted = some (p, k') ∧
      Denotes k' p (.file ⟨['d'], 12, true⟩) := by
  have chain : resolve nestedVolume mounted (.node .root) ([['m', 'n', 't']] ++ [['d']]) =
      some (.file ⟨['d'], 12, true⟩) := by
    decide
  refine (getnode_resolves_iff nestedVolume mounted (· < 4) [['m', 'n', 't']] ['d'] _ 0
    mounted_boot.tree (by decide) chain).mpr ⟨by decide, .dirent 0 1, by decide, ?_⟩
  have visits : visited nestedVolume mounted 2 = some [⟨12, 2, ['d']⟩] := by decide
  have readable : ∀ dirent ∈ [(⟨12, 2, ['d']⟩ : Dirent)],
      (inodeAt nestedVolume mounted dirent.inode).isSome := by decide
  have enumerable : Enumerable nestedVolume mounted [⟨12, 2, ['d']⟩] := by
    refine ⟨⟨⟨by decide, by decide, fun _ member => nomatch member⟩, trivial⟩, ?_⟩
    intro dirent member
    exact Option.isSome_iff_exists.mp (readable dirent member)
  have first : FirstNamed (listingOf nestedVolume mounted [⟨12, 2, ['d']⟩]).entries ['d'] 0 0
      ⟨['d'], 12, DIRECTORY, 0⟩ :=
    ⟨by decide, le_rfl, rfl, fun m _ _ high => absurd high (Nat.not_lt_zero m)⟩
  refine (if_pos rfl).mpr ⟨_, 0, _, visits, enumerable, first, by decide, ?_⟩
  have free : freePages mounted = 1020 := freeSlots_from HEAP_PAGES 4
  change ((2, 10) : Int × Int) ≤ room mounted
  rw [le_room, free]
  decide

theorem nested_file_lost :
    ¬ ∀ (vol : Volume) (k : Kernel) (nodes : Nat → Prop) (front : List (List Char))
      (last : List Char) (target : Target), Tree k nodes → WellFormedDisk vol k nodes →
        (∀ part ∈ front ++ [last], Proper part) →
        resolve vol k (.node .root) (front ++ [last]) = some target →
          ∃ depth p k', getnode vol (depth + 2) (pathOf (front ++ [last])) k = some (p, k') ∧
            Denotes k' p target := by
  intro resolves
  have proper : ∀ part ∈ [['m', 'n', 't'], ['d']] ++ [['f']], Proper part := by decide
  have chain : resolve nestedVolume mounted (.node .root) ([['m', 'n', 't'], ['d']] ++ [['f']]) =
      some (.file ⟨['f'], 13, false⟩) := by
    decide
  rcases resolves nestedVolume mounted (· < 4) [['m', 'n', 't'], ['d']] ['f'] _ mounted_boot.tree
    nestedVolume_wellFormed proper chain with ⟨depth, p, k', ran, _⟩
  rcases mounted_boot.tree.getnode_treeNode proper ran with ⟨parent, found⟩
  have stuck : treeNode mounted .root [['m', 'n', 't'], ['d']] = none := by decide
  cases stuck.symm.trans found

end TitorOS.Barrel.Vfs
