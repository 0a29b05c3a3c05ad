import TitorOS.Barrel.Volume

/-! `ext2_enum`: the nodes it makes of the entries its walk through a directory block comes to. -/

namespace TitorOS.Barrel.Vfs

open TitorOS.Lib

/-- What a directory shows of an entry. -/
structure Entry where
  name : List Char
  inode : UInt32
  flags : UInt32
  size : UInt32
  deriving DecidableEq

structure Entry.Shown (entry : Entry) (node : Vnode) : Prop where
  name : node.name = entry.name
  inode : node.inode = entry.inode
  flags : node.flags = entry.flags
  size : node.size = entry.size
  fs : node.fs = .ext2fs

/-- The entries shown so far. `flags` are left behind in the first free slot by an entry without
a name, which the next entry takes over. -/
structure Listing where
  entries : List Entry
  flags : UInt32
  deriving DecidableEq

def Listing.empty : Listing := ⟨[], 0⟩

def Listing.add (size : UInt32 → UInt32) (listing : Listing) (dirent : Dirent) : Listing :=
  if cstr dirent.name = [] then ⟨listing.entries, dirent.flags listing.flags⟩
  else
    ⟨listing.entries ++
      [⟨cstr dirent.name, dirent.inode, dirent.flags listing.flags, size dirent.inode⟩], 0⟩

/-- Where `new_vnode` does not panic or leave the page. -/
def Listing.Fits (listing : Listing) (dirent : Dirent) : Prop :=
  (cstr dirent.name).length < 32 ∧ listing.entries.length < DIRENT_SLOTS ∧
    ∀ entry ∈ listing.entries, entry.name ≠ cstr dirent.name

def inodeAt (vol : Volume) (k : Kernel) (inodeNo : UInt32) : Option Inode :=
  (blockAt vol k (inodeSector vol inodeNo)).map (inodeIn vol inodeNo)

def sizeAt (vol : Volume) (k : Kernel) (inodeNo : UInt32) : UInt32 :=
  ((inodeAt vol k inodeNo).map Inode.sizeLo).getD 0

/-- Since `k₀` no page in use has changed but one, and no open descriptor. -/
structure Apart (k₀ : Kernel) (page : Nat) (k : Kernel) : Prop where
  root : k.root = k₀.root
  others : ∀ q, q ≠ page → k₀.heap q = true → k.pages q = k₀.pages q
  heap : ∀ q, k₀.heap q = true → k.heap q = true
  token : k.token = none
  fds : k.fds = some k.table
  closed : ∀ i, (k₀.table i).mode = 0 → (k.table i).mode = 0
  kept : ∀ i, (k₀.table i).mode ≠ 0 → k.table i = k₀.table i

/-- The page of dirents is filled with a listing, since `k₀`. -/
structure Listed (k₀ : Kernel) (page : Nat) (listing : Listing) (k : Kernel) : Prop
    extends Apart k₀ page k where
  shown : ∀ j (small : j < listing.entries.length), listing.entries[j].Shown (k.pages page j)
  named : ∀ entry ∈ listing.entries, entry.name ≠ []
  ended : ∀ j, listing.entries.length ≤ j → (k.pages page j).name = []
  dirty : (k.pages page listing.entries.length).flags = listing.flags
  clean : ∀ j, listing.entries.length < j → (k.pages page j).flags = 0
  fresh : ∀ j < listing.entries.length, k₀.heap (k.pages page j).dirents = false ∧
    k.heap (k.pages page j).dirents = true ∧ (k.pages (k.pages page j).dirents 0).name = []
  distinct : ∀ i < listing.entries.length, ∀ j < listing.entries.length,
    (k.pages page i).dirents = (k.pages page j).dirents → i = j

/-- The directory and the device's node are out of the way of the page that is filled. -/
structure Aside (k : Kernel) (page : Nat) (vnode device : NodePtr) : Prop where
  found : volumeNode k = some device
  rootPage : k.root.dirents ≠ page ∧ k.heap k.root.dirents = true
  devPage : ∀ dev, childNode k .root "dev".toList = some dev →
    (k.node dev).dirents ≠ page ∧ k.heap (k.node dev).dirents = true
  own : ∀ q slot, vnode = .dirent q slot → q ≠ page ∧ k.heap q = true
  taken : k.heap page = true
  dirents : (k.node vnode).dirents = page

section Transfer

variable {vol : Volume} {k₀ k : Kernel} {page : Nat} {vnode device : NodePtr}

theorem childNode_some {node : NodePtr} {part : List Char}
    (found : childNode k vnode part = some node) :
    ∃ slot, node = .dirent (k.node vnode).dirents slot := by
  rw [childNode] at found
  split at found
  · cases found
  · rcases Option.map_eq_some_iff.mp found with ⟨slot, _, rfl⟩
    exact ⟨slot, rfl⟩

theorem childNode_transfer {part : List Char} (same : k.node vnode = k₀.node vnode)
    (pages : k.pages (k₀.node vnode).dirents = k₀.pages (k₀.node vnode).dirents) :
    childNode k vnode part = childNode k₀ vnode part := by
  simp only [childNode, same, pages]

theorem Aside.node (aside : Aside k₀ page vnode device) (root : k.root = k₀.root)
    (others : ∀ q, q ≠ page → k₀.heap q = true → k.pages q = k₀.pages q) :
    k.node vnode = k₀.node vnode := by
  cases place : vnode with
  | root => exact root
  | dirent q slot =>
      rcases aside.own q slot place with ⟨other, taken⟩
      exact congrFun (others q other taken) slot

theorem Aside.unmoved (aside : Aside k₀ page vnode device) (root : k.root = k₀.root)
    (others : ∀ q, q ≠ page → k₀.heap q = true → k.pages q = k₀.pages q) :
    volumeNode k = some device ∧ k.node device = k₀.node device := by
  have found := aside.found
  rw [volumeNode] at found
  rcases Option.bind_eq_some_iff.mp found with ⟨dev, first, second⟩
  have rootPages := others _ aside.rootPage.1 aside.rootPage.2
  have devPages := others _ (aside.devPage dev first).1 (aside.devPage dev first).2
  have sameRoot : k.node .root = k₀.node .root := root
  have again : childNode k .root "dev".toList = some dev :=
    (childNode_transfer sameRoot rootPages).trans first
  have sameDev : k.node dev = k₀.node dev := by
    rcases childNode_some first with ⟨slot, rfl⟩
    exact congrFun rootPages slot
  refine ⟨?_, ?_⟩
  · rw [volumeNode, again]
    exact (childNode_transfer sameDev devPages).trans second
  · rcases childNode_some second with ⟨slot, rfl⟩
    exact congrFun devPages slot

theorem Aside.blockAt (aside : Aside k₀ page vnode device) (root : k.root = k₀.root)
    (others : ∀ q, q ≠ page → k₀.heap q = true → k.pages q = k₀.pages q) (sector : UInt32) :
    blockAt vol k sector = blockAt vol k₀ sector := by
  rcases aside.unmoved root others with ⟨found, same⟩
  rw [Vfs.blockAt, found, Vfs.blockAt, aside.found, Option.bind_some, Option.bind_some, same]

end Transfer

section NewVnode

theorem findEnd_some_iff (dirents : Nat → Vnode) (name : List Char) (room slot stop : Nat) :
    findEnd dirents name room slot = some stop ↔
      slot ≤ stop ∧ stop < slot + room ∧ (dirents stop).name = [] ∧
        ∀ j, slot ≤ j → j < stop → (dirents j).name ≠ [] ∧ (dirents j).name ≠ name := by
  induction room generalizing slot with
  | zero =>
      rw [findEnd]
      constructor
      · intro found
        cases found
      · intro ⟨low, high, _⟩
        omega
  | succ room ih =>
      rw [findEnd]
      split
      · rename_i here
        constructor
        · intro found
          cases found
          exact ⟨le_rfl, by omega, here, fun j low high => by omega⟩
        · intro ⟨low, _, _, before⟩
          by_cases same : slot = stop
          · rw [same]
          · exact absurd here (before slot le_rfl (by omega)).1
      · rename_i named
        split
        · rename_i taken
          constructor
          · intro found
            cases found
          · intro ⟨low, _, free, before⟩
            have later : slot ≠ stop := fun same => named (same ▸ free)
            exact absurd taken (before slot le_rfl (by omega)).2
        · rename_i other
          rw [ih (slot + 1)]
          constructor
          · intro ⟨low, high, free, before⟩
            refine ⟨by omega, by omega, free, ?_⟩
            intro j from_slot below
            by_cases first : j = slot
            · rw [first]
              exact ⟨named, other⟩
            · exact before j (by omega) below
          · intro ⟨low, high, free, before⟩
            have later : slot ≠ stop := fun same => named (same ▸ free)
            exact ⟨by omega, by omega, free, fun j above below => before j (by omega) below⟩

theorem Kernel.room_setNode (k : Kernel) (p : NodePtr) (f : Vnode → Vnode) :
    room (k.setNode p f) = room k := by
  cases p with
  | root => rfl
  | dirent page slot => rfl

@[simp] theorem Kernel.setNode_root (k : Kernel) (page slot : Nat) (f : Vnode → Vnode) :
    (k.setNode (.dirent page slot) f).root = k.root := rfl

@[simp] theorem Kernel.setNode_heap (k : Kernel) (page slot : Nat) (f : Vnode → Vnode) :
    (k.setNode (.dirent page slot) f).heap = k.heap := rfl

@[simp] theorem Kernel.setNode_fds (k : Kernel) (page slot : Nat) (f : Vnode → Vnode) :
    (k.setNode (.dirent page slot) f).fds = k.fds := rfl

@[simp] theorem Kernel.setNode_token (k : Kernel) (page slot : Nat) (f : Vnode → Vnode) :
    (k.setNode (.dirent page slot) f).token = k.token := rfl

@[simp] theorem Kernel.setNode_self (k : Kernel) (page slot : Nat) (f : Vnode → Vnode) :
    (k.setNode (.dirent page slot) f).pages page slot = f (k.pages page slot) := by
  simp [Kernel.setNode]

theorem Kernel.setNode_slot (k : Kernel) (page : Nat) {slot j : Nat} (f : Vnode → Vnode)
    (other : j ≠ slot) : (k.setNode (.dirent page slot) f).pages page j = k.pages page j := by
  simp [Kernel.setNode, other]

theorem Kernel.setNode_page (k : Kernel) {page q : Nat} (slot : Nat) (f : Vnode → Vnode)
    (other : q ≠ page) : (k.setNode (.dirent page slot) f).pages q = k.pages q := by
  simp [Kernel.setNode, other]

/-- What `new_vnode` leaves behind: one slot filled, and a new page for it. -/
structure Added (k : Kernel) (page slot : Nat) (name : List Char) (fresh : Nat) (k' : Kernel) :
    Prop where
  root : k'.root = k.root
  fds : k'.fds = k.fds
  token : k'.token = k.token
  free : k.heap fresh = false
  heap : k'.heap = Function.update k.heap fresh true
  node : k'.pages page slot = { k.pages page slot with name := name, dirents := fresh }
  rest : ∀ j, j ≠ slot → k'.pages page j = k.pages page j
  others : ∀ q, q ≠ page → q ≠ fresh → k'.pages q = k.pages q
  ended : (k'.pages fresh 0).name = []

variable {k : Kernel} {page : Nat} {vnode : NodePtr} {name : List Char}

theorem newVnode_costs {slot : Nat} (dirents : (k.node vnode).dirents = page)
    (taken : k.heap page = true)
    (found : findEnd (k.pages page) name DIRENT_SLOTS 0 = some slot)
    (after : (k.pages page (slot + 1)).name = []) (short : name.length < 32) :
    Costs room (newVnode vnode name) k (0, 1) (0, 1) fun p k' =>
      p = .dirent page slot ∧ ∃ fresh, Added k page slot name fresh k' := by
  refine Costs.congr ?_ (get_bind _ _)
  rw [dirents]
  simp only [found]
  rw [if_neg (by omega)]
  refine (Costs.bind (0, 1) (0, 1) (modify_costs (Kernel.room_setNode ..)) ?_).cast rfl rfl
  intro _ k₁ same₁ _
  refine (Costs.bind (0, 1) (0, 1) (modify_costs (Kernel.room_setNode ..)) ?_).cast rfl rfl
  intro _ k₂ same₂ _
  refine (Costs.bind 0 0 (kmalloc_costs k₂) ?_).cast rfl rfl
  intro fresh k₃ ⟨small, free, same₃⟩ _
  refine (Costs.bind 0 0 (modify_costs (Kernel.room_setNode ..)) ?_).cast rfl rfl
  intro _ k₄ same₄ _
  refine (Costs.bind 0 0 (modify_costs (Kernel.room_setNode ..)) ?_).cast rfl rfl
  intro _ k₅ same₅ _
  have heap₂ : k₂.heap = k.heap := by
    rw [same₂, same₁]
    rfl
  rw [heap₂] at free
  have apart : page ≠ fresh := by
    intro same
    rw [← same, taken] at free
    cases free
  have pages₃ : k₃.pages = k₂.pages := by rw [same₃]
  have marked : k₁.pages page slot = { k.pages page slot with name := name } := by
    rw [same₁, Kernel.setNode_self]
  refine Costs.pure (room_nonneg k₅) ⟨rfl, fresh, ?_⟩
  constructor
  case root => rw [same₅, same₄, same₃, same₂, same₁]; rfl
  case fds => rw [same₅, same₄, same₃, same₂, same₁]; rfl
  case token => rw [same₅, same₄, same₃, same₂, same₁]; rfl
  case free => exact free
  case heap =>
    rw [same₅, same₄, same₃, heap₂]
    rfl
  case node =>
    rw [same₅, Kernel.setNode_page _ _ _ apart, same₄, Kernel.setNode_self, pages₃, same₂,
      Kernel.setNode_slot _ _ _ (Nat.succ_ne_self slot).symm, marked]
  case rest =>
    intro j other
    rw [same₅, Kernel.setNode_page _ _ _ apart, same₄, Kernel.setNode_slot _ _ _ other, pages₃]
    by_cases next : j = slot + 1
    · have unmarked : k₁.pages page (slot + 1) = k.pages page (slot + 1) := by
        rw [same₁, Kernel.setNode_slot _ _ _ (Nat.succ_ne_self slot)]
      rw [next, same₂, Kernel.setNode_self, unmarked, ← after]
    · rw [same₂, Kernel.setNode_slot _ _ _ next, same₁, Kernel.setNode_slot _ _ _ other]
  case others =>
    intro q other unborn
    rw [same₅, Kernel.setNode_page _ _ _ unborn, same₄, Kernel.setNode_page _ _ _ other, pages₃,
      same₂, Kernel.setNode_page _ _ _ other, same₁, Kernel.setNode_page _ _ _ other]
  case ended => rw [same₅, Kernel.setNode_self]

theorem newVnode_ran {p : NodePtr} {k' : Kernel} (dirents : (k.node vnode).dirents = page)
    (ran : newVnode vnode name k = some (p, k')) :
    (∃ slot, findEnd (k.pages page) name DIRENT_SLOTS 0 = some slot) ∧ name.length < 32 := by
  rw [newVnode, get_bind] at ran
  simp only [dirents] at ran
  cases found : findEnd (k.pages page) name DIRENT_SLOTS 0 with
  | none =>
      simp only [found] at ran
      cases ran
  | some slot =>
      simp only [found] at ran
      refine ⟨⟨slot, rfl⟩, ?_⟩
      by_contra long
      rw [if_pos (by omega)] at ran
      cases ran

end NewVnode

section Loop

variable {vol : Volume} {k₀ k : Kernel} {page : Nat} {vnode device : NodePtr} {listing : Listing}
  {dirent : Dirent}

theorem Listed.findEnd_eq (listed : Listed k₀ page listing k) (fits : listing.Fits dirent) :
    findEnd (k.pages page) (cstr dirent.name) DIRENT_SLOTS 0 = some listing.entries.length := by
  rw [findEnd_some_iff]
  refine ⟨Nat.zero_le _, by simpa using fits.2.1, listed.ended _ le_rfl, ?_⟩
  intro j _ small
  have member : listing.entries[j] ∈ listing.entries := List.getElem_mem small
  rw [(listed.shown j small).name]
  exact ⟨listed.named _ member, fits.2.2 _ member⟩

theorem Listed.fits (listed : Listed k₀ page listing k) {slot : Nat}
    (found : findEnd (k.pages page) (cstr dirent.name) DIRENT_SLOTS 0 = some slot)
    (short : (cstr dirent.name).length < 32) : listing.Fits dirent := by
  rcases (findEnd_some_iff ..).mp found with ⟨_, small, free, before⟩
  have reached : listing.entries.length ≤ slot := by
    by_contra early
    have inside : slot < listing.entries.length := by omega
    exact listed.named _ (List.getElem_mem inside) ((listed.shown slot inside).name ▸ free)
  refine ⟨short, by omega, ?_⟩
  intro entry member
  rcases List.getElem_of_mem member with ⟨j, inside, rfl⟩
  rw [← (listed.shown j inside).name]
  exact (before j (Nat.zero_le j) (by omega)).2

/-- The node that is made of an entry in a slot. -/
def Dirent.node (dirent : Dirent) (size : UInt32 → UInt32) (fresh : Nat) (slot : Vnode) : Vnode :=
  { slot with
    name := cstr dirent.name
    flags := dirent.flags slot.flags
    size := size dirent.inode
    fs := .ext2fs
    inode := dirent.inode
    dirents := fresh }

/-- A slot filled, with a new page, while the driver was called. -/
structure Filled (k : Kernel) (page slot : Nat) (node : Vnode) (fresh : Nat) (k' : Kernel) :
    Prop where
  root : k'.root = k.root
  free : k.heap fresh = false
  heap : ∀ q, k.heap q = true → k'.heap q = true
  taken : k'.heap fresh = true
  token : k'.token = none
  fds : k'.fds = some k'.table
  closed : ∀ i, (k.table i).mode = 0 → (k'.table i).mode = 0
  kept : ∀ i, (k.table i).mode ≠ 0 → k'.table i = k.table i
  node : k'.pages page slot = node
  rest : ∀ j, j ≠ slot → k'.pages page j = k.pages page j
  others : ∀ q, q ≠ page → q ≠ fresh → k'.pages q = k.pages q
  ended : (k'.pages fresh 0).name = []

theorem Added.filled {fresh slot : Nat} {size : UInt32 → UInt32} {k₁ k₂ : Kernel}
    (added : Added k page slot (cstr dirent.name) fresh k₁) (taken : k.heap page = true)
    (returned : Returned (k₁.setNode (.dirent page slot)
      fun n => { n with inode := dirent.inode }) k₂) :
    Filled k page slot (dirent.node size fresh (k.pages page slot)) fresh
      (k₂.setNode (.dirent page slot) fun n =>
        { n with size := size dirent.inode, fs := .ext2fs, flags := dirent.flags n.flags }) := by
  have apart : fresh ≠ page := by
    intro same
    have free := added.free
    rw [same, taken] at free
    cases free
  have table : (k₁.setNode (.dirent page slot) fun n => { n with inode := dirent.inode }).table =
      k.table := by
    rw [Kernel.table, Kernel.setNode_fds, added.fds, Kernel.table]
  have kept := returned.kept
  have closed := returned.closed
  rw [table] at kept closed
  constructor
  case root => rw [Kernel.setNode_root, returned.root, Kernel.setNode_root, added.root]
  case free => exact added.free
  case heap =>
    intro q used
    apply returned.heap
    rw [Kernel.setNode_heap, added.heap]
    simp only [Function.update_apply, used, ite_self]
  case taken =>
    apply returned.heap
    rw [Kernel.setNode_heap, added.heap, Function.update_self]
  case token => rw [Kernel.setNode_token, returned.token]
  case fds => exact returned.fds
  case closed => exact closed
  case kept => exact kept
  case node =>
    rw [Kernel.setNode_self, returned.pages, Kernel.setNode_self, added.node]
    rfl
  case rest =>
    intro j other
    rw [Kernel.setNode_slot _ _ _ other, returned.pages, Kernel.setNode_slot _ _ _ other,
      added.rest j other]
  case others =>
    intro q other unborn
    rw [Kernel.setNode_page _ _ _ other, returned.pages, Kernel.setNode_page _ _ _ other,
      added.others q other unborn]
  case ended =>
    rw [Kernel.setNode_page _ _ _ apart, returned.pages, Kernel.setNode_page _ _ _ apart,
      added.ended]

theorem Filled.apart {slot fresh : Nat} {node : Vnode} {k' : Kernel}
    (filled : Filled k page slot node fresh k') (apart : Apart k₀ page k) : Apart k₀ page k' where
  root := filled.root.trans apart.root
  others q other old := by
    have unborn : q ≠ fresh := by
      intro same
      have free := filled.free
      rw [← same, apart.heap q old] at free
      cases free
    rw [filled.others q other unborn, apart.others q other old]
  heap q old := filled.heap q (apart.heap q old)
  token := filled.token
  fds := filled.fds
  closed i free := filled.closed i (apart.closed i free)
  kept i used := by
    have before := apart.kept i used
    rw [filled.kept i (before ▸ used), before]

theorem Filled.freshPages {slot fresh : Nat} {node : Vnode} {k' : Kernel}
    (filled : Filled k page slot node fresh k') (listed : Listed k₀ page listing k)
    (taken : k₀.heap page = true) {j : Nat} (small : j < listing.entries.length) (other : j ≠ slot) :
    (k'.pages page j).dirents ≠ fresh ∧ k₀.heap (k'.pages page j).dirents = false ∧
      k'.heap (k'.pages page j).dirents = true ∧
        (k'.pages (k'.pages page j).dirents 0).name = [] := by
  rcases listed.fresh j small with ⟨unused, used, ended⟩
  have unborn : (k.pages page j).dirents ≠ fresh := by
    intro same
    have free := filled.free
    rw [← same, used] at free
    cases free
  have elsewhere : (k.pages page j).dirents ≠ page := by
    intro same
    rw [same, taken] at unused
    cases unused
  rw [filled.rest j other]
  refine ⟨unborn, unused, filled.heap _ used, ?_⟩
  rw [filled.others _ elsewhere unborn]
  exact ended

theorem Filled.nameless {fresh : Nat} {size : UInt32 → UInt32} {k' : Kernel}
    (filled : Filled k page listing.entries.length
      (dirent.node size fresh (k.pages page listing.entries.length)) fresh k')
    (listed : Listed k₀ page listing k) (taken : k₀.heap page = true)
    (nameless : cstr dirent.name = []) :
    Listed k₀ page ⟨listing.entries, dirent.flags listing.flags⟩ k' := by
  refine ⟨filled.apart listed.toApart, ?_, listed.named, ?_, ?_, ?_, ?_, ?_⟩
  · intro j small
    rw [filled.rest j (Nat.ne_of_lt small)]
    exact listed.shown j small
  · intro j above
    by_cases here : j = listing.entries.length
    · rw [here, filled.node]
      exact nameless
    · rw [filled.rest j here]
      exact listed.ended j above
  · change (k'.pages page listing.entries.length).flags = _
    rw [filled.node, ← listed.dirty]
    rfl
  · intro j above
    rw [filled.rest j (Nat.ne_of_gt above)]
    exact listed.clean j above
  · intro j small
    exact (filled.freshPages listed taken small (Nat.ne_of_lt small)).2
  · intro i inside j small same
    rw [filled.rest i (Nat.ne_of_lt inside), filled.rest j (Nat.ne_of_lt small)] at same
    exact listed.distinct i inside j small same

theorem Filled.named {fresh : Nat} {size : UInt32 → UInt32} {k' : Kernel}
    (filled : Filled k page listing.entries.length
      (dirent.node size fresh (k.pages page listing.entries.length)) fresh k')
    (listed : Listed k₀ page listing k) (taken : k₀.heap page = true)
    (named : cstr dirent.name ≠ []) :
    Listed k₀ page ⟨listing.entries ++ [⟨cstr dirent.name, dirent.inode,
      dirent.flags listing.flags, size dirent.inode⟩], 0⟩ k' := by
  have unused : k₀.heap fresh = false := by
    cases old : k₀.heap fresh with
    | false => rfl
    | true =>
        have free := filled.free
        rw [listed.heap fresh old] at free
        cases free
  have dirents : (k'.pages page listing.entries.length).dirents = fresh := by
    rw [filled.node]
    rfl
  refine ⟨filled.apart listed.toApart, ?_, ?_, ?_, ?_, ?_, ?_, ?_⟩
  · intro j small
    rw [List.length_append, List.length_singleton] at small
    by_cases here : j = listing.entries.length
    · subst here
      rw [List.getElem_concat_length rfl, filled.node]
      refine ⟨rfl, rfl, ?_, rfl, rfl⟩
      change dirent.flags (k.pages page listing.entries.length).flags = _
      rw [listed.dirty]
    · have inside : j < listing.entries.length := by omega
      rw [List.getElem_append_left inside, filled.rest j here]
      exact listed.shown j inside
  · intro entry member
    rcases List.mem_append.mp member with old | new
    · exact listed.named entry old
    · rw [List.mem_singleton.mp new]
      exact named
  · intro j above
    rw [List.length_append, List.length_singleton] at above
    rw [filled.rest j (by omega)]
    exact listed.ended j (by omega)
  · rw [List.length_append, List.length_singleton, filled.rest _ (Nat.succ_ne_self _)]
    exact listed.clean _ (Nat.lt_succ_self _)
  · intro j above
    rw [List.length_append, List.length_singleton] at above
    rw [filled.rest j (by omega)]
    exact listed.clean j (by omega)
  · intro j small
    rw [List.length_append, List.length_singleton] at small
    by_cases here : j = listing.entries.length
    · rw [here, dirents]
      exact ⟨unused, filled.taken, filled.ended⟩
    · exact (filled.freshPages listed taken (by omega) here).2
  · intro i inside j small same
    rw [List.length_append, List.length_singleton] at inside small
    by_cases first : i = listing.entries.length
    · by_cases second : j = listing.entries.length
      · rw [first, second]
      · rw [first, dirents] at same
        exact absurd same.symm (filled.freshPages listed taken (by omega) second).1
    · by_cases second : j = listing.entries.length
      · rw [second, dirents] at same
        exact absurd same (filled.freshPages listed taken (by omega) first).1
      · rw [filled.rest i first, filled.rest j second] at same
        exact listed.distinct i (by omega) j (by omega) same

theorem Filled.listed {fresh : Nat} {size : UInt32 → UInt32} {k' : Kernel}
    (filled : Filled k page listing.entries.length
      (dirent.node size fresh (k.pages page listing.entries.length)) fresh k')
    (listed : Listed k₀ page listing k) (taken : k₀.heap page = true) :
    Listed k₀ page (listing.add size dirent) k' := by
  rw [Listing.add]
  split
  · rename_i nameless
    exact filled.nameless listed taken nameless
  · rename_i named
    exact filled.named listed taken named

theorem Added.since {slot fresh : Nat} {name : List Char} {f : Vnode → Vnode} {k' : Kernel}
    (added : Added k page slot name fresh k') (apart : Apart k₀ page k) :
    (k'.setNode (.dirent page slot) f).root = k₀.root ∧
      ∀ q, q ≠ page → k₀.heap q = true →
        (k'.setNode (.dirent page slot) f).pages q = k₀.pages q := by
  refine ⟨added.root.trans apart.root, ?_⟩
  intro q other old
  have unborn : q ≠ fresh := by
    intro same
    have free := added.free
    rw [← same, apart.heap q old] at free
    cases free
  rw [Kernel.setNode_page _ _ _ other, added.others q other unborn, apart.others q other old]

theorem enumEntry_costs (aside : Aside k₀ page vnode device) (depth : Nat)
    (listed : Listed k₀ page listing k) (fits : listing.Fits dirent) {inode : Inode}
    (readable : inodeAt vol k₀ dirent.inode = some inode) :
    Costs room (enumEntry vol (getnode vol (depth + 1)) vnode dirent) k (1, 4) (0, 2) fun _ k' =>
      Listed k₀ page (listing.add (sizeAt vol k₀) dirent) k' := by
  have taken := listed.heap page aside.taken
  have dirents : (k.node vnode).dirents = page := by
    rw [aside.node listed.root listed.others, aside.dirents]
  have size : sizeAt vol k₀ dirent.inode = inode.sizeLo := by
    rw [sizeAt, readable]
    rfl
  rcases Option.map_eq_some_iff.mp readable with ⟨block, loaded, same_inode⟩
  refine (Costs.bind (1, 4) (0, 2) (memCopy_costs k) ?_).cast rfl rfl
  intro _ k₁ same₁ _
  rw [same₁]
  refine (Costs.bind (1, 3) (0, 1) (newVnode_costs dirents taken (listed.findEnd_eq fits)
    (listed.ended _ (Nat.le_succ _)) fits.1) ?_).cast rfl rfl
  intro node k₂ made _
  obtain ⟨same, fresh, added⟩ := made
  subst same
  refine (Costs.bind (1, 3) (0, 1) (modify_costs (Kernel.room_setNode ..)) ?_).cast rfl rfl
  intro _ k₃ same₃ _
  have since := added.since (f := fun n => { n with inode := dirent.inode }) listed.toApart
  rw [← same₃] at since
  have number : (k₃.node (.dirent page listing.entries.length)).inode = dirent.inode := by
    rw [same₃]
    exact congrArg Vnode.inode (Kernel.setNode_self ..)
  have table : tablePage k₃ = 0 := by
    apply tablePage_some
    rw [same₃, Kernel.table, Kernel.setNode_fds, added.fds, listed.fds]
    rfl
  have there : blockAt vol k₃ (inodeSector vol
      (k₃.node (.dirent page listing.entries.length)).inode) = some block := by
    rw [number, aside.blockAt since.1 since.2, loaded]
  refine (Costs.bind 0 0 (getInode_costs (aside.unmoved since.1 since.2).1 depth there) ?_).cast
    (by rw [table]; rfl) (by rw [table]; rfl)
  intro answer k₄ read _
  obtain ⟨inodePage, result⟩ := answer
  obtain ⟨same_result, inodeRead⟩ := read
  rw [number, same_inode] at same_result
  simp only at same_result
  subst same_result same₃
  refine (modify_costs (Kernel.room_setNode ..)).mono ?_
  intro _ k₅ same₅
  rw [same₅, ← size]
  exact (added.filled taken inodeRead.toReturned).listed listed aside.taken

theorem enumEntry_ran {depth : Nat} {k' : Kernel} (aside : Aside k₀ page vnode device)
    (listed : Listed k₀ page listing k)
    (ran : enumEntry vol (getnode vol depth) vnode dirent k = some ((), k')) :
    listing.Fits dirent ∧ ∃ inode, inodeAt vol k₀ dirent.inode = some inode := by
  have dirents : (k.node vnode).dirents = page := by
    rw [aside.node listed.root listed.others, aside.dirents]
  have taken := listed.heap page aside.taken
  rw [enumEntry] at ran
  rcases bind_some ran with ⟨_, k₁, first, steps⟩
  rcases (memCopy_costs k).of_some first with ⟨_, _, same₁⟩
  rw [same₁] at steps
  rcases bind_some steps with ⟨node, k₂, second, steps⟩
  rcases newVnode_ran dirents second with ⟨⟨slot, found⟩, short⟩
  have fits := listed.fits found short
  rcases (newVnode_costs dirents taken (listed.findEnd_eq fits)
    (listed.ended _ (Nat.le_succ _)) fits.1).of_some second with ⟨_, _, same, fresh, added⟩
  subst same
  refine ⟨fits, ?_⟩
  rw [modify_bind] at steps
  rcases bind_some steps with ⟨⟨inodePage, inode⟩, k₄, third, _⟩
  rcases getInode_ran third with ⟨block, loaded, _⟩
  have since := added.since (f := fun n => { n with inode := dirent.inode }) listed.toApart
  have number : ((k₂.setNode (.dirent page listing.entries.length)
      fun n => { n with inode := dirent.inode }).node
        (.dirent page listing.entries.length)).inode = dirent.inode :=
    congrArg Vnode.inode (Kernel.setNode_self ..)
  rw [number, aside.blockAt since.1 since.2] at loaded
  exact ⟨inodeIn vol dirent.inode block, by rw [inodeAt, loaded]; rfl⟩

/-- Every entry has room in the page when its turn comes. -/
def Listing.Admits (size : UInt32 → UInt32) : Listing → List Dirent → Prop
  | _, [] => True
  | listing, dirent :: rest => listing.Fits dirent ∧ (listing.add size dirent).Admits size rest

/-- The rounds of the loop that make a node. -/
def enumList (vol : Volume) (getnode : List Char → Op NodePtr) (vnode : NodePtr) :
    List Dirent → Op Unit
  | [] => pure ()
  | dirent :: rest => do
      enumEntry vol getnode vnode dirent
      enumList vol getnode vnode rest

/-- The descriptors and pages that the nodes of so many entries need. -/
def listNeed (count : Nat) : Int × Int := if count = 0 then 0 else (1, 2 * count + 2)

theorem listNeed_succ (count : Nat) :
    ((1, 4) : Int × Int) ⊔ (listNeed count + (0, 2)) = listNeed (count + 1) := by
  rw [listNeed, listNeed, if_neg (Nat.succ_ne_zero count)]
  split
  · rename_i none
    rw [none]
    rfl
  · exact need_eq (by omega) (by omega)

theorem enumList_costs (aside : Aside k₀ page vnode device) (depth : Nat) (dirents : List Dirent)
    (listed : Listed k₀ page listing k) (admits : listing.Admits (sizeAt vol k₀) dirents)
    (readable : ∀ dirent ∈ dirents, ∃ inode, inodeAt vol k₀ dirent.inode = some inode) :
    Costs room (enumList vol (getnode vol (depth + 1)) vnode dirents) k (listNeed dirents.length)
      (0, 2 * dirents.length) fun _ k' =>
        Listed k₀ page (dirents.foldl (Listing.add (sizeAt vol k₀)) listing) k' := by
  induction dirents generalizing k listing with
  | nil => exact Costs.pure (room_nonneg k) listed
  | cons dirent rest ih =>
      rcases readable dirent (.head rest) with ⟨inode, found⟩
      refine (Costs.bind (listNeed rest.length) (0, 2 * rest.length)
        (enumEntry_costs aside depth listed admits.1 found) ?_).cast (listNeed_succ _)
        (net_eq rfl ?_)
      · intro _ k₁ listed₁ _
        exact ih listed₁ admits.2 fun other member => readable other (.tail _ member)
      · rw [List.length_cons]
        omega

theorem enumList_ran {depth : Nat} {k' : Kernel} (aside : Aside k₀ page vnode device)
    (dirents : List Dirent) (listed : Listed k₀ page listing k)
    (ran : enumList vol (getnode vol (depth + 1)) vnode dirents k = some ((), k')) :
    listing.Admits (sizeAt vol k₀) dirents ∧
      ∀ dirent ∈ dirents, ∃ inode, inodeAt vol k₀ dirent.inode = some inode := by
  induction dirents generalizing k listing with
  | nil => exact ⟨trivial, fun _ member => nomatch member⟩
  | cons dirent rest ih =>
      rcases bind_some ran with ⟨_, k₁, first, steps⟩
      rcases enumEntry_ran aside listed first with ⟨fits, inode, found⟩
      rcases (enumEntry_costs aside depth listed fits found).of_some first with ⟨_, _, listed₁⟩
      rcases ih listed₁ steps with ⟨admits, readable⟩
      refine ⟨⟨fits, admits⟩, ?_⟩
      intro other member
      rcases List.mem_cons.mp member with here | later
      · rw [here]
        exact ⟨inode, found⟩
      · exact readable other later

/-- The entries that the loop comes to, in steps of the name length. `none` where it leaves the
block. -/
def walk (block : Buffer) : Nat → Nat → Option (List Dirent)
  | 0, _ => none
  | rounds + 1, offset =>
      if 4096 < offset + 4 then none
      else if (direntAt block offset).inode = 0 then some []
      else if 4096 < offset + 8 + (direntAt block offset).name.length then none
      else (walk block rounds (nextDirent block offset)).map (direntAt block offset :: ·)

theorem enumEntries_eq {depth : Nat} (aside : Aside k₀ page vnode device) (block : Buffer)
    (rounds offset : Nat) (listed : Listed k₀ page listing k) :
    enumEntries vol (getnode vol (depth + 1)) vnode block rounds offset k =
      (walk block rounds offset).bind fun dirents =>
        enumList vol (getnode vol (depth + 1)) vnode
          (dirents.filter fun dirent => dirent.inode ≠ (k₀.node vnode).inode) k := by
  induction rounds generalizing offset k listing with
  | zero => rfl
  | succ rounds ih =>
      rw [enumEntries, walk]
      by_cases outside : 4096 < offset + 4
      · rw [if_pos outside, if_pos outside]
        rfl
      · rw [if_neg outside, if_neg outside]
        by_cases last : (direntAt block offset).inode = 0
        · rw [if_pos last]
          simp only [last, if_true]
          rfl
        · rw [if_neg last]
          simp only [last, if_false]
          by_cases past : 4096 < offset + 8 + (direntAt block offset).name.length
          · rw [if_pos past, if_pos past]
            rfl
          · rw [if_neg past, if_neg past, get_bind, aside.node listed.root listed.others,
              Option.bind_map]
            by_cases own : (direntAt block offset).inode = (k₀.node vnode).inode
            · rw [if_neg (not_not.mpr own), ih _ listed]
              simp [own]
            · rw [if_pos own]
              cases first : enumEntry vol (getnode vol (depth + 1)) vnode (direntAt block offset) k with
              | none =>
                  rw [bind_none first]
                  cases walk block rounds (nextDirent block offset) with
                  | none => rfl
                  | some dirents =>
                      simp [own, enumList, bind_none first]
              | some result =>
                  rcases enumEntry_ran aside listed first with ⟨fits, inode, found⟩
                  rcases (enumEntry_costs aside depth listed fits found).of_some first with
                    ⟨_, _, listed₁⟩
                  rw [bind_run first, ih _ listed₁]
                  simp [own, enumList, bind_run first]

end Loop

section Enumeration

variable {vol : Volume} {k : Kernel} {page : Nat} {vnode device : NodePtr}

/-- The block of a directory. -/
def directoryBlock (vol : Volume) (k : Kernel) (inodeNo : UInt32) : Option Buffer :=
  (inodeAt vol k inodeNo).bind fun inode => blockAt vol k (inode.blockPointer * BLOCK_FACTOR)

/-- The entries of a directory that nodes are made of. -/
def visited (vol : Volume) (k : Kernel) (inodeNo : UInt32) : Option (List Dirent) :=
  (directoryBlock vol k inodeNo).bind fun block =>
    (walk block 512 0).map (·.filter fun dirent => dirent.inode ≠ inodeNo)

def listingOf (vol : Volume) (k : Kernel) (dirents : List Dirent) : Listing :=
  dirents.foldl (Listing.add (sizeAt vol k)) .empty

/-- The page has room for the entries, and their inodes can be read. -/
structure Enumerable (vol : Volume) (k : Kernel) (dirents : List Dirent) : Prop where
  admits : Listing.empty.Admits (sizeAt vol k) dirents
  readable : ∀ dirent ∈ dirents, ∃ inode, inodeAt vol k dirent.inode = some inode

def enumNeed (k : Kernel) (count : Nat) : Int × Int :=
  if count = 0 then (1, tablePage k + 4) else (2, tablePage k + 5 + 2 * count)

theorem Aside.quiet {k' : Kernel} (aside : Aside k page vnode device) (quiet : Quiet k k') :
    Aside k' page vnode device := by
  have node := Kernel.node_congr quiet.root quiet.pages
  constructor
  case found => rw [volumeNode_congr quiet.root quiet.pages, aside.found]
  case rootPage =>
    rw [quiet.root]
    exact ⟨aside.rootPage.1, quiet.heap _ aside.rootPage.2⟩
  case devPage =>
    intro dev first
    rw [childNode_congr quiet.root quiet.pages] at first
    rw [node]
    exact ⟨(aside.devPage dev first).1, quiet.heap _ (aside.devPage dev first).2⟩
  case own =>
    intro q slot place
    exact ⟨(aside.own q slot place).1, quiet.heap _ (aside.own q slot place).2⟩
  case taken => exact quiet.heap _ aside.taken
  case dirents => rw [node, aside.dirents]

theorem inodeAt_congr {k' : Kernel} (root : k'.root = k.root) (pages : k'.pages = k.pages)
    (inodeNo : UInt32) : inodeAt vol k' inodeNo = inodeAt vol k inodeNo := by
  rw [inodeAt, blockAt_congr root pages, inodeAt]

theorem Listed.start (token : k.token = none) (table : k.fds = some k.table)
    (blank : k.pages page = fun _ => blankNode) :
    Listed k page .empty k where
  root := rfl
  others _ _ _ := rfl
  heap _ := id
  token := token
  fds := table
  closed _ := id
  kept _ _ := rfl
  shown _ small := absurd small (Nat.not_lt_zero _)
  named _ member := nomatch member
  ended j _ := by rw [blank]; rfl
  dirty := by rw [blank]; rfl
  clean j _ := by rw [blank]; rfl
  fresh _ small := absurd small (Nat.not_lt_zero _)
  distinct _ small := absurd small (Nat.not_lt_zero _)

/-- The flag that `ext2_enum` leaves on the directory. -/
def Kernel.enumerated (k : Kernel) (vnode : NodePtr) : Kernel :=
  k.setNode vnode fun n => { n with flags := n.flags ||| 0x40000000 }

/-- The driver's buffers and its descriptor given back. -/
def Kernel.release (k : Kernel) (name inodePage volume : Nat) : Kernel :=
  { k with
    heap := Function.update (Function.update k.heap name false) inodePage false
    fds := some (Function.update k.table volume { k.table volume with mode := 0 }) }

/-- The driver once it has the block: its buffers are new, and so is its descriptor. -/
structure Ready (k : Kernel) (name inodePage volume : Nat) (k' : Kernel) : Prop
    extends Quiet k k' where
  nameSmall : name < HEAP_PAGES
  nameFresh : k.heap name = false
  nameTaken : k'.heap name = true
  inodeSmall : inodePage < HEAP_PAGES
  inodeFresh : k.heap inodePage = false
  inodeTaken : k'.heap inodePage = true
  distinct : inodePage ≠ name
  fds : k'.fds = some k'.table
  small : volume < FD_TABLE_SIZE
  opened : (k'.table volume).mode ≠ 0
  free : (k.table volume).mode = 0
  closed : ∀ i, i ≠ volume → (k.table i).mode = 0 → (k'.table i).mode = 0
  kept : ∀ i, (k.table i).mode ≠ 0 → k'.table i = k.table i

theorem Listed.release {listing : Listing} {k₅ k₆ : Kernel} {name inodePage volume : Nat}
    (listed : Listed k₅ page listing k₆) (ready : Ready k name inodePage volume k₅) :
    Listed k page listing (k₆.release name inodePage volume) := by
  have older (q : Nat) (unused : k₅.heap q = false) : k.heap q = false := by
    cases old : k.heap q with
    | false => rfl
    | true =>
        rw [ready.heap q old] at unused
        cases unused
  have heap (q : Nat) (other : q ≠ name) (another : q ≠ inodePage) :
      (k₆.release name inodePage volume).heap q = k₆.heap q :=
    (Function.update_of_ne another ..).trans (Function.update_of_ne other ..)
  constructor
  case toApart =>
    constructor
    case root => exact listed.root.trans ready.root
    case others =>
      intro q other old
      exact (listed.others q other (ready.heap q old)).trans (congrFun ready.pages q)
    case heap =>
      intro q old
      rw [heap]
      · exact listed.heap q (ready.heap q old)
      · intro same
        have free := ready.nameFresh
        rw [← same, old] at free
        cases free
      · intro same
        have free := ready.inodeFresh
        rw [← same, old] at free
        cases free
    case token => exact listed.token
    case fds => rfl
    case closed =>
      intro i unused
      change (Function.update k₆.table volume { k₆.table volume with mode := 0 } i).mode = 0
      by_cases here : i = volume
      · rw [here, Function.update_self]
      · rw [Function.update_of_ne here]
        exact listed.closed i (ready.closed i here unused)
    case kept =>
      intro i used
      change Function.update k₆.table volume { k₆.table volume with mode := 0 } i = k.table i
      have other : i ≠ volume := by
        intro here
        rw [here] at used
        exact used ready.free
      have before := ready.kept i used
      rw [Function.update_of_ne other, listed.kept i (before ▸ used), before]
  case shown => exact listed.shown
  case named => exact listed.named
  case ended => exact listed.ended
  case dirty => exact listed.dirty
  case clean => exact listed.clean
  case fresh =>
    intro j small
    rcases listed.fresh j small with ⟨unused, used, ended⟩
    refine ⟨older _ unused, ?_, ended⟩
    change (k₆.release name inodePage volume).heap (k₆.pages page j).dirents = true
    rw [heap]
    · exact used
    · intro same
      rw [same, ready.nameTaken] at unused
      cases unused
    · intro same
      rw [same, ready.inodeTaken] at unused
      cases unused
  case distinct => exact listed.distinct

theorem enumTail_costs {k₅ : Kernel} {name inodePage volume : Nat} {listing : Listing}
    {need : Int × Int} {count : Int} {loop : Op Unit} (ready : Ready k name inodePage volume k₅)
    (costs : Costs room loop k₅ need (0, count) fun _ k' => Listed k₅ page listing k')
    (enough : (0, count) ≤ need) :
    Costs room (do
      loop
      modify (Kernel.setNode · vnode fun n => { n with flags := n.flags ||| 0x40000000 })
      kfree name
      kfree inodePage
      close volume) k₅ need (-1, count - 2) fun _ k' =>
        ∃ k₁, Listed k page listing k₁ ∧ k' = k₁.enumerated vnode := by
  refine (Costs.bind 0 (-1, -2) costs ?_).cast (by rw [zero_add, sup_eq_left.mpr enough])
    (net_eq (by omega) (by omega))
  intro _ k₆ listed _
  refine (Costs.bind 0 (-1, -2) (modify_costs (Kernel.room_setNode ..)) ?_).cast rfl rfl
  intro _ k₇ same₇ _
  have heap₇ : k₇.heap = k₆.heap := by
    rw [same₇]
    cases vnode with
    | root => rfl
    | dirent q slot => rfl
  have fds₇ : k₇.fds = some k₆.table := by
    rw [same₇, ← listed.fds]
    cases vnode with
    | root => rfl
    | dirent q slot => rfl
  have nameTaken : k₇.heap name = true := by
    rw [heap₇]
    exact listed.heap name ready.nameTaken
  refine (Costs.bind 0 (-1, -1) (kfree_costs ready.nameSmall nameTaken) ?_).cast rfl rfl
  intro _ k₈ same₈ _
  have inodeTaken : k₈.heap inodePage = true := by
    rw [same₈, heap₇]
    exact (Function.update_of_ne ready.distinct ..).trans (listed.heap inodePage ready.inodeTaken)
  refine (Costs.bind 0 (-1, 0) (kfree_costs ready.inodeSmall inodeTaken) ?_).cast rfl rfl
  intro _ k₉ same₉ _
  have fds₉ : k₉.fds = some k₆.table := by rw [same₉, same₈, fds₇]
  have opened : (k₆.table volume).mode ≠ 0 := by
    rw [listed.kept volume ready.opened]
    exact ready.opened
  refine (close_costs fds₉ ready.small opened).mono ?_
  intro _ k₁₀ same₁₀
  refine ⟨k₆.release name inodePage volume, listed.release ready, ?_⟩
  rw [same₁₀, same₉, same₈, heap₇, same₇]
  cases vnode with
  | root => rfl
  | dirent q slot => rfl

theorem loop_costs {k₅ : Kernel} (aside : Aside k page vnode device) (quiet : Quiet k k₅)
    (token : k₅.token = none) (table : k₅.fds = some k₅.table)
    (blank : k.pages page = fun _ => blankNode) (depth : Nat)
    {block : Buffer} {dirents : List Dirent}
    (walked : (walk block 512 0).map
      (·.filter fun dirent => dirent.inode ≠ (k.node vnode).inode) = some dirents)
    (enumerable : Enumerable vol k dirents) :
    Costs room (enumEntries vol (getnode vol (depth + 1)) vnode block 512 0) k₅
      (listNeed dirents.length) (0, 2 * dirents.length) fun _ k' =>
        Listed k₅ page (listingOf vol k dirents) k' := by
  rcases Option.map_eq_some_iff.mp walked with ⟨all, steps, filtered⟩
  have aside₅ := aside.quiet quiet
  have start : Listed k₅ page .empty k₅ := .start token table (by rw [quiet.pages, blank])
  have sizes : sizeAt vol k₅ = sizeAt vol k := by
    funext inodeNo
    rw [sizeAt, inodeAt_congr quiet.root quiet.pages, sizeAt]
  have loop : enumEntries vol (getnode vol (depth + 1)) vnode block 512 0 k₅ =
      enumList vol (getnode vol (depth + 1)) vnode dirents k₅ := by
    rw [enumEntries_eq aside₅ block 512 0 start, steps, Option.bind_some,
      Kernel.node_congr quiet.root quiet.pages, filtered]
  refine Costs.congr ?_ loop
  rw [listingOf, ← sizes]
  apply enumList_costs aside₅ depth dirents start
  · rw [sizes]
    exact enumerable.admits
  · intro dirent member
    rw [inodeAt_congr quiet.root quiet.pages]
    exact enumerable.readable dirent member

theorem loop_ran {k₅ k' : Kernel} (aside : Aside k page vnode device) (quiet : Quiet k k₅)
    (token : k₅.token = none) (table : k₅.fds = some k₅.table)
    (blank : k.pages page = fun _ => blankNode) {depth : Nat}
    {block : Buffer}
    (ran : enumEntries vol (getnode vol (depth + 1)) vnode block 512 0 k₅ = some ((), k')) :
    ∃ dirents, (walk block 512 0).map
      (·.filter fun dirent => dirent.inode ≠ (k.node vnode).inode) = some dirents ∧
        Enumerable vol k dirents := by
  have aside₅ := aside.quiet quiet
  have start : Listed k₅ page .empty k₅ := .start token table (by rw [quiet.pages, blank])
  have sizes : sizeAt vol k₅ = sizeAt vol k := by
    funext inodeNo
    rw [sizeAt, inodeAt_congr quiet.root quiet.pages, sizeAt]
  rw [enumEntries_eq aside₅ block 512 0 start, Kernel.node_congr quiet.root quiet.pages] at ran
  rcases Option.bind_eq_some_iff.mp ran with ⟨all, steps, ran⟩
  rcases enumList_ran aside₅ _ start ran with ⟨admits, readable⟩
  rw [sizes] at admits
  refine ⟨_, by rw [steps]; rfl, admits, ?_⟩
  intro dirent member
  rcases readable dirent member with ⟨inode, found⟩
  rw [inodeAt_congr quiet.root quiet.pages] at found
  exact ⟨inode, found⟩

theorem InodeRead.ready {k₁ k₂ k₃ k₄ k₅ : Kernel} {inode : Inode} {position : UInt32}
    {inodePage entryPage volume name : Nat} (inodeRead : InodeRead k inode inodePage k₁)
    (same₂ : k₂ = { k₁ with heap := Function.update k₁.heap entryPage true })
    (opened : Opened k₂ device volume k₃)
    (same₄ : k₄ = { k₃ with fds := some (Function.update k₂.table volume ⟨device, 1, position⟩) })
    (small : name < HEAP_PAGES) (free : k₄.heap name = false)
    (same₅ : k₅ = { k₄ with heap := Function.update k₄.heap name true }) :
    Ready k name inodePage volume k₅ ∧ k₅.token = none := by
  have quiet₂ := inodeRead.toQuiet.trans (quiet_kmalloc same₂)
  have quiet₄ : Quiet k₃ k₄ := by
    rw [same₄]
    exact ⟨rfl, rfl, fun _ => id⟩
  have quiet := (quiet₂.trans opened.toQuiet).trans quiet₄
  have table₂ : k₂.table = k₁.table := by
    rw [same₂]
    rfl
  have table₅ : k₅.table = Function.update k₁.table volume ⟨device, 1, position⟩ := by
    rw [same₅, Kernel.table, same₄, ← table₂]
    rfl
  have inodeTaken₄ : k₄.heap inodePage = true := by
    apply quiet₄.heap
    apply opened.heap
    exact (quiet_kmalloc same₂).heap _ inodeRead.taken
  have free₁ : (k₁.table volume).mode = 0 := table₂ ▸ opened.free
  constructor
  · constructor
    case toQuiet => exact quiet.trans (quiet_kmalloc same₅)
    case nameSmall => exact small
    case nameFresh =>
      cases old : k.heap name with
      | false => rfl
      | true =>
          rw [quiet.heap _ old] at free
          cases free
    case nameTaken =>
      rw [same₅]
      exact Function.update_self ..
    case inodeSmall => exact inodeRead.small
    case inodeFresh => exact inodeRead.fresh
    case inodeTaken => exact (quiet_kmalloc same₅).heap _ inodeTaken₄
    case distinct =>
      intro same
      rw [← same, inodeTaken₄] at free
      cases free
    case fds => rw [table₅, same₅, same₄, table₂]
    case small => exact opened.small
    case opened =>
      rw [table₅, Function.update_self]
      exact (by decide : (1 : UInt8) ≠ 0)
    case free =>
      by_contra used
      exact used (inodeRead.kept volume used ▸ free₁)
    case closed =>
      intro i other unused
      rw [table₅, Function.update_of_ne other]
      exact inodeRead.closed i unused
    case kept =>
      intro i used
      have same := inodeRead.kept i used
      rw [table₅, Function.update_of_ne, same]
      intro here
      rw [← same, here] at used
      exact used free₁
  · rw [same₅, same₄]
    exact opened.token

theorem enumNeed_shape (k : Kernel) (count : Nat) :
    ∃ fds pages : Int, listNeed count = (fds, pages) ∧ 0 ≤ fds ∧ 2 * count ≤ pages ∧
      enumNeed k count = (fds + 1, tablePage k + max 4 (pages + 3)) := by
  rw [listNeed, enumNeed]
  split
  · rename_i none
    exact ⟨0, 0, rfl, le_rfl, by omega, rfl⟩
  · rename_i some
    refine ⟨1, 2 * count + 2, rfl, by decide, by omega, Prod.ext rfl ?_⟩
    simp only
    omega

theorem ext2Enum_costs (aside : Aside k page vnode device) (depth : Nat) {dirents : List Dirent}
    (visits : visited vol k (k.node vnode).inode = some dirents)
    (enumerable : Enumerable vol k dirents) (blank : k.pages page = fun _ => blankNode) :
    Costs room (ext2Enum vol (getnode vol (depth + 1)) vnode) k (enumNeed k dirents.length)
      (0, tablePage k + 1 + 2 * dirents.length) fun _ k' =>
        ∃ k₁, Listed k page (listingOf vol k dirents) k₁ ∧ k' = k₁.enumerated vnode := by
  rcases Option.bind_eq_some_iff.mp visits with ⟨block, loaded, walked⟩
  rcases Option.bind_eq_some_iff.mp loaded with ⟨inode, found, there⟩
  rcases Option.map_eq_some_iff.mp found with ⟨inodeBlock, inodeLoaded, same_inode⟩
  rcases enumNeed_shape k dirents.length with ⟨fds, pages, loopNeed, fdsBound, pagesBound, shape⟩
  have nonneg := tablePage_nonneg k
  rw [shape]
  refine (Costs.bind (fds + 1, max 3 (pages + 2)) (0, 2 * dirents.length)
    (getInode_costs aside.found depth inodeLoaded) ?_).cast (need_eq (by omega) (by omega))
    (net_eq (by omega) (by omega))
  intro (inodePage, result) k₁ ⟨same_result, inodeRead⟩ _
  rw [same_inode] at same_result
  simp only at same_result
  subst same_result
  refine (Costs.bind (fds + 1, max 2 (pages + 1)) (0, 2 * dirents.length - 1)
    (kmalloc_costs k₁) ?_).cast (need_eq (by omega) (by omega)) (net_eq (by omega) (by omega))
  intro entryPage k₂ ⟨_, _, same₂⟩ _
  have quiet₂ := inodeRead.toQuiet.trans (quiet_kmalloc same₂)
  have none₂ : tablePage k₂ = 0 := by
    apply tablePage_some
    rw [same₂, inodeRead.fds]
    rfl
  refine (Costs.bind (fds, pages + 1) (-1, 2 * dirents.length - 1)
    (open_volume_costs (aside.quiet quiet₂).found depth) ?_).cast
    (by rw [none₂]; exact need_eq (by omega) (by omega))
    (by rw [none₂]; exact net_eq (by omega) (by omega))
  intro volume k₃ opened _
  refine (Costs.bind (fds, pages + 1) (-1, 2 * dirents.length - 1)
    (seek_costs opened.fds volume _) ?_).cast
    (need_eq (by omega) (by omega)) (net_eq (by omega) (by omega))
  intro _ k₄ same₄ _
  rw [Function.update_self, Function.update_idem] at same₄
  have quiet₄ : Quiet k₃ k₄ := by
    rw [same₄]
    exact ⟨rfl, rfl, fun _ => id⟩
  have quiet := (quiet₂.trans opened.toQuiet).trans quiet₄
  have blockRead : read vol volume k₄ = some (block, k₄) := by
    rw [blockAt, aside.found, Option.bind_some] at there
    rw [read_eq (by rw [same₄]) (Function.update_self ..), Kernel.node_congr quiet.root quiet.pages,
      there]
    rfl
  refine Costs.congr ?_ (bind_run blockRead)
  refine (Costs.bind (fds, pages) (-1, 2 * dirents.length - 2) (kmalloc_costs k₄) ?_).cast
    (need_eq (by omega) (by omega)) (net_eq (by omega) (by omega))
  intro name k₅ ⟨nameSmall, nameFree, same₅⟩ _
  rcases inodeRead.ready same₂ opened same₄ nameSmall nameFree same₅ with ⟨ready, token₅⟩
  have loop := loop_costs aside ready.toQuiet token₅ ready.fds blank depth walked enumerable
  rw [loopNeed] at loop
  exact enumTail_costs ready loop (Prod.mk_le_mk.mpr ⟨fdsBound, pagesBound⟩)

theorem ext2Enum_ran {depth : Nat} {k' : Kernel} (aside : Aside k page vnode device)
    (blank : k.pages page = fun _ => blankNode)
    (ran : ext2Enum vol (getnode vol (depth + 1)) vnode k = some ((), k')) :
    ∃ dirents, visited vol k (k.node vnode).inode = some dirents ∧ Enumerable vol k dirents := by
  rw [ext2Enum] at ran
  rcases bind_some ran with ⟨⟨inodePage, inode⟩, k₁, first, steps⟩
  rcases getInode_ran first with ⟨inodeBlock, inodeLoaded, same_inode, inodeRead⟩
  rcases bind_some steps with ⟨entryPage, k₂, second, steps⟩
  rcases (kmalloc_costs k₁).of_some second with ⟨_, _, _, _, same₂⟩
  have quiet₂ := inodeRead.toQuiet.trans (quiet_kmalloc same₂)
  rcases bind_some steps with ⟨volume, k₃, third, steps⟩
  rcases (open_volume_costs (aside.quiet quiet₂).found depth).of_some third with ⟨_, _, opened⟩
  rcases bind_some steps with ⟨_, k₄, fourth, steps⟩
  rcases (seek_costs opened.fds volume _).of_some fourth with ⟨_, _, same₄⟩
  rw [Function.update_self, Function.update_idem] at same₄
  have quiet₄ : Quiet k₃ k₄ := by
    rw [same₄]
    exact ⟨rfl, rfl, fun _ => id⟩
  have quiet := (quiet₂.trans opened.toQuiet).trans quiet₄
  rcases bind_some steps with ⟨block, k₅, fifth, steps⟩
  rw [read_eq (by rw [same₄]) (Function.update_self ..),
    Kernel.node_congr quiet.root quiet.pages] at fifth
  rcases Option.map_eq_some_iff.mp fifth with ⟨block', there, same⟩
  cases same
  rcases bind_some steps with ⟨name, k₆, sixth, steps⟩
  rcases (kmalloc_costs k₄).of_some sixth with ⟨_, _, nameSmall, nameFree, same₆⟩
  rcases bind_some steps with ⟨_, k₇, loop, _⟩
  rcases inodeRead.ready same₂ opened same₄ nameSmall nameFree same₆ with ⟨ready, token₆⟩
  rcases loop_ran aside ready.toQuiet token₆ ready.fds blank loop with
    ⟨dirents, walked, enumerable⟩
  refine ⟨dirents, ?_, enumerable⟩
  have found : inodeAt vol k (k.node vnode).inode = some inode := by
    rw [inodeAt, inodeLoaded, same_inode]
    rfl
  have loaded : directoryBlock vol k (k.node vnode).inode = some block := by
    rw [directoryBlock, found, Option.bind_some, blockAt, aside.found, Option.bind_some]
    exact there
  rw [visited, loaded, Option.bind_some, walked]

end Enumeration

end TitorOS.Barrel.Vfs
