import TitorOS.Lib.Fill
import TitorOS.Lib.Run
import TitorOS.Barrel.Enumerate

/-! `new_vnode` of `kernel/vfs.c` byte by byte. The children of a directory are an array of
`vnode_t` in one page; an entry is written where the first byte of a name is zero. Where
`Vfs.newVnode`, which has nodes and names instead of bytes, returns, the bytes stay in bounds. -/

namespace TitorOS.Barrel.Dirents

open TitorOS.Lib

def HEAP_BASE : Nat := 0xc0400000

/-- `vnode_t` is 32 bytes of name, `flags`, `size`, `fs`, `inode`, `fs_instance`, `parent`, and
the pointer `dirents`. -/
def VNODE_SIZE : Nat := 60
def NAME_SIZE : Nat := 32
def DIRENTS_OFFSET : Nat := 56

/-- More rounds than there are addresses. -/
def ADDRESSES : Nat := 2 ^ 32

/-- The kernel's memory, and which pages of its heap are in use. -/
structure State where
  mem : Nat → UInt8
  used : Kheap

def pageAddress (page : Nat) : Nat := HEAP_BASE + 4096 * page

def slotAddress (page slot : Nat) : Nat := pageAddress page + VNODE_SIZE * slot

/-- The string at an address against one that is carried as a value. -/
def strcmp (mem : Nat → UInt8) (string1 : Nat) : List UInt8 → Nat
  | [] => if mem string1 = 0 then 0 else 1
  | c :: string2 => if mem string1 = c then strcmp mem (string1 + 1) string2 else 1

def strcpy (dest : Nat) : List UInt8 → List (Nat × UInt8)
  | [] => [(dest, 0)]
  | c :: src => (dest, c) :: strcpy (dest + 1) src

def storeWord (a word : Nat) : List (Nat × UInt8) :=
  (List.range 4).map fun i => (a + i, UInt8.ofNat (word / 256 ^ i))

/-- The scan for the end of the dirents; `none` is the panic over a name that is there. -/
def findEnd (mem : Nat → UInt8) (name : List UInt8) : Nat → Nat → Option Nat
  | 0, _ => none
  | rounds + 1, newnode =>
      if mem newnode = 0 then some newnode
      else if strcmp mem newnode name = 0 then none
      else findEnd mem name rounds (newnode + VNODE_SIZE)

/-- The stores through `newnode`, those through `newnode->dirents`, and the page that was taken,
with the heap, unless the call panics. -/
structure Created where
  entry : List (Nat × UInt8)
  own : List (Nat × UInt8)
  result : Option (Nat × Kheap)

/-- What `new_vnode` does when it has found the end. -/
def initVnode (s : State) (newnode : Nat) (name : List UInt8) : Created :=
  let named := strcpy newnode name ++ [(newnode + VNODE_SIZE, 0)]
  match kmalloc s.used with
  | none => ⟨named, [], none⟩
  | some (page, used) =>
      ⟨named ++ storeWord (newnode + DIRENTS_OFFSET) (pageAddress page), [(pageAddress page, 0)],
        some (page, used)⟩

def newVnode (s : State) (dirents : Nat) (name : List UInt8) : Created :=
  match findEnd s.mem name ADDRESSES dirents with
  | none => ⟨[], [], none⟩
  | some newnode => initVnode s newnode name

/-- The memory when a call is over, or panics. -/
def after (page : Nat) (s : State) (name : List UInt8) : Nat → UInt8 :=
  let created := newVnode s (pageAddress page) name
  storeAll created.own (storeAll created.entry s.mem)

/-- A call on the directory whose dirents are in `page`. -/
def create (page : Nat) (s : State) (name : List UInt8) : Option State :=
  (newVnode s (pageAddress page) name).result.map fun (_, used) => ⟨after page s name, used⟩

/-- The entries before the first one without a name. -/
def entries (mem : Nat → UInt8) : Nat → Nat → Nat
  | 0, _ => 0
  | rounds + 1, node => if mem node = 0 then 0 else entries mem rounds (node + VNODE_SIZE) + 1

def childCount (page : Nat) (s : State) : Nat := entries s.mem ADDRESSES (pageAddress page)

/-- The end of the list of dirents is in their page. -/
structure Directory (page : Nat) (s : State) : Prop where
  used : s.used page = true
  small : childCount page s ≤ 68

/-- A name as an ext2 directory may have it. -/
structure Supplied (name : List UInt8) : Prop where
  named : name ≠ []
  short : name.length ≤ 255
  ended : 0 ∉ name

def InPage (page a : Nat) : Prop := pageAddress page ≤ a ∧ a < pageAddress page + 4096

/-- A byte of a child that is there, or of a field of the new one that is not for `new_vnode`. -/
def Kept (page : Nat) (s : State) (a : Nat) : Prop :=
  (∃ slot < childCount page s, ∃ offset < VNODE_SIZE, a = slotAddress page slot + offset) ∨
    ∃ offset, NAME_SIZE ≤ offset ∧ offset < DIRENTS_OFFSET ∧
      a = slotAddress page (childCount page s) + offset

structure Contained (page : Nat) (s : State) (name : List UInt8) : Prop where
  entry : ∀ store ∈ (newVnode s (pageAddress page) name).entry, InPage page store.1
  own : ∀ store ∈ (newVnode s (pageAddress page) name).own, ∃ child used,
    (newVnode s (pageAddress page) name).result = some (child, used) ∧ InPage child store.1
  apart : ∀ a, Kept page s a → ∀ store ∈ (newVnode s (pageAddress page) name).entry ++
    (newVnode s (pageAddress page) name).own, store.1 ≠ a
  kept : ∀ a, Kept page s a → after page s name a = s.mem a

/-- A child of that name is there, so that the call panics at once. -/
def Taken (page : Nat) (s : State) (name : List UInt8) : Prop :=
  ∃ slot < childCount page s, strcmp s.mem (slotAddress page slot) name = 0

/-- The name has room in its field with a zero behind it, and one more entry has room in the page
with a zero behind it. -/
def Fits (page : Nat) (s : State) (name : List UInt8) : Prop :=
  Taken page s name ∨ name.length < NAME_SIZE ∧ childCount page s < 68

section Scan

variable {mem : Nat → UInt8} {name : List UInt8}

theorem next_slot (node slot : Nat) :
    node + VNODE_SIZE + VNODE_SIZE * slot = node + VNODE_SIZE * (slot + 1) := by
  rw [Nat.add_assoc, Nat.add_comm VNODE_SIZE, ← Nat.mul_succ]

theorem entries_before {rounds node slot : Nat} (below : slot < entries mem rounds node) :
    mem (node + VNODE_SIZE * slot) ≠ 0 := by
  induction rounds generalizing node slot with
  | zero => exact absurd below (Nat.not_lt_zero slot)
  | succ rounds ih =>
      rw [entries] at below
      split at below
      · exact absurd below (Nat.not_lt_zero slot)
      · rename_i first
        cases slot with
        | zero => exact first
        | succ slot =>
            have later := ih (Nat.lt_of_succ_lt_succ below)
            rwa [next_slot] at later

theorem entries_end {rounds node : Nat} (few : entries mem rounds node < rounds) :
    mem (node + VNODE_SIZE * entries mem rounds node) = 0 := by
  induction rounds generalizing node with
  | zero => exact absurd few (Nat.not_lt_zero _)
  | succ rounds ih =>
      rw [entries] at few ⊢
      split
      · rename_i ended
        exact ended
      · rename_i first
        rw [if_neg first] at few
        have later := ih (Nat.lt_of_succ_lt_succ few)
        rwa [next_slot] at later

theorem entries_eq {rounds node count : Nat} (few : count < rounds)
    (before : ∀ slot < count, mem (node + VNODE_SIZE * slot) ≠ 0)
    (ended : mem (node + VNODE_SIZE * count) = 0) : entries mem rounds node = count := by
  induction count generalizing rounds node with
  | zero =>
      cases rounds with
      | zero => exact absurd few (Nat.not_lt_zero _)
      | succ rounds => exact if_pos ended
  | succ count ih =>
      cases rounds with
      | zero => exact absurd few (Nat.not_lt_zero _)
      | succ rounds =>
          have first : mem node ≠ 0 := before 0 count.succ_pos
          rw [entries, if_neg first, ih (Nat.lt_of_succ_lt_succ few)]
          · intro slot below
            rw [next_slot]
            exact before (slot + 1) (Nat.succ_lt_succ below)
          · rw [next_slot]
            exact ended

theorem findEnd_taken {rounds node slot : Nat} (below : slot < entries mem rounds node)
    (same : strcmp mem (node + VNODE_SIZE * slot) name = 0) : findEnd mem name rounds node = none := by
  induction rounds generalizing node slot with
  | zero => rfl
  | succ rounds ih =>
      have first : mem node ≠ 0 := by
        intro ended
        rw [entries, if_pos ended] at below
        exact absurd below (Nat.not_lt_zero slot)
      rw [entries, if_neg first] at below
      rw [findEnd, if_neg first]
      cases slot with
      | zero => exact if_pos same
      | succ slot =>
          rw [← next_slot] at same
          rw [ih (Nat.lt_of_succ_lt_succ below) same, ite_self]

theorem findEnd_fresh {rounds node : Nat} (few : entries mem rounds node < rounds)
    (fresh : ∀ slot < entries mem rounds node, strcmp mem (node + VNODE_SIZE * slot) name ≠ 0) :
    findEnd mem name rounds node = some (node + VNODE_SIZE * entries mem rounds node) := by
  induction rounds generalizing node with
  | zero => exact absurd few (Nat.not_lt_zero _)
  | succ rounds ih =>
      rw [entries] at few fresh ⊢
      rw [findEnd]
      split
      · rfl
      · rename_i first
        rw [if_neg first] at few fresh
        have other : strcmp mem node name ≠ 0 := fresh 0 (Nat.succ_pos _)
        rw [if_neg other, ih (Nat.lt_of_succ_lt_succ few)]
        · rw [next_slot]
        · intro slot below
          rw [next_slot]
          exact fresh (slot + 1) (Nat.succ_lt_succ below)

end Scan

section Stores

variable {s : State} {name : List UInt8} {page newnode : Nat}

theorem strcpy_places {dest : Nat} {store : Nat × UInt8} (member : store ∈ strcpy dest name) :
    ∃ i ≤ name.length, store.1 = dest + i := by
  induction name generalizing dest with
  | nil =>
      rw [strcpy, List.mem_singleton] at member
      exact ⟨0, Nat.zero_le _, by rw [member, Nat.add_zero]⟩
  | cons c rest ih =>
      rw [strcpy, List.mem_cons] at member
      rcases member with rfl | member
      · exact ⟨0, Nat.zero_le _, rfl⟩
      · rcases ih member with ⟨i, upto, place⟩
        refine ⟨i + 1, Nat.succ_le_succ upto, ?_⟩
        omega

theorem strcpy_stores (dest : Nat) {i : Nat} (upto : i ≤ name.length) :
    ∃ store ∈ strcpy dest name, store.1 = dest + i := by
  induction name generalizing dest i with
  | nil =>
      rw [List.length_nil, Nat.le_zero] at upto
      exact ⟨(dest, 0), List.mem_singleton.mpr rfl, by rw [upto, Nat.add_zero]⟩
  | cons c rest ih =>
      cases i with
      | zero => exact ⟨(dest, c), List.mem_cons_self, rfl⟩
      | succ i =>
          rcases ih (dest + 1) (Nat.le_of_succ_le_succ upto) with ⟨store, member, place⟩
          refine ⟨store, List.mem_cons_of_mem _ member, ?_⟩
          omega

theorem storeWord_places {a word : Nat} {store : Nat × UInt8} (member : store ∈ storeWord a word) :
    ∃ i < 4, store.1 = a + i := by
  rcases List.mem_map.mp member with ⟨i, small, rfl⟩
  exact ⟨i, List.mem_range.mp small, rfl⟩

theorem initVnode_some {child : Nat} {used : Kheap} (taken : kmalloc s.used = some (child, used)) :
    initVnode s newnode name =
      ⟨strcpy newnode name ++ [(newnode + VNODE_SIZE, 0)] ++
        storeWord (newnode + DIRENTS_OFFSET) (pageAddress child), [(pageAddress child, 0)],
          some (child, used)⟩ := by
  unfold initVnode
  simp only [taken]

theorem initVnode_none (full : kmalloc s.used = none) :
    initVnode s newnode name = ⟨strcpy newnode name ++ [(newnode + VNODE_SIZE, 0)], [], none⟩ := by
  unfold initVnode
  simp only [full]

theorem initVnode_result (s : State) (newnode : Nat) (name : List UInt8) :
    (initVnode s newnode name).result = kmalloc s.used := by
  cases taken : kmalloc s.used with
  | none => rw [initVnode_none taken]
  | some result => rw [initVnode_some taken]

theorem initVnode_entry (s : State) (newnode : Nat) (name : List UInt8) :
    ∃ pointer, (initVnode s newnode name).entry =
      strcpy newnode name ++ (newnode + VNODE_SIZE, 0) :: pointer ∧
        ∀ store ∈ pointer, ∃ i < 4, store.1 = newnode + DIRENTS_OFFSET + i := by
  cases taken : kmalloc s.used with
  | none =>
      rw [initVnode_none taken]
      exact ⟨[], rfl, by simp⟩
  | some result =>
      rw [initVnode_some taken]
      refine ⟨storeWord (newnode + DIRENTS_OFFSET) (pageAddress result.1), ?_, ?_⟩
      · rw [List.append_assoc, List.singleton_append]
      · intro store member
        exact storeWord_places member

theorem initVnode_places {store : Nat × UInt8} (member : store ∈ (initVnode s newnode name).entry) :
    (∃ i ≤ name.length, store.1 = newnode + i) ∨ store.1 = newnode + VNODE_SIZE ∨
      ∃ i < 4, store.1 = newnode + DIRENTS_OFFSET + i := by
  rcases initVnode_entry s newnode name with ⟨pointer, shape, places⟩
  rw [shape, List.mem_append, List.mem_cons] at member
  rcases member with named | rfl | member
  · exact .inl (strcpy_places named)
  · exact .inr (.inl rfl)
  · exact .inr (.inr (places store member))

theorem initVnode_own {store : Nat × UInt8} (member : store ∈ (initVnode s newnode name).own) :
    ∃ child used, (initVnode s newnode name).result = some (child, used) ∧
      s.used child = false ∧ store.1 = pageAddress child := by
  cases taken : kmalloc s.used with
  | none =>
      rw [initVnode_none taken] at member
      cases member
  | some result =>
      rcases result with ⟨child, used⟩
      rw [initVnode_some taken] at member ⊢
      have place : store = (pageAddress child, 0) := List.mem_singleton.mp member
      exact ⟨child, used, rfl, (kmalloc_spec _ _ _ taken).2.1, by rw [place]⟩

theorem newVnode_taken (taken : Taken page s name) :
    newVnode s (pageAddress page) name = ⟨[], [], none⟩ := by
  rcases taken with ⟨slot, below, same⟩
  rw [newVnode, findEnd_taken below same]

theorem Directory.few (directory : Directory page s) : childCount page s < ADDRESSES := by
  have small := directory.small
  have many : 68 < ADDRESSES := by decide
  omega

theorem newVnode_fresh (directory : Directory page s) (fresh : ¬ Taken page s name) :
    newVnode s (pageAddress page) name =
      initVnode s (slotAddress page (childCount page s)) name := by
  have scan : findEnd s.mem name ADDRESSES (pageAddress page) =
      some (slotAddress page (childCount page s)) := by
    refine findEnd_fresh directory.few ?_
    intro slot below same
    exact fresh ⟨slot, below, same⟩
  rw [newVnode, scan]

end Stores

section Calls

variable {page : Nat} {s s' : State} {name : List UInt8}

/-- Every byte to be kept is in the page, outside the name and the pointer of the new child. -/
theorem Kept.place {a : Nat} (kept : Kept page s a) :
    pageAddress page ≤ a ∧ (a < slotAddress page (childCount page s) ∨
      slotAddress page (childCount page s) + NAME_SIZE ≤ a ∧
        a < slotAddress page (childCount page s) + DIRENTS_OFFSET) := by
  have low : pageAddress page ≤ slotAddress page (childCount page s) := Nat.le_add_right _ _
  rcases kept with ⟨slot, below, offset, small, rfl⟩ | ⟨offset, behind, before, rfl⟩
  · have next : slotAddress page slot + VNODE_SIZE ≤ slotAddress page (childCount page s) := by
      rw [slotAddress, slotAddress, Nat.add_assoc, ← Nat.mul_succ]
      exact Nat.add_le_add_left (Nat.mul_le_mul_left _ below) _
    have start : pageAddress page ≤ slotAddress page slot := Nat.le_add_right _ _
    omega
  · omega

theorem Directory.apart (directory : Directory page s) {child a : Nat}
    (unused : s.used child = false) (inside : InPage page a) : pageAddress child ≠ a := by
  have other : child ≠ page := by
    intro same
    rw [same, directory.used] at unused
    cases unused
  intro same
  rw [InPage, ← same, pageAddress, pageAddress] at inside
  omega

theorem layout : VNODE_SIZE = 60 ∧ NAME_SIZE = 32 ∧ DIRENTS_OFFSET = 56 := ⟨rfl, rfl, rfl⟩

theorem last_slot (room : childCount page s < 68) : VNODE_SIZE * childCount page s ≤ 60 * 67 :=
  Nat.mul_le_mul_left 60 (by omega)

theorem slot_inside {slot offset : Nat} (inside : VNODE_SIZE * slot + offset < 4096) :
    InPage page (slotAddress page slot + offset) := by
  rw [InPage, slotAddress]
  omega

theorem store_inside (short : name.length < NAME_SIZE) (room : childCount page s < 68)
    {store : Nat × UInt8}
    (member : store ∈ (initVnode s (slotAddress page (childCount page s)) name).entry) :
    InPage page store.1 := by
  obtain ⟨size, field, behind⟩ := layout
  have upTo := last_slot room
  rcases initVnode_places member with ⟨i, upto, place⟩ | place | ⟨i, small, place⟩
  · rw [place]
    exact slot_inside (by omega)
  · rw [place]
    exact slot_inside (by omega)
  · rw [place, Nat.add_assoc]
    exact slot_inside (by omega)

theorem Directory.store_apart (directory : Directory page s) (short : name.length < NAME_SIZE)
    (room : childCount page s < 68) {a : Nat} (kept : Kept page s a) {store : Nat × UInt8}
    (member : store ∈ (initVnode s (slotAddress page (childCount page s)) name).entry ++
      (initVnode s (slotAddress page (childCount page s)) name).own) : store.1 ≠ a := by
  obtain ⟨size, field, behind⟩ := layout
  have upTo := last_slot room
  have place := kept.place
  rcases List.mem_append.mp member with entry | own
  · rcases initVnode_places entry with ⟨i, upto, there⟩ | there | ⟨i, small, there⟩
    · omega
    · omega
    · omega
  · rcases initVnode_own own with ⟨child, used, _, unused, there⟩
    rw [there]
    refine directory.apart unused ⟨place.1, ?_⟩
    rw [slotAddress] at place
    omega

theorem Taken.contained (taken : Taken page s name) : Contained page s name := by
  have nothing := newVnode_taken taken
  constructor
  · rw [nothing]
    exact fun _ member => absurd member List.not_mem_nil
  · rw [nothing]
    exact fun _ member => absurd member List.not_mem_nil
  · rw [nothing]
    exact fun _ _ _ member => absurd member List.not_mem_nil
  · intro a _
    rw [after, nothing]
    rfl

theorem Directory.contained (directory : Directory page s) (fresh : ¬ Taken page s name)
    (short : name.length < NAME_SIZE) (room : childCount page s < 68) : Contained page s name := by
  have written := newVnode_fresh directory fresh
  have apart (a : Nat) (kept : Kept page s a) (store : Nat × UInt8)
      (member : store ∈ (newVnode s (pageAddress page) name).entry ++
        (newVnode s (pageAddress page) name).own) : store.1 ≠ a := by
    rw [written] at member
    exact directory.store_apart short room kept member
  constructor
  · rw [written]
    exact fun store member => store_inside short room member
  · rw [written]
    intro store member
    rcases initVnode_own member with ⟨child, used, result, _, there⟩
    refine ⟨child, used, result, ?_⟩
    rw [there]
    exact ⟨Nat.le_refl _, by omega⟩
  · exact apart
  · intro a kept
    rw [after, storeAll_outside, storeAll_outside]
    · intro store member
      exact apart a kept store (List.mem_append_left _ member)
    · intro store member
      exact apart a kept store (List.mem_append_right _ member)

theorem Contained.of_fits (directory : Directory page s) (fits : Fits page s name) :
    Contained page s name := by
  by_cases taken : Taken page s name
  · exact taken.contained
  · rcases fits.resolve_left taken with ⟨short, room⟩
    exact directory.contained taken short room

theorem Contained.fits (contained : Contained page s name) (directory : Directory page s) :
    Fits page s name := by
  by_cases taken : Taken page s name
  · exact .inl taken
  · right
    have size : VNODE_SIZE = 60 := rfl
    have written := newVnode_fresh directory taken
    rcases initVnode_entry s (slotAddress page (childCount page s)) name with ⟨pointer, shape, _⟩
    rw [← written] at shape
    constructor
    · -- the byte behind the name's field is the first of `flags`
      by_contra long
      rcases strcpy_stores (slotAddress page (childCount page s)) (Nat.le_of_not_lt long) with
        ⟨store, member, place⟩
      have there : store ∈ (newVnode s (pageAddress page) name).entry := by
        rw [shape]
        exact List.mem_append_left _ member
      exact contained.apart _ (.inr ⟨NAME_SIZE, Nat.le_refl _, by decide, rfl⟩) store
        (List.mem_append_left _ there) place
    · -- the zero behind the last entry is in the next page
      by_contra full
      have there : (slotAddress page (childCount page s) + VNODE_SIZE, (0 : UInt8)) ∈
          (newVnode s (pageAddress page) name).entry := by
        rw [shape]
        exact List.mem_append_right _ List.mem_cons_self
      have inside := contained.entry _ there
      have count : childCount page s = 68 := by
        have small := directory.small
        omega
      rw [InPage, slotAddress, count] at inside
      omega

theorem Directory.after_entry (directory : Directory page s) (fresh : ¬ Taken page s name) {a : Nat}
    (inside : InPage page a) :
    after page s name a =
      storeAll (initVnode s (slotAddress page (childCount page s)) name).entry s.mem a := by
  rw [after, newVnode_fresh directory fresh]
  apply storeAll_outside
  intro store member
  rcases initVnode_own member with ⟨child, used, _, unused, there⟩
  rw [there]
  exact directory.apart unused inside

theorem Directory.after_named (directory : Directory page s) (supplied : Supplied name)
    (fresh : ¬ Taken page s name) (room : childCount page s < 68) :
    after page s name (slotAddress page (childCount page s)) ≠ 0 := by
  obtain ⟨size, _, behind⟩ := layout
  have upTo := last_slot room
  have here : InPage page (slotAddress page (childCount page s) + 0) := slot_inside (by omega)
  rw [Nat.add_zero] at here
  rw [directory.after_entry fresh here]
  rcases initVnode_entry s (slotAddress page (childCount page s)) name with ⟨pointer, shape, places⟩
  rw [shape]
  cases name with
  | nil => exact absurd rfl supplied.named
  | cons c rest =>
      rw [strcpy, List.cons_append, storeAll_once]
      · intro zero
        exact supplied.ended (zero ▸ List.mem_cons_self)
      · intro store member
        rw [List.mem_append, List.mem_cons] at member
        rcases member with named | rfl | member
        · rcases strcpy_places named with ⟨i, _, place⟩
          omega
        · omega
        · rcases places store member with ⟨i, _, place⟩
          omega

theorem Directory.after_ended (directory : Directory page s) (fresh : ¬ Taken page s name)
    (room : childCount page s < 68) :
    after page s name (slotAddress page (childCount page s) + VNODE_SIZE) = 0 := by
  obtain ⟨size, _, behind⟩ := layout
  have upTo := last_slot room
  rw [directory.after_entry fresh (slot_inside (by omega))]
  rcases initVnode_entry s (slotAddress page (childCount page s)) name with ⟨pointer, shape, places⟩
  rw [shape, storeAll_append, storeAll_once]
  intro store member
  rcases places store member with ⟨i, small, place⟩
  omega

theorem Directory.create (directory : Directory page s) (supplied : Supplied name)
    (fits : Fits page s name) (ran : create page s name = some s') : Directory page s' := by
  have contained := Contained.of_fits directory fits
  rw [Dirents.create] at ran
  rcases Option.map_eq_some_iff.mp ran with ⟨⟨child, used⟩, result, rfl⟩
  have fresh : ¬ Taken page s name := by
    intro taken
    rw [newVnode_taken taken] at result
    cases result
  rcases fits.resolve_left fresh with ⟨_, room⟩
  have count : childCount page ⟨after page s name, used⟩ = childCount page s + 1 := by
    refine entries_eq ?_ ?_ ?_
    · have many : 69 < ADDRESSES := by decide
      omega
    · intro slot upto
      by_cases last : slot = childCount page s
      · rw [last]
        exact directory.after_named supplied fresh room
      · have below : slot < childCount page s := by omega
        have same := contained.kept (slotAddress page slot) (.inl ⟨slot, below, 0, by decide, rfl⟩)
        change after page s name (slotAddress page slot) ≠ 0
        rw [same]
        exact entries_before below
    · rw [Nat.mul_succ, ← Nat.add_assoc]
      exact directory.after_ended fresh room
  constructor
  · rw [newVnode_fresh directory fresh, initVnode_result] at result
    exact kmalloc_keeps _ _ child page result directory.used
  · rw [count]
    exact room

/-- In every directory that calls which fit have led to, the next call stores to the directory's
page and the new child's only, and to no other field of a child, if and only if it fits. -/
theorem newVnode_contained_iff (start s : State) (page : Nat) (name : List UInt8)
    (directory : Directory page start)
    (run : Run (create page) (fun s name => Supplied name ∧ Fits page s name) start s) :
    Contained page s name ↔ Fits page s name := by
  have reached : Directory page s := by
    refine run.invariant (Directory page) directory ?_
    intro s name s' before allowed ran
    exact before.create allowed.1 allowed.2 ran
  constructor
  · intro contained
    exact contained.fits reached
  · intro fits
    exact .of_fits reached fits

/-- A cleared page of dirents. -/
def cleared : State := ⟨fun _ => 0, .low 1⟩

theorem cleared_directory : Directory 0 cleared := ⟨rfl, by decide +kernel⟩

theorem second_child_contained :
    ∃ s, Run (create 0) (fun s name => Supplied name ∧ Fits 0 s name) cleared s ∧
      childCount 0 s = 1 ∧ Contained 0 s [98] := by
  have ran : (create 0 cleared [97]).map (childCount 0) = some 1 := by decide +kernel
  rcases Option.map_eq_some_iff.mp ran with ⟨s, made, one⟩
  have supplied : Supplied [97] := ⟨by decide, by decide, by decide⟩
  have fits : Fits 0 cleared [97] := .inr ⟨by decide, by decide +kernel⟩
  have run : Run (create 0) (fun s name => Supplied name ∧ Fits 0 s name) cleared s :=
    Run.refl.tail ⟨supplied, fits⟩ made
  refine ⟨s, run, one, ?_⟩
  refine (newVnode_contained_iff cleared s 0 [98] cleared_directory run).mpr (.inr ⟨by decide, ?_⟩)
  rw [one]
  decide

theorem long_name_astray :
    ¬ ∀ (start s : State) (page : Nat) (name : List UInt8), Directory page start →
      Run (create page) (fun _ name => Supplied name) start s → Supplied name →
        (∀ store ∈ (newVnode s (pageAddress page) name).entry ++
            (newVnode s (pageAddress page) name).own, InPage page store.1 ∨
          ∃ child used, (newVnode s (pageAddress page) name).result = some (child, used) ∧
            InPage child store.1) ∧
        ∀ a, Kept page s a → after page s name a = s.mem a := by
  intro contained
  have supplied : Supplied (List.replicate 33 97) := ⟨by decide, by decide, by decide⟩
  have kept := (contained cleared cleared 0 (List.replicate 33 97) cleared_directory .refl supplied).2
    (slotAddress 0 (childCount 0 cleared) + 32) (.inr ⟨32, by decide, by decide, rfl⟩)
  have stored : after 0 cleared (List.replicate 33 97) (slotAddress 0 (childCount 0 cleared) + 32) =
      97 := by
    decide +kernel
  cases stored.symm.trans kept

end Calls

section Nodes

variable {page : Nat} {s : State} {name : List UInt8} {nodes : Nat → Vnode}

def charOf (byte : UInt8) : Char := Char.ofNat byte.toNat

/-- The names in the page are those of the nodes. -/
def Shows (page : Nat) (s : State) (nodes : Nat → Vnode) : Prop :=
  ∀ slot ≤ childCount page s, ∃ text, 0 ∉ text ∧
    strcmp s.mem (slotAddress page slot) text = 0 ∧ (nodes slot).name = text.map charOf

theorem strcmp_nil {mem : Nat → UInt8} {a : Nat} : strcmp mem a [] = 0 ↔ mem a = 0 := by
  rw [strcmp]
  split
  · rename_i ended
    exact iff_of_true rfl ended
  · rename_i unended
    exact iff_of_false (by decide) unended

theorem strcmp_cons {mem : Nat → UInt8} {a : Nat} {c : UInt8} {rest : List UInt8} :
    strcmp mem a (c :: rest) = 0 ↔ mem a = c ∧ strcmp mem (a + 1) rest = 0 := by
  rw [strcmp]
  split
  · rename_i here
    exact (and_iff_right here).symm
  · rename_i other
    exact iff_of_false (by decide) fun both => other both.1

theorem strcmp_unique {mem : Nat → UInt8} {a : Nat} {first second : List UInt8} (ended : 0 ∉ first)
    (ended' : 0 ∉ second) (same : strcmp mem a first = 0) (same' : strcmp mem a second = 0) :
    first = second := by
  induction first generalizing a second with
  | nil =>
      cases second with
      | nil => rfl
      | cons c rest =>
          have zero : c = 0 := (strcmp_cons.mp same').1.symm.trans (strcmp_nil.mp same)
          exact absurd (zero ▸ List.mem_cons_self) ended'
  | cons c rest ih =>
      rcases strcmp_cons.mp same with ⟨here, later⟩
      cases second with
      | nil =>
          have zero : c = 0 := here.symm.trans (strcmp_nil.mp same')
          exact absurd (zero ▸ List.mem_cons_self) ended
      | cons d others =>
          rcases strcmp_cons.mp same' with ⟨here', later'⟩
          have tails := ih (fun member => ended (List.mem_cons_of_mem _ member))
            (fun member => ended' (List.mem_cons_of_mem _ member)) later later'
          rw [← here, ← here', tails]

theorem Shows.named_iff (shows_ : Shows page s nodes) {slot : Nat}
    (upto : slot ≤ childCount page s) :
    (nodes slot).name = [] ↔ s.mem (slotAddress page slot) = 0 := by
  rcases shows_ slot upto with ⟨text, ended, same, name⟩
  rw [name]
  cases text with
  | nil => exact iff_of_true rfl (strcmp_nil.mp same)
  | cons c rest =>
      refine iff_of_false (List.cons_ne_nil _ _) ?_
      intro zero
      have first := (strcmp_cons.mp same).1
      exact ended (first.symm.trans zero ▸ List.mem_cons_self)

theorem Shows.findEnd_some (shows_ : Shows page s nodes) (directory : Directory page s)
    (supplied : Supplied name) {slot : Nat}
    (found : Vfs.findEnd nodes (name.map charOf) Vfs.DIRENT_SLOTS 0 = some slot) :
    slot = childCount page s ∧ slot < 68 ∧ ¬ Taken page s name := by
  rcases (Vfs.findEnd_some_iff ..).mp found with ⟨_, small, free, before⟩
  rw [Nat.zero_add] at small
  have ended : (nodes (childCount page s)).name = [] :=
    (shows_.named_iff (Nat.le_refl _)).mpr (entries_end directory.few)
  have last : slot = childCount page s := by
    rcases Nat.lt_trichotomy slot (childCount page s) with below | same | above
    · exact absurd ((shows_.named_iff (Nat.le_of_lt below)).mp free) (entries_before below)
    · exact same
    · exact absurd ended (before _ (Nat.zero_le _) above).1
  refine ⟨last, small, ?_⟩
  intro ⟨other, below, same⟩
  rcases shows_ other (Nat.le_of_lt below) with ⟨text, textEnded, there, shown⟩
  rw [strcmp_unique textEnded supplied.ended there same] at shown
  exact (before other (Nat.zero_le _) (last ▸ below)).2 shown

/-- Where the call over nodes returns, the bytes stay in bounds, and the entry is the same. -/
theorem Shows.newVnode_contained {k k' : Vfs.Kernel} {vnode p : NodePtr}
    (shows_ : Shows page s (k.pages page)) (directory : Directory page s)
    (supplied : Supplied name) (place : (k.node vnode).dirents = page)
    (ran : Vfs.newVnode vnode (name.map charOf) k = some (p, k')) :
    Contained page s name ∧ newVnode s (pageAddress page) name =
      initVnode s (slotAddress page (childCount page s)) name := by
  rcases Vfs.newVnode_ran place ran with ⟨⟨slot, found⟩, short⟩
  rcases shows_.findEnd_some directory supplied found with ⟨last, small, fresh⟩
  rw [List.length_map] at short
  exact ⟨.of_fits directory (.inr ⟨short, last ▸ small⟩), newVnode_fresh directory fresh⟩

end Nodes

end TitorOS.Barrel.Dirents
