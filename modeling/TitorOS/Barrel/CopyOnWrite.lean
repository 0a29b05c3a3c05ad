import TitorOS.Barrel.Isolation

/-! `page_fault` on a user's write to a protected page: what the faulting address space gets,
and what the others keep. -/

namespace TitorOS.Barrel.Vmm

open TitorOS.Lib TitorOS.Lib.Word TitorOS.Barrel.Pmm

def USER_LIMIT : BitVec 32 := 0xc0000000#32

/-- `allowed` is `page_fault_allowed`. -/
def pageFault (s : State) (allowed : Bool) (error vaddr : BitVec 32) : Option State :=
  let page := (decode vaddr).toVPage
  if error &&& 0b1#32 = 0#32 then
    if allowed then demandPage s page else none
  else if error &&& 0b100#32 = 0b100#32 ∧ vaddr ≥ USER_LIMIT then none
  else if error &&& 0b110#32 = 0b110#32 ∧ vaddr < USER_LIMIT then copyOnWrite s page
  else none

/-- The error code of a write from user mode to a page that is present. -/
def WRITE_PROTECTION : BitVec 32 := 0b111#32

/-- Where a frame is mapped, if at all, it is a heap page that is not allocated. -/
def Unallocated (s : State) (f : Frame) : Prop :=
  ∀ q ∈ s.dirs, ∀ p, (pte s q p).present = true → (pte s q p).frame = f →
    ∃ k, p = heapPage k ∧ (s.slot k).inUse = false

/-- The fault is served. `elsewhere` is about every word that another directory reaches: its own
entries and its page tables through the self-map, its pages, and the kernel's. It leaves out
entries and pages of the kernel heap that are not allocated, and the entry of the faulting
directory, which every address space has among the kernel's pages. -/
structure Served (s : State) (page : VPage) (s' : State) : Prop where
  copied : ∃ f, userWrite s' page = some (f, true) ∧ Unallocated s f ∧
    s'.mem f = s.mem (pte s s.active page).frame
  others : ∀ p, p.dir < USER_DIRS → p ≠ page → (pte s s.active p).present = true →
    (pte s' s'.active p).present = true ∧
      (pte s' s'.active p).frame = (pte s s.active p).frame ∧
      ((pde s s.active page.dir).writable = false → p.dir = page.dir →
        (pte s' s'.active p).writable = false)
  elsewhere : ∀ q ∈ s.dirs, q ≠ s.active → ∀ v : VAddr, (pte s q v.toVPage).present = true →
    ¬((pte s q v.toVPage).frame = s.cr3 ∧ v.word = page.dir) →
    ((pte s q v.toVPage).frame = HEAP_PT → (s.slot v.word).inUse = true) →
    (∀ k, (s.slot k).present = true → (s.slot k).frame = (pte s q v.toVPage).frame →
      (s.slot k).inUse = true) →
      s'.mem (pte s q v.toVPage).frame v.word = s.mem (pte s q v.toVPage).frame v.word

/-- At least `slots` heap pages are not allocated, and `frames` page frames are not in use, which
are memory: the pages of devices lie behind them, in frames that have never been taken. -/
def Room (s : State) (device : Set Index) (slots frames : Nat) : Prop :=
  (∃ idle : Finset Index, slots ≤ idle.card ∧ ∀ k ∈ idle, (s.slot k).inUse = false) ∧
    ∃ free : Finset Frame, frames ≤ free.card ∧ (∀ f ∈ free, used s.bitmap f = false) ∧
      ∀ k ∈ device, used s.bitmap (s.slot k).frame = false ∧ ∀ f ∈ free, f < (s.slot k).frame

/-- The write faults into a private table, or into one that is copied first. -/
def TablePrivate (s : State) (page : VPage) : Prop :=
  (pde s s.active page.dir).writable = true →
    ∀ q ∈ s.dirs, q ≠ s.active → ¬SharesTable s s.active q page.dir

section Room

variable {s s' : State} {own : Owners} {device : Set Index}

theorem Room.mono {slots frames slots' frames' : Nat} (room : Room s device slots frames)
    (fewer : slots' ≤ slots) (less : frames' ≤ frames) : Room s device slots' frames' := by
  rcases room with ⟨⟨idle, many, allIdle⟩, free, enough, allFree⟩
  exact ⟨⟨idle, fewer.trans many, allIdle⟩, free, less.trans enough, allFree⟩

theorem Room.congr {t : State} {slots frames : Nat} (room : Room s device slots frames)
    (same : ∀ k, (s.slot k).inUse = false → (t.slot k).inUse = false)
    (devices : ∀ k ∈ device, t.slot k = s.slot k)
    (bitmap : t.bitmap = s.bitmap) : Room t device slots frames := by
  rcases room with ⟨⟨idle, many, allIdle⟩, free, enough, allFree, beyond⟩
  refine ⟨⟨idle, many, fun k member => same k (allIdle k member)⟩, free, enough, ?_, ?_⟩
  · intro f member
    rw [bitmap]
    exact allFree f member
  · intro k member
    rw [bitmap, devices k member]
    exact beyond k member

theorem Room.slots_eq {t : State} {slots frames : Nat} (room : Room s device slots frames)
    (same : ∀ k, t.slot k = s.slot k) (bitmap : t.bitmap = s.bitmap) : Room t device slots frames :=
  room.congr (fun k idle => same k ▸ idle) (fun k _ => same k) bitmap

theorem pmalloc_beyond {bitmap bitmap' : Bitmap} {g : Frame}
    (allocated : pmalloc bitmap = some (g, bitmap')) {free : Finset Frame} {f : Frame}
    (member : f ∈ free) (allFree : ∀ f ∈ free, used bitmap f = false) {d : Frame}
    (unused : used bitmap d = false) (behind : ∀ f ∈ free, f < d) : used bitmap' d = false := by
  rcases pmalloc_lowest _ _ _ allocated with ⟨_, lowest, rfl⟩
  have low := lowest f (allFree f member)
  have other : d ≠ g := by
    rintro rfl
    exact absurd (behind f member) (BitVec.not_lt.mpr low)
  rw [used_puse, unused, decide_eq_false other]
  rfl

theorem kmalloc_room (h : Owned s own) {slots frames : Nat}
    (room : Room s own.device (slots + 1) (frames + 1)) :
    ∃ k t own', kmalloc s = some (k, t) ∧ Fresh s own k t own' ∧
      Room t own.device slots frames := by
  rcases room with ⟨⟨idle, many, allIdle⟩, free, enough, allFree, beyond⟩
  obtain ⟨k, member⟩ : idle.Nonempty := Finset.card_pos.mp (by omega)
  obtain ⟨f, unused⟩ : free.Nonempty := Finset.card_pos.mp (by omega)
  have succeeds := kmalloc_isSome h.heapTable (allIdle k member) (allFree f unused)
  rcases Option.isSome_iff_exists.mp succeeds with ⟨⟨k', t⟩, taken⟩
  rcases kmalloc_fresh h taken with ⟨own', fresh⟩
  have devices (j : Index) (device : j ∈ own.device) : t.slot j = s.slot j := by
    apply fresh.slots
    rintro rfl
    exact h.idle_ordinary fresh.idle device
  have frames_left : ∃ left : Finset Frame, frames ≤ left.card ∧
      (∀ f ∈ left, used t.bitmap f = false) ∧
        ∀ k ∈ own.device, used t.bitmap (t.slot k).frame = false ∧
          ∀ f ∈ left, f < (t.slot k).frame := by
    rcases kmalloc_slot h.heapTable taken with ⟨_, _, ⟨_, same⟩ | ⟨g, bitmap, allocated, same⟩⟩
    · have kept : t.bitmap = s.bitmap := by rw [same]; rfl
      refine ⟨free, by omega, ?_, ?_⟩
      · rwa [kept]
      · intro j device
        rw [kept, devices j device]
        exact beyond j device
    · have grown : t.bitmap = bitmap := by rw [same]; rfl
      refine ⟨free.erase g, ?_, ?_, ?_⟩
      · have := Finset.pred_card_le_card_erase (s := free) (a := g)
        omega
      · intro f' inside
        rw [Finset.mem_erase] at inside
        rw [grown, (pmalloc_spec _ _ _ allocated).2, used_puse, allFree f' inside.2, Bool.or_false]
        exact decide_eq_false inside.1
      · intro j device
        rcases beyond j device with ⟨bare, behind⟩
        rw [grown, devices j device]
        exact ⟨pmalloc_beyond allocated unused allFree bare behind,
          fun f' inside => behind f' (Finset.mem_of_mem_erase inside)⟩
  refine ⟨k', t, own', taken, fresh, ⟨idle.erase k', ?_, ?_⟩, frames_left⟩
  · have := Finset.pred_card_le_card_erase (s := idle) (a := k')
    omega
  · intro k'' inside
    rw [Finset.mem_erase] at inside
    rw [fresh.slots k'' inside.1]
    exact allIdle k'' inside.2

theorem Room.release {slots frames : Nat} (room : Room s device slots frames) {k : Index}
    (ordinary : k ∉ device) (inUse : (s.slot k).inUse = true) {w : Word} (idle : w.inUse = false) :
    Room (s.write HEAP_PT k w) device (slots + 1) frames := by
  rcases room with ⟨⟨pages, many, allIdle⟩, free, enough, allFree, beyond⟩
  have taken : k ∉ pages := by
    intro member
    rw [allIdle k member] at inUse
    cases inUse
  refine ⟨⟨insert k pages, ?_, ?_⟩, free, enough, allFree, ?_⟩
  · rw [Finset.card_insert_of_notMem taken]
    omega
  · intro k' member
    rw [s.slot_write]
    split
    · exact idle
    · rename_i other
      exact allIdle k' ((Finset.mem_insert.mp member).resolve_left other)
  · intro k' member
    have other : k' ≠ k := by
      rintro rfl
      exact ordinary member
    rw [s.slot_write, if_neg other]
    exact beyond k' member

theorem memCopy_room (h : Owned s own) {source : VPage} {k : Index} {slots frames : Nat}
    (ordinary : k ∉ own.device) (inUse : (s.slot k).inUse = true) (apart : .heap k ∉ s.dirs)
    (readable : ∀ t own', Owned t own' → Background s t → (pageFrame t source).isSome = true)
    (room : Room s own.device (slots + 1) (frames + 1)) :
    ∃ s', memCopy s source (heapPage k) = some s' ∧ Room s' own.device (slots + 1) frames := by
  rcases kmalloc_room h room with ⟨buffer, t, own1, taken, fresh, left⟩
  have owned := fresh.owned
  have other : k ≠ buffer := by
    intro equal
    rw [equal, fresh.idle] at inUse
    cases inUse
  have k_present : (t.slot k).present = true := by
    rw [fresh.slots k other]
    exact h.inUse k inUse
  have b_present := fresh.present
  have b_ordinary := fresh.ordinary h
  have k_ordinary : k ∉ own1.device := fresh.device ▸ ordinary
  have b_apart : .heap buffer ∉ t.dirs := fresh.background.dirs.symm ▸ h.not_dir fresh.idle
  have k_apart : .heap k ∉ t.dirs := fresh.background.dirs.symm ▸ apart
  rcases Option.isSome_iff_exists.mp (readable t own1 owned fresh.background) with ⟨src, read⟩
  rcases owned.fill b_ordinary b_present b_apart (t.mem src) with ⟨u_owned, t_u, u_slot⟩
  have through := t.writeFrame_mem_self (t.slot buffer).frame (t.mem src)
  have u_room := left.slots_eq (t := t.writeFrame (t.slot buffer).frame (t.mem src)) u_slot rfl
  simp only [memCopy, taken, Option.bind_eq_bind, Option.bind_some, read, pageFrame_heap owned.heapTable,
    b_present, if_true, through]
  generalize t.writeFrame (t.slot buffer).frame (t.mem src) = u at *
  have u_present : (u.slot k).present = true := (u_slot k).symm ▸ k_present
  rcases u_owned.fill k_ordinary u_present (t_u.dirs.symm ▸ k_apart) (t.mem src) with ⟨v_owned, _, v_slot⟩
  have v_room := u_room.slots_eq (t := u.writeFrame (u.slot k).frame (t.mem src)) v_slot rfl
  simp only [pageFrame_heap u_owned.heapTable, u_present, if_true, Option.bind_some, kfree_eq v_owned.heapTable]
  generalize u.writeFrame (u.slot k).frame (t.mem src) = v at *
  refine ⟨_, rfl, v_room.release (h.idle_ordinary fresh.idle) ?_ (release_inUse _)⟩
  rw [v_slot, u_slot, fresh.inUse]

theorem kmalloc_memCopy_room (h : Owned s own) {source : VPage} {slots frames : Nat}
    (readable : ∀ t own', Owned t own' → Background s t → (pageFrame t source).isSome = true)
    (room : Room s own.device (slots + 2) (frames + 2)) :
    ∃ k s1 s' own', kmalloc s = some (k, s1) ∧ memCopy s1 source (heapPage k) = some s' ∧
      Filled s source k s' own' ∧ own'.device = own.device ∧
        Room s' own.device (slots + 1) frames := by
  rcases kmalloc_room h room with ⟨k, s1, own1, taken, fresh, left⟩
  have apart : .heap k ∉ s1.dirs := fresh.background.dirs.symm ▸ h.not_dir fresh.idle
  have still : ∀ t own', Owned t own' → Background s1 t → (pageFrame t source).isSome = true :=
    fun t own' owned s1_t => readable t own' owned (fresh.background.trans s1_t)
  rw [← fresh.device] at left
  rcases memCopy_room fresh.owned (fresh.ordinary h) fresh.inUse apart still left with
    ⟨s', copied, rest⟩
  rcases kmalloc_memCopy h taken copied with ⟨own', filled, kept, _⟩
  rw [fresh.device] at rest
  exact ⟨k, s1, s', own', taken, copied, filled, kept.device, rest⟩

theorem splitTable_room (h : Owned s own) {page : VPage} {slots frames : Nat}
    (present : (pde s s.active page.dir).present = true)
    (room : Room s own.device (slots + 2) (frames + 2)) :
    ∃ s', splitTable s page = some s' ∧ Room s' own.device (slots + 2) frames := by
  have readable : ∀ t own', Owned t own' → Background s t →
      (pageFrame t (pageEntry page).toVPage).isSome = true := by
    intro t own' owned s_t
    rw [pageEntry, pageFrame_window owned, owned.pde_cr3, s_t.pde_active h, if_pos present]
    rfl
  rcases kmalloc_memCopy_room h readable room with
    ⟨newPt, s1, s2, own2, taken, copied, filled, device, left⟩
  have new_present := filled.owned.inUse newPt filled.inUse
  rcases filled.owned.fill filled.ordinary new_present filled.apart (fun i =>
    s2.mem (s2.slot newPt).frame i &&& 0xFFFFFFFD#32) with ⟨owned3, s2_s3, slot3⟩
  have room3 := left.slots_eq (t := s2.writeFrame (s2.slot newPt).frame fun i =>
    s2.mem (s2.slot newPt).frame i &&& 0xFFFFFFFD#32) slot3 rfl
  simp only [splitTable, taken, Option.bind_eq_bind, Option.bind_some, copied,
    dropWrite_eq filled.owned new_present]
  generalize s2.writeFrame _ _ = s3 at *
  rcases owned3.detach filled.ordinary (by rwa [slot3]) (s2_s3.dirs ▸ filled.apart)
    (s2_s3.live ▸ filled.dead) (.table page.dir) with ⟨_, owned_t⟩
  simp only [detach_eq owned3.heapTable, Option.bind_some, load_dirEntry owned_t, store_dirEntry owned_t]
  have in_use : (s3.slot newPt).inUse = true := slot3 newPt ▸ filled.inUse
  have ordinary : newPt ∉ own.device := device ▸ filled.ordinary
  refine ⟨_, rfl, (room3.release (w := 0#32) ordinary in_use rfl).slots_eq ?_ rfl⟩
  intro k
  have other := owned_t.dir_ne_low owned_t.active heapPt_low (by decide)
  rw [← owned_t.cr3] at other
  rw [State.slot, State.write_mem_ne _ _ _ other.symm]
  rfl

theorem splitPage_room (h : Owned s own) {page : VPage} {slots frames : Nat}
    (below : page.dir < USER_DIRS) (present : (pte s s.active page).present = true)
    (room : Room s own.device (slots + 2) (frames + 2)) :
    ∃ s', splitPage s page = some s' ∧
      ∀ k ∈ own.device, used s'.bitmap (s.slot k).frame = false := by
  have readable : ∀ t own', Owned t own' → Background s t → (pageFrame t page).isSome = true := by
    intro t own' owned s_t
    rw [owned.pageFrame_active, s_t.pte_active h below, if_pos present]
    rfl
  rcases kmalloc_memCopy_room h readable room with
    ⟨newpage, s1, s2, own2, taken, copied, filled, _, _, _, _, _, beyond⟩
  have new_present := filled.owned.inUse newpage filled.inUse
  rcases filled.owned.detach filled.ordinary new_present filled.apart filled.dead (.page page) with ⟨_, owned_t⟩
  have s_t := filled.background.trans
    (filled.owned.background_writeHeap newpage 0#32 filled.apart)
  have table : ((s2.write HEAP_PT newpage 0#32).mem (s2.write HEAP_PT newpage 0#32).cr3
      page.dir).present = true := by
    rw [owned_t.pde_cr3, s_t.pde_active h]
    exact pte_pde present
  simp only [splitPage, taken, Option.bind_eq_bind, Option.bind_some, copied,
    detach_eq filled.owned.heapTable, load_entry owned_t _ table, store_entry owned_t _ _ table]
  refine ⟨_, rfl, fun k member => ?_⟩
  rw [← filled.slots k (h.device k member)]
  exact (beyond k member).1

end Room

section Served

variable {s s' t : State} {own own' : Owners} {page : VPage} {f : Frame}

theorem Owned.busy (h : Owned s own) {g : Frame} (held : Held s own g)
    (allocated : ∀ k, (s.slot k).present = true → (s.slot k).frame = g →
      (s.slot k).inUse = true) : Busy s own g := by
  refine ⟨h.held_owner held, ?_⟩
  intro k owner
  rcases h.held_heap held owner with ⟨present, same, _⟩
  exact allocated k present same

theorem Owned.busy_page (h : Owned s own) {q : DirPtr} (member : q ∈ s.dirs) {p : VPage}
    (below : p.dir < USER_DIRS) (present : (pte s q p).present = true) :
    Busy s own (pte s q p).frame := by
  simp [Busy, h.page_owner member below present]

theorem Owned.busy_table (h : Owned s own) {q : DirPtr} (member : q ∈ s.dirs) {i : Index}
    (below : i < USER_DIRS) (present : (pde s q i).present = true) :
    Busy s own (pde s q i).frame := by
  simp [Busy, h.table_owner member below present]

theorem Owned.busy_dir (h : Owned s own) {q : DirPtr} (member : q ∈ s.dirs) :
    Busy s own (q.frame s) := by
  rcases h.dir_owner member with kernel | ⟨k, rfl, heap⟩
  · simp [Busy, kernel]
  · simp [Busy, heap, (h.dirSlots k member).1]

theorem Owned.busy_low (h : Owned s own) {g : Frame} (low : g.toNat < 0x400) : Busy s own g := by
  simp [Busy, h.low g low]

theorem Owned.busy_pde (h : Owned s own) {q : DirPtr} (member : q ∈ s.dirs) (i : Index)
    (present : (pde s q i).present = true) : Busy s own (pde s q i).frame := by
  have ok := h.dirs q member
  rcases index_cases i with below | rfl | rfl | gap | rfl
  · exact h.busy_table member below present
  · rw [pde, ok.code.2]
    exact h.busy_low codePt_low
  · rw [pde, ok.heap.2]
    exact h.busy_low heapPt_low
  · rw [pde, ok.gap i gap.1 gap.2] at present
    cases present
  · rw [pde, ok.self.2]
    exact h.busy_dir member

/-- A frame that is not busy, and no device's, is reached from the heap's own entries only. -/
theorem Owned.unallocated (h : Owned s own) (loose : ¬Busy s own f)
    (far : ∀ k ∈ own.device, (s.slot k).frame ≠ f) : Unallocated s f := by
  intro q member p present same
  rcases p with ⟨i, j⟩
  rcases index_cases i with below | rfl | rfl | gap | rfl
  · exact absurd (same ▸ h.busy_page member below present) loose
  · rw [h.pte_code member, (h.identity j).2] at same
    exact absurd (same ▸ h.busy_low (by bv_omega)) loose
  · rw [show (⟨769#10, j⟩ : VPage) = heapPage j from rfl, h.pte_heap member] at present same
    refine ⟨j, rfl, Bool.eq_false_iff.mpr ?_⟩
    intro inUse
    have owner := h.heap j (fun device => far j device same) present
    rw [same] at owner
    apply loose
    simp [Busy, owner, inUse]
  · have table := pte_pde present
    rw [pde, (h.dirs q member).gap i gap.1 gap.2] at table
    cases table
  · rw [h.pte_self member] at present same
    exact absurd (same ▸ h.busy_pde member j present) loose

theorem Owned.reached_table (h : Owned s own) (bare : ∀ k ∈ own.device, own (s.slot k).frame = .free)
    {q : DirPtr} (member : q ∈ s.dirs) {p : VPage} {i : Index}
    (present : (pte s q p).present = true)
    (owner : own (pte s q p).frame = .table i) :
    (pde s q i).present = true ∧ (pde s q i).frame = (pte s q p).frame := by
  rcases p with ⟨j, k⟩
  rcases index_cases j with below | rfl | rfl | gap | rfl
  · rw [h.page_owner member below present] at owner
    cases owner
  · rw [h.pte_code member, (h.identity k).2, h.low _ (by bv_omega)] at owner
    cases owner
  · rw [show (⟨769#10, k⟩ : VPage) = heapPage k from rfl, h.pte_heap member] at present owner
    by_cases device : k ∈ own.device
    · rw [bare k device] at owner
      cases owner
    · rw [h.heap k device present] at owner
      cases owner
  · have table := pte_pde present
    rw [pde, (h.dirs q member).gap j gap.1 gap.2] at table
    cases table
  · rw [h.pte_self member] at present owner ⊢
    have ok := h.dirs q member
    rcases index_cases k with below | rfl | rfl | gap | rfl
    · rw [h.table_owner member below present] at owner
      cases owner
      exact ⟨present, rfl⟩
    · rw [pde, ok.code.2, h.low _ codePt_low] at owner
      cases owner
    · rw [pde, ok.heap.2, h.low _ heapPt_low] at owner
      cases owner
    · rw [pde, ok.gap k gap.1 gap.2] at present
      cases present
    · rw [pde, ok.self.2] at owner
      exact absurd rfl (h.table_ne_dir owner member)

theorem Kept.busy (kept : Kept s own t own') (busy : Busy s own f) : Busy t own' f := by
  rw [Busy, kept.owners f busy]
  refine ⟨busy.1, ?_⟩
  intro k owner
  have inUse := busy.2 k owner
  rw [kept.slots k inUse, inUse]

/-- What copy on write does to the memory, with the page moved to `f`. -/
structure Moved (s : State) (own : Owners) (page : VPage) (f : Frame) (s' : State) : Prop where
  owned : ∃ own', Owned s' own'
  loose : ¬Busy s own f
  taken : used s'.bitmap f = true
  spared : Spared s s'
  active : s'.active = s.active
  entry : pte s' s.active page = repoint (pte s s.active page) f ∨
    pte s' s.active page = repoint (pte s s.active page &&& 0xFFFFFFFD#32) f
  content : s'.mem f = s.mem (pte s s.active page).frame
  dir : (pde s' s.active page.dir).writable = true ∧
    ((pde s s.active page.dir).writable = true → pde s' s.active page.dir = pde s s.active page.dir)
  others : ∀ p, p.dir < USER_DIRS → p ≠ page → pte s' s.active p =
    if (pde s s.active page.dir).writable = false ∧ p.dir = page.dir
    then pte s s.active p &&& 0xFFFFFFFD#32 else pte s s.active p
  slots : ∀ k, (s.slot k).inUse = true → s'.slot k = s.slot k
  mem : ∀ g, g ≠ HEAP_PT → Busy s own g → ∀ i, ¬(g = s.cr3 ∧ i = page.dir) →
    ((pde s s.active page.dir).writable = true → g ≠ (pde s s.active page.dir).frame) →
      s'.mem g i = s.mem g i

theorem splitPage_moved (h : Owned s own) (below : page.dir < USER_DIRS)
    (present : (pte s s.active page).present = true)
    (writable : (pde s s.active page.dir).writable = true)
    (taken : splitPage s page = some s') : ∃ f, Moved s own page f s' := by
  rcases splitPage_spec h below present taken with ⟨t, own', f, x⟩
  have table := x.table_owner h below present
  have apart : HEAP_PT ≠ (pde s s.active page.dir).frame :=
    (ne_of_owner table (by simp [x.owned.low _ heapPt_low])).symm
  have pdes := x.pdes h below present h.active page.dir
  refine ⟨f, ?_⟩
  constructor
  case owned => exact ⟨own', x.owned_result h below present⟩
  case loose => exact x.loose
  case spared => exact (x.unseen h below present).spared
  case taken =>
    apply (x.owned_result h below present).used
    rw [x.owner]
    exact Owner.noConfusion
  case active =>
    rw [x.result]
    exact x.background.active
  case entry =>
    left
    rw [x.ptes h below present h.active below, if_pos ⟨rfl, pte_pde present, rfl⟩]
  case content =>
    rw [x.result, State.write_mem_ne _ _ _ (ne_of_owner x.owner (by simp [table])), x.content]
  case dir => exact ⟨pdes ▸ writable, fun _ => pdes⟩
  case others =>
    intro p user other
    rw [x.ptes h below present h.active user, if_neg (fun both => other both.1), writable]
    rfl
  case slots =>
    intro k inUse
    rw [x.result, State.slot, State.write_mem_ne _ _ _ apart]
    exact x.kept.slots k inUse
  case mem =>
    intro g other busy i _ unshared
    rw [x.result, State.write_mem_ne _ _ _ (unshared writable), x.kept.mem g other busy]

theorem TableSplit.slot_kept {u : State} {g : Frame} (x : TableSplit s own page u own' g t)
    (k : Index) (inUse : (s.slot k).inUse = true) : t.slot k = s.slot k := by
  have other := x.owned.dir_ne_low x.owned.active heapPt_low (by decide)
  rw [← x.owned.cr3] at other
  rw [x.result, State.slot, State.write_mem_ne _ _ _ other.symm]
  exact x.kept.slots k inUse

theorem splitTable_splitPage_moved (h : Owned s own) (below : page.dir < USER_DIRS)
    (present : (pte s s.active page).present = true)
    (readOnly : (pde s s.active page.dir).writable = false)
    (first : splitTable s page = some t) (second : splitPage t page = some s') :
    ∃ f, Moved s own page f s' := by
  have table := pte_pde present
  rcases splitTable_spec h below table first with ⟨u, own1, g, x⟩
  have t_owned := x.owned_result h below table
  have unseen := x.unseen table
  have entry : pte t t.active page = pte s s.active page &&& 0xFFFFFFFD#32 := by
    rw [unseen.active, x.ptes table h.active below, if_pos ⟨rfl, rfl⟩]
  have present' : (pte t t.active page).present = true := by
    rw [entry, dropWrite_present, present]
  rcases splitPage_spec t_owned below present' second with ⟨v, own2, f, y⟩
  have moved_table : pde t t.active page.dir = repoint (pde s s.active page.dir) g := by
    rw [unseen.active, x.pdes h.active, if_pos ⟨rfl, rfl⟩]
  have cr3 : u.cr3 = s.cr3 := x.background.cr3
  have cr3_ne : HEAP_PT ≠ u.cr3 := by
    rw [x.owned.cr3]
    exact (x.owned.dir_ne_low x.owned.active heapPt_low (by decide)).symm
  have slot (k : Index) : t.slot k = u.slot k := by
    rw [x.result, State.slot, State.write_mem_ne _ _ _ cr3_ne]
    rfl
  -- the entry in the directory is all that the first half changes of what is busy
  have kept (a : Frame) (other : a ≠ HEAP_PT) (busy : Busy s own a) :
      Busy t own1 a ∧ ∀ i, ¬(a = s.cr3 ∧ i = page.dir) → t.mem a i = s.mem a i := by
    constructor
    · have inside := x.kept.busy busy
      simp only [Busy, slot]
      exact inside
    · intro i apart
      rw [x.result, ← x.kept.mem a other busy]
      by_cases here : a = u.cr3
      · rw [here, State.write_mem_self]
        exact Function.update_of_ne (fun same => apart ⟨here.trans cr3, same⟩) ..
      · rw [State.write_mem_ne _ _ _ here]
  have loose : ¬Busy s own f := by
    intro busy
    have apart : f ≠ HEAP_PT := ne_of_owner y.owner (by simp [y.owned.low _ heapPt_low])
    exact y.loose (kept f apart busy).1
  have page_ne : (pte s s.active page).frame ≠ HEAP_PT :=
    ne_of_owner (h.page_owner h.active below present) (by simp [h.low _ heapPt_low])
  have page_cr3 : (pte s s.active page).frame ≠ s.cr3 := by
    rw [h.cr3]
    exact ((h.loose_page (h.page_owner h.active below present)).dir _ h.active).symm
  have table2 := y.table_owner t_owned below present'
  rw [moved_table, repoint_frame] at table2
  have apart : HEAP_PT ≠ g := (ne_of_owner table2 (by simp [y.owned.low _ heapPt_low])).symm
  have active : s.active ∈ t.dirs := unseen.dirs ▸ h.active
  have result := y.result
  rw [moved_table, repoint_frame] at result
  refine ⟨f, ?_⟩
  constructor
  case owned => exact ⟨own2, y.owned_result t_owned below present'⟩
  case loose => exact loose
  case spared => exact unseen.spared.trans (y.unseen t_owned below present').spared
  case taken =>
    apply (y.owned_result t_owned below present').used
    rw [y.owner]
    exact Owner.noConfusion
  case active =>
    rw [result]
    exact y.background.active.trans unseen.active
  case entry =>
    right
    rw [← entry, ← unseen.active, y.ptes t_owned below present' t_owned.active below,
      if_pos ⟨rfl, pte_pde present', rfl⟩]
  case content =>
    rw [result, State.write_mem_ne _ _ _ (ne_of_owner y.owner (by simp [table2])), y.content,
      entry, dropWrite_frame]
    funext i
    exact (kept _ page_ne (h.busy_page h.active below present)).2 i (fun both => page_cr3 both.1)
  case dir =>
    rw [y.pdes t_owned below present' active, x.pdes h.active, if_pos ⟨rfl, rfl⟩, repoint_writable,
      readOnly]
    exact ⟨rfl, fun impossible => absurd impossible Bool.false_ne_true⟩
  case others =>
    intro p user other
    rw [y.ptes t_owned below present' active user, if_neg (fun both => other both.1),
      x.ptes table h.active user]
    simp only [readOnly, true_and]
  case slots =>
    intro k inUse
    have same := (slot k).trans (x.kept.slots k inUse)
    rw [result, State.slot, State.write_mem_ne _ _ _ apart]
    exact (y.kept.slots k (same ▸ inUse)).trans same
  case mem =>
    intro a other busy i spared _
    have a_g : a ≠ g := fun equal => x.loose (equal ▸ busy)
    rcases kept a other busy with ⟨inside, same⟩
    rw [result, State.write_mem_ne _ _ _ a_g, y.kept.mem a other inside, same i spared]

theorem copyOnWrite_moved (h : Owned s own) (below : page.dir < USER_DIRS)
    (present : (pte s s.active page).present = true) (room : Room s own.device 2 4) :
    ∃ s' f, copyOnWrite s page = some s' ∧ Moved s own page f s' ∧
      ∀ k ∈ own.device, used s'.bitmap (s.slot k).frame = false := by
  have first : load s (pageEntry (pageEntry page).toVPage) = some (pde s s.active page.dir) := by
    rw [load_dirEntry h, h.pde_cr3]
  cases writable : (pde s s.active page.dir).writable with
  | true =>
      rcases splitPage_room h below present room with ⟨s', second, beyond⟩
      rcases splitPage_moved h below present writable second with ⟨f, moved⟩
      refine ⟨s', f, ?_, moved, beyond⟩
      simp [copyOnWrite, first, writable, second]
  | false =>
      have table := pte_pde present
      rcases splitTable_room h table room with ⟨t, split, left⟩
      rcases splitTable_spec h below table split with ⟨u, own1, g, x⟩
      have t_owned := x.owned_result h below table
      have unseen := x.unseen table
      have present' : (pte t t.active page).present = true := by
        rw [unseen.active, unseen.present _ h.active page below, present]
      rw [← x.kept.device] at left
      rcases splitPage_room t_owned below present' left with ⟨s', second, beyond⟩
      rcases splitTable_splitPage_moved h below present writable split second with ⟨f, moved⟩
      refine ⟨s', f, ?_, moved, ?_⟩
      · simp [copyOnWrite, first, writable, split, second]
      · intro k member
        have same := x.slot_kept k (h.device k member)
        rw [x.kept.device] at beyond
        rw [← same]
        exact beyond k member

theorem Moved.frame (x : Moved s own page f s') (present : (pte s s.active page).present = true) :
    (pte s' s.active page).present = true ∧ (pte s' s.active page).frame = f ∧
      (pte s' s.active page).writable = true := by
  rcases x.entry with same | same
  · rw [same, repoint_present, repoint_frame, repoint_writable]
    exact ⟨present, rfl, rfl⟩
  · rw [same, repoint_present, dropWrite_present, repoint_frame, repoint_writable]
    exact ⟨present, rfl, rfl⟩

theorem Moved.copied (x : Moved s own page f s') (below : page.dir < USER_DIRS)
    (present : (pte s s.active page).present = true) : userWrite s' page = some (f, true) := by
  rcases x.owned with ⟨own', owned⟩
  rcases x.frame present with ⟨mapped, frame, writable⟩
  have member : s.active ∈ s'.dirs := x.active ▸ owned.active
  have user := owned.pte_user member below mapped
  have dir := (owned.dirs _ member).user page.dir below (pte_pde mapped)
  rw [userWrite_eq owned, x.active, if_pos mapped, frame, user, writable, x.dir.1, pde, dir]
  rfl

theorem Moved.others_kept (x : Moved s own page f s') {p : VPage} (below : p.dir < USER_DIRS)
    (other : p ≠ page) (present : (pte s s.active p).present = true) :
    (pte s' s'.active p).present = true ∧
      (pte s' s'.active p).frame = (pte s s.active p).frame ∧
      ((pde s s.active page.dir).writable = false → p.dir = page.dir →
        (pte s' s'.active p).writable = false) := by
  rw [x.active, x.others p below other]
  split
  · rw [dropWrite_present, dropWrite_frame]
    refine ⟨present, rfl, fun _ _ => ?_⟩
    simp [writable]
  · rename_i apart
    exact ⟨present, rfl, fun readOnly same => absurd ⟨readOnly, same⟩ apart⟩

theorem Moved.served_iff (x : Moved s own page f s') (h : Owned s own)
    (beyond : ∀ k ∈ own.device, used s'.bitmap (s.slot k).frame = false)
    (below : page.dir < USER_DIRS) (present : (pte s s.active page).present = true) :
    Served s page s' ↔ TablePrivate s page := by
  -- the frames of devices are nobody's, and stay so
  have bare (k : Index) (member : k ∈ own.device) : own (s.slot k).frame = .free := by
    by_contra owned
    have marked := h.used _ owned
    rw [(x.spared _ (beyond k member)).1] at marked
    cases marked
  have table := pte_pde present
  have owner := h.table_owner h.active below table
  constructor
  · intro served writable q member other ⟨_, mapped, same⟩
    have reach : pte s q ⟨1023#10, page.dir⟩ = pde s q page.dir := h.pte_self member page.dir
    have frame : (pte s q ⟨1023#10, page.dir⟩).frame = (pde s s.active page.dir).frame := by
      rw [reach, same]
    have kept := served.elsewhere q member other ⟨⟨1023#10, page.dir⟩, page.table⟩
      (reach ▸ mapped) ?_ ?_ ?_
    · have old : s.mem (pde s s.active page.dir).frame page.table = pte s s.active page :=
        (pte_present page table).symm
      have new : s'.mem (pde s s.active page.dir).frame page.table = pte s' s.active page := by
        rw [pte_present page (x.dir.2 writable ▸ table), x.dir.2 writable]
      have equal : f = (pte s s.active page).frame := by
        rw [frame, old, new] at kept
        rw [← kept, (x.frame present).2.1]
      exact x.loose (equal ▸ h.busy_page h.active below present)
    · intro both
      rw [frame, h.cr3] at both
      exact h.table_ne_dir owner h.active both.1.symm
    · intro heap
      rw [frame] at heap
      rw [heap, h.low _ heapPt_low] at owner
      cases owner
    · intro k slot equal
      by_cases device : k ∈ own.device
      · exact h.device k device
      · have heap := h.heap k device slot
        rw [equal, frame, owner] at heap
        cases heap
  · intro unshared
    have far (k : Index) (member : k ∈ own.device) : (s.slot k).frame ≠ f := by
      intro equal
      have unmarked := beyond k member
      rw [equal, x.taken] at unmarked
      cases unmarked
    refine ⟨⟨f, x.copied below present, h.unallocated x.loose far, x.content⟩, ?_, ?_⟩
    · intro p user other mapped
      exact x.others_kept user other mapped
    · intro q member other v mapped apart entry allocated
      by_cases heap : (pte s q v.toVPage).frame = HEAP_PT
      · have slot := x.slots v.word (entry heap)
        rw [heap]
        exact slot
      by_cases device : ∃ k ∈ own.device, v.toVPage = heapPage k
      · rcases device with ⟨k, device, page_eq⟩
        have reach : pte s q v.toVPage = s.slot k := by rw [page_eq, h.pte_heap member]
        rw [reach, (x.spared _ (beyond k device)).2]
      · have held : Held s own (pte s q v.toVPage).frame :=
          ⟨q, member, _, fun k there same => device ⟨k, there, same⟩, mapped, rfl⟩
        apply x.mem _ heap (h.busy held allocated) _ apart
        intro writable same
        rcases h.reached_table bare member mapped (same ▸ owner) with ⟨there, equal⟩
        exact unshared writable q member other ⟨table, there, (equal.trans same).symm⟩

theorem pageFault_moved (h : Owned s own) (allowed : Bool) {vaddr : BitVec 32}
    (user : vaddr < USER_LIMIT) (present : (pte s s.active (decode vaddr).toVPage).present = true)
    (room : Room s own.device 2 4) :
    ∃ s' f, pageFault s allowed WRITE_PROTECTION vaddr = some s' ∧
      Moved s own (decode vaddr).toVPage f s' ∧
        ∀ k ∈ own.device, used s'.bitmap (s.slot k).frame = false := by
  have taken : pageFault s allowed WRITE_PROTECTION vaddr =
      copyOnWrite s (decode vaddr).toVPage := by
    simp [pageFault, WRITE_PROTECTION, user, BitVec.not_le.mpr user]
  rw [taken]
  exact copyOnWrite_moved h (decode_below vaddr user) present room

theorem fault_present (h : Owned s own) (fault : (userWrite s page).any (!·.2) = true) :
    (pte s s.active page).present = true := by
  rw [userWrite_eq h] at fault
  split at fault
  · assumption
  · cases fault

/-- A write-protection fault is served exactly for a process that does not write into a table
it shares. -/
theorem pageFault_served_iff (h : Owned s own) (allowed : Bool) {vaddr : BitVec 32}
    (user : vaddr < USER_LIMIT)
    (fault : (userWrite s (decode vaddr).toVPage).any (!·.2) = true)
    (room : Room s own.device 2 4) :
    (∃ s', pageFault s allowed WRITE_PROTECTION vaddr = some s' ∧
      Served s (decode vaddr).toVPage s') ↔ TablePrivate s (decode vaddr).toVPage := by
  have present := fault_present h fault
  rcases pageFault_moved h allowed user present room with ⟨s', f, done, moved, beyond⟩
  have served_iff := moved.served_iff h beyond (decode_below vaddr user) present
  rw [done]
  constructor
  · intro ⟨t, same, served⟩
    cases same
    exact served_iff.mp served
  · intro unshared
    exact ⟨s', rfl, served_iff.mpr unshared⟩

end Served

/-- Two pages of user memory, a fork, and a step to the child. -/
def sampleChild : List Event :=
  [.kmalloc, .mmap 0#32 8192#32 0#8, .fork (heapPage 2#10), .scheduler (.heap 5#10)]

/-- Then the child writes to the first page, and forks. -/
def sampleGrandchild : List Event :=
  sampleChild ++ [.store sampleAddr 7#32, .fork (heapPage 2#10)]

/-- The events happen after the controller's registers have been mapped. -/
def sampleBooted (events : List Event) : Option (State × State) := do
  let s ← runList operate sampleBoot bootDevices
  let t ← runList step s events
  return (s, t)

theorem sample_reserved : ∀ e ∈ sampleGrandchild, ∀ s, Reserved s e := by
  have range : UserRange 0#32 8192#32 0#8 := by
    rw [UserRange]
    decide
  simp [sampleGrandchild, sampleChild, Reserved, range]

theorem bootDevices_owned (reached : runList operate sampleBoot bootDevices = some s) :
    ∃ own, Owned s own ∧ own.device = {0#10, 1#10} := by
  have slots : ((mmiomalloc sampleBoot 0xFEBF0000#32).bind fun x =>
      (mmiomalloc x.2 0xFEBF1000#32).map fun y => (x.1, y.1)) = some (0#10, 1#10) := by
    decide +kernel
  simp only [bootDevices, runList, operate, Option.bind_eq_some_iff, Option.map_eq_some_iff,
    Option.some.injEq] at reached
  rcases reached with ⟨t, ⟨⟨k, _⟩, first, rfl⟩, u, ⟨⟨k', _⟩, second, rfl⟩, rfl⟩
  rw [first, Option.bind_some] at slots
  dsimp only at slots
  rcases Option.map_eq_some_iff.mp slots with ⟨_, again, same⟩
  rw [second] at again
  cases again
  cases same
  have booted : Owned sampleBoot bootOwners := initVmm_sample ▸ initVmm_owned fun _ _ => 0#32
  rcases mmiomalloc_device booted (by decide) first with ⟨own1, owned1, device1⟩
  rcases mmiomalloc_device owned1 (by decide) second with ⟨own2, owned2, device2⟩
  refine ⟨own2, owned2, ?_⟩
  have none : bootOwners.device = ∅ := rfl
  rw [device2, device1, none, insert_empty_eq, Set.pair_comm]
  rfl

theorem sampleBooted_run {events : List Event} {s t : State}
    (ok : ∀ e ∈ events, ∀ s, Reserved s e) (sample : sampleBooted events = some (s, t)) :
    Run operate Orderly (initVmm fun _ _ => 0#32) t ∧
      ∃ own, Owned t own ∧ own.device = {0#10, 1#10} := by
  simp only [sampleBooted, Option.bind_eq_bind, Option.bind_eq_some_iff, Option.pure_def,
    Option.some.injEq, Prod.mk.injEq] at sample
  rcases sample with ⟨booted, ready, _, reached, rfl, rfl⟩
  rcases bootDevices_owned ready with ⟨own, h, device⟩
  have boot : Run operate Orderly sampleBoot booted :=
    Run.of_runList _ bootDevices_orderly ready
  have run := Run.of_runList events ok reached
  rcases reserved_run_owned h run with ⟨own', owned, same⟩
  rw [initVmm_sample]
  exact ⟨boot.trans (reserved_run_operates run), own', owned, same.trans device⟩

/-- Pages and frames that are left behind the samples, the devices behind these. -/
def sampleRoom (s : State) : Bool :=
  [900#10, 901#10].all (fun k => !(s.slot k).inUse) &&
    ([0x900#20, 0x901#20, 0x902#20, 0x903#20].all (fun f => !used s.bitmap f) &&
      [0#10, 1#10].all fun k => !used s.bitmap (s.slot k).frame &&
        [0x900#20, 0x901#20, 0x902#20, 0x903#20].all (· < (s.slot k).frame))

theorem sample_room {s : State} (spare : sampleRoom s = true) : Room s {0#10, 1#10} 2 4 := by
  rcases (Bool.and_eq_true_iff.mp spare) with ⟨slots, rest⟩
  rcases (Bool.and_eq_true_iff.mp rest) with ⟨frames, devices⟩
  refine ⟨⟨{900#10, 901#10}, by decide, ?_⟩,
    {0x900#20, 0x901#20, 0x902#20, 0x903#20}, by decide, ?_, ?_⟩
  · simpa using slots
  · simpa using frames
  · simpa using devices

theorem first_write_served :
    ∃ s, Run operate Orderly (initVmm fun _ _ => 0#32) s ∧
      ∃ s', pageFault s false WRITE_PROTECTION 0x10000000#32 = some s' ∧
        Served s (decode 0x10000000#32).toVPage s' := by
  have check : (sampleBooted sampleChild).any (fun (_, s) =>
      (userWrite s (decode 0x10000000#32).toVPage).any (!·.2) ∧
        (pde s s.active (decode 0x10000000#32).dir).writable = false ∧ sampleRoom s) = true := by
    decide +kernel
  rcases (Option.any_eq_true _ _).mp check with ⟨⟨_, s⟩, sample, facts⟩
  rcases of_decide_eq_true facts with ⟨fault, readOnly, spare⟩
  rcases sampleBooted_run (fun e member => sample_reserved e (List.mem_append_left _ member)) sample
    with ⟨run, own, h, device⟩
  have room := sample_room spare
  rw [← device] at room
  have unshared : TablePrivate s (decode 0x10000000#32).toVPage := by
    intro writable
    exact absurd (writable.symm.trans readOnly) (by decide)
  exact ⟨s, run, (pageFault_served_iff h false (by decide) fault room).mpr unshared⟩

/-- Its next write to the same table, after it has forked, moves the page of its own child. -/
theorem second_write_shared :
    ∃ s own, Run operate Orderly (initVmm fun _ _ => 0#32) s ∧ Owned s own ∧
      (userWrite s (decode 0x10001000#32).toVPage).any (!·.2) = true ∧ Room s own.device 2 4 ∧
      ¬∃ s', pageFault s false WRITE_PROTECTION 0x10001000#32 = some s' ∧
        Served s (decode 0x10001000#32).toVPage s' := by
  have check : (sampleBooted sampleGrandchild).any (fun (_, s) =>
      (userWrite s (decode 0x10001000#32).toVPage).any (!·.2) ∧
        (pde s s.active (decode 0x10001000#32).dir).writable = true ∧
        s.active ≠ .heap 9#10 ∧ .heap 9#10 ∈ s.dirs ∧
        (pde s (.heap 9#10) (decode 0x10001000#32).dir).present = true ∧
        (pde s s.active (decode 0x10001000#32).dir).frame =
          (pde s (.heap 9#10) (decode 0x10001000#32).dir).frame ∧ sampleRoom s) = true := by
    decide +kernel
  rcases (Option.any_eq_true _ _).mp check with ⟨⟨_, s⟩, sample, facts⟩
  rcases of_decide_eq_true facts with ⟨fault, writable, apart, member, mapped, same, spare⟩
  rcases sampleBooted_run sample_reserved sample with ⟨run, own, h, device⟩
  have room := sample_room spare
  rw [← device] at room
  refine ⟨s, own, run, h, fault, room, ?_⟩
  have present := fault_present h fault
  rcases pageFault_moved h false (by decide) present room with ⟨s', f, done, moved, beyond⟩
  rw [done]
  intro ⟨t, same_state, served⟩
  cases same_state
  have unshared := (moved.served_iff h beyond (decode_below _ (by decide)) present).mp served
  exact unshared writable _ member apart.symm ⟨pte_pde present, mapped, same⟩

end TitorOS.Barrel.Vmm
