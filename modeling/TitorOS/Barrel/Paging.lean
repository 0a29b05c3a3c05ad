import TitorOS.Barrel.Mapping

/-! Runs of the memory manager from the state `init_vmm` leaves: a frame that an entry maps
is marked used as long as `mmiomalloc` is given marked frames. -/

namespace TitorOS.Barrel.Vmm

open TitorOS.Lib TitorOS.Lib.Word TitorOS.Barrel.Pmm

/-- `store` and `read` are a word written by user mode and by a read system call; `fill` is
the kernel writing to a page it holds. -/
inductive Event where
  | kmalloc
  | kfree (slot : Index)
  | mmiomalloc (paddr : Word)
  | mmap (hint length : BitVec 32) (flags : BitVec 8)
  | store (v : VAddr) (w : Word)
  | read (v : VAddr) (w : Word)
  | fork (fds : VPage)
  | scheduler (p : DirPtr)
  | fill (slot : Index) (content : Index → Word)

def step (s : State) : Event → Option State
  | .kmalloc => (kmalloc s).map fun (slot, s) => { s with live := slot :: s.live }
  | .kfree slot =>
      if slot ∈ s.live then kfree { s with live := s.live.filter (· ≠ slot) } slot else none
  | .mmiomalloc paddr => (mmiomalloc s paddr).map fun (slot, s) => { s with live := slot :: s.live }
  | .mmap hint length flags => mmap s hint length flags
  | .store v w => userStore s v w
  | .read v w => kernelStore s v w
  | .fork fds => fork s fds
  | .scheduler p => if p ∈ s.dirs then switch s p else none
  | .fill slot content =>
      if slot ∈ s.live then (pageFrame s (heapPage slot)).map (s.writeFrame · content) else none

/-- What `mmiomalloc` and `mmap` take for granted: the page is set aside and nowhere
mapped; the range is in user space. -/
def Reserved (s : State) : Event → Prop
  | .mmiomalloc paddr =>
      paddr &&& 0x00000FFF#32 = 0#32 ∧ used s.bitmap paddr.frame = true ∧ ¬Mapped s paddr.frame
  | .mmap hint length flags => UserRange hint length flags
  | _ => True

/-- `device` is `mmiomalloc` for the registers of a device, which no one gives back and the kernel
writes to as registers only. -/
inductive Operation where
  | memory (e : Event)
  | device (paddr : Word)

def operate (s : State) : Operation → Option State
  | .memory e => step s e
  | .device paddr => (mmiomalloc s paddr).map Prod.snd

/-- The registers of a device start at a page; what they lie in need not be marked. -/
def Orderly (s : State) : Operation → Prop
  | .memory e => Reserved s e
  | .device paddr => paddr &&& 0x00000FFF#32 = 0#32

def FramesSafe (s : State) : Prop :=
  (∀ f, Mapped s f → used s.bitmap f = true) ∧
    ∀ f bitmap, pmalloc s.bitmap = some (f, bitmap) → ¬Mapped s f

variable {s s' : State} {own : Owners}

theorem Owned.framesSafe (h : Owned s own) (empty : own.device = ∅) : FramesSafe s := by
  have marked (f : Frame) (mapped : Mapped s f) : Pmm.used s.bitmap f = true :=
    h.used f (h.held_owner (mapped.held empty))
  refine ⟨marked, ?_⟩
  intro f bitmap taken mapped
  have unused := (pmalloc_spec _ _ _ taken).1
  rw [marked f mapped] at unused
  cases unused

theorem Owned.hold (h : Owned s own) {k : Index} (inUse : (s.slot k).inUse = true)
    (ordinary : k ∉ own.device) (apart : .heap k ∉ s.dirs) :
    Owned { s with live := k :: s.live } own := by
  refine { h with live := ?_ }
  intro k' member
  rcases List.mem_cons.mp member with rfl | old
  · exact ⟨inUse, ordinary, apart⟩
  · exact h.live k' old

theorem step_owned (h : Owned s own) {e : Event} (ok : Reserved s e) (taken : step s e = some s') :
    ∃ own', Owned s' own' ∧ own'.device = own.device := by
  cases e with
  | kmalloc =>
      rcases Option.map_eq_some_iff.mp taken with ⟨⟨k, t⟩, allocated, rfl⟩
      rcases kmalloc_fresh h allocated with ⟨own', fresh⟩
      exact ⟨own', fresh.owned.hold fresh.inUse (fresh.ordinary h)
        (fresh.background.dirs ▸ h.not_dir fresh.idle), fresh.device⟩
  | kfree k =>
      simp only [step] at taken
      split at taken
      · rename_i held
        have owned : Owned { s with live := s.live.filter (· ≠ k) } own := by
          refine { h with live := ?_ }
          intro k' member
          exact h.live k' (List.mem_filter.mp member).1
        rw [kfree_eq owned.heapTable] at taken
        cases taken
        rcases h.live k held with ⟨_, ordinary, apart⟩
        exact ⟨own, owned.kfree ordinary apart (by simp), rfl⟩
      · cases taken
  | mmiomalloc paddr =>
      rcases Option.map_eq_some_iff.mp taken with ⟨⟨k, t⟩, allocated, rfl⟩
      rcases ok with ⟨aligned, marked, unmapped⟩
      rcases mmiomalloc_owned h aligned marked unmapped allocated with
        ⟨⟨own', owned, device⟩, dirs, _, inUse, ordinary, apart⟩
      exact ⟨own', owned.hold inUse (device ▸ ordinary) (dirs ▸ apart), device⟩
  | mmap hint length flags => exact (mmap_remapped h ok taken).1
  | store v w =>
      rcases userStore_cases h taken with
        ⟨_, _, ⟨_, _, stored⟩ | ⟨t, own1, _, split, _, stored⟩⟩
      · exact stored.owned
      · rcases stored.owned with ⟨own', owned, device⟩
        exact ⟨own', owned, device.trans split⟩
  | read v w => exact (kernelStore_stored h taken).2.2.owned
  | fork fds =>
      rcases fork_forked h taken with ⟨k, t, own', forked, device, rfl⟩
      exact ⟨own', forked.linked h, device⟩
  | scheduler p =>
      simp only [step] at taken
      split at taken
      · rename_i member
        exact ⟨own, (switch_owned h member taken).1, rfl⟩
      · cases taken
  | fill k content =>
      simp only [step] at taken
      split at taken
      · rename_i held
        rcases h.live k held with ⟨inUse, ordinary, apart⟩
        have present := h.inUse k inUse
        rw [pageFrame_heap h.heapTable, if_pos present] at taken
        cases taken
        exact ⟨own, (h.fill ordinary present apart content).1, rfl⟩
      · cases taken

def bootOwners : Owners := ⟨fun f => if f.toNat < 0x400 then .kernel else .free, ∅⟩

theorem initVmm_dirOk (ram : Mem) : DirOk (initVmm ram).mem bootOwners 0x300#20 := by
  have row (i : Index) : (initVmm ram).mem 0x300#20 i =
      if i = 768#10 then address 0x301#20 + 0b100000000011#32
      else if i = 769#10 then address 0x302#20 + 0b100000000011#32
      else if i = 1023#10 then address 0x300#20 + 0b100000000011#32
      else 0#32 := by
    simp [initVmm]
  have user (i : Index) (below : i < USER_DIRS) : (initVmm ram).mem 0x300#20 i = 0#32 := by
    simp only [USER_DIRS] at below
    rw [row, if_neg (by bv_omega), if_neg (by bv_omega), if_neg (by bv_omega)]
  constructor
  case code =>
    rw [row, if_pos rfl]
    decide
  case heap =>
    rw [row, if_neg (by decide), if_pos rfl]
    decide
  case self =>
    rw [row, if_neg (by decide), if_neg (by decide), if_pos rfl]
    decide
  case gap =>
    intro i low high
    rw [row, if_neg (by bv_omega), if_neg (by bv_omega), if_neg (by bv_omega)]
    rfl
  case supervisor =>
    intro i _ _
    rw [row]
    split
    · decide
    · split
      · decide
      · split <;> decide
  case user =>
    intro i below present
    rw [user i below, present_zero] at present
    cases present
  case tables =>
    intro i below present
    rw [user i below, present_zero] at present
    cases present

theorem initVmm_slot (ram : Mem) (k : Index) : (initVmm ram).slot k = 0#32 := by
  simp [State.slot, initVmm, HEAP_PT]

theorem initVmm_owned (ram : Mem) : Owned (initVmm ram) bootOwners := by
  have code (j : Index) : (initVmm ram).mem CODE_PT j =
      address (j.setWidth 20) + 0b100000000011#32 := by
    simp [initVmm, CODE_PT]
  constructor
  case low => exact fun f low => if_pos low
  case used =>
    intro f taken
    have low : f.toNat < 0x400 := by
      by_contra high
      exact taken (if_neg high)
    simp only [initVmm, used_init]
    exact decide_eq_true (by omega)
  case identity =>
    intro j
    rw [code, entry_frame _ _ (by decide)]
    exact ⟨entry_getLsbD _ _ (by decide) 0 (by decide), rfl⟩
  case heap =>
    intro k _ present
    rw [initVmm_slot, present_zero] at present
    cases present
  case device => exact fun k member => absurd member (Set.notMem_empty k)
  case inUse =>
    intro k inUse
    rw [initVmm_slot, show Word.inUse 0#32 = false from rfl] at inUse
    cases inUse
  case dirs =>
    intro q member
    cases List.mem_singleton.mp member
    exact initVmm_dirOk ram
  case dirSlots =>
    intro k member
    cases List.mem_singleton.mp member
  case live =>
    intro k member
    cases member
  case active => exact List.mem_singleton.mpr rfl
  case cr3 => rfl

theorem mmiomalloc_isSome (h : Owned s own) (idle : (s.slot 0#10).inUse = false) (f : Frame)
    (free : Pmm.used s.bitmap f = false) (paddr : Word) : (mmiomalloc s paddr).isSome = true := by
  rcases Option.isSome_iff_exists.mp (kmalloc_isSome h.heapTable idle free) with ⟨⟨k, t⟩, allocated⟩
  rcases kmalloc_fresh h allocated with ⟨own', fresh⟩
  simp only [mmiomalloc, allocated, Option.bind_eq_bind, Option.bind_some,
    load_heapEntry fresh.owned.heapTable, store_bitmap, store_heapEntry fresh.owned.heapTable, Option.map_some]
  rfl

theorem boot_mmiomalloc (ram : Mem) (paddr : Word) :
    ∃ k t, mmiomalloc (initVmm ram) paddr = some (k, t) ∧
      step (initVmm ram) (.mmiomalloc paddr) = some { t with live := k :: t.live } := by
  have free : Pmm.used (initVmm ram).bitmap 0x800#20 = false := by
    simp only [initVmm, used_init]
    rfl
  have idle : ((initVmm ram).slot 0#10).inUse = false := by
    rw [initVmm_slot]
    rfl
  have goes := mmiomalloc_isSome (initVmm_owned ram) idle _ free paddr
  rcases Option.isSome_iff_exists.mp goes with ⟨⟨k, t⟩, taken⟩
  refine ⟨k, t, taken, ?_⟩
  simp only [step, taken, Option.map_some]

theorem reserved_run_owned (h : Owned s own) (run : Run step Reserved s s') :
    ∃ own', Owned s' own' ∧ own'.device = own.device := by
  apply run.invariant (fun t => ∃ own' : Owners, Owned t own' ∧ own'.device = own.device)
    ⟨own, h, rfl⟩
  rintro t e u ⟨own1, owned, same⟩ ok taken
  rcases step_owned owned ok taken with ⟨own2, owned', device⟩
  exact ⟨own2, owned', device.trans same⟩

theorem reserved_owned (ram : Mem) (run : Run step Reserved (initVmm ram) s) :
    ∃ own, Owned s own ∧ own.device = ∅ := reserved_run_owned (initVmm_owned ram) run

theorem operate_owned (h : Owned s own) {op : Operation} (ok : Orderly s op)
    (taken : operate s op = some s') : ∃ own', Owned s' own' := by
  cases op with
  | memory e =>
      rcases step_owned h ok taken with ⟨own', owned, _⟩
      exact ⟨own', owned⟩
  | device paddr =>
      rcases Option.map_eq_some_iff.mp taken with ⟨⟨k, t⟩, allocated, rfl⟩
      rcases mmiomalloc_device h ok allocated with ⟨own', owned, _⟩
      exact ⟨own', owned⟩

theorem reserved_run_operates (run : Run step Reserved s s') : Run operate Orderly s s' := by
  induction run with
  | refl => exact .refl
  | tail _ allowed taken ih => exact ih.tail (a := .memory _) allowed taken

/-- Every state that the kernel comes to has an owner map, with the devices mapped or without. -/
theorem reachable_owned (ram : Mem) (run : Run operate Orderly (initVmm ram) s) :
    ∃ own, Owned s own := by
  apply run.invariant (fun s => ∃ own, Owned s own) ⟨bootOwners, initVmm_owned ram⟩
  rintro t op u ⟨own, h⟩ ok taken
  exact operate_owned h ok taken

/-- In every run from boot that gives `mmiomalloc` reserved frames and keeps `mmap` in user
space, no mapped frame is ever up for allocation. -/
theorem reserved_run_framesSafe (ram : Mem) (run : Run step Reserved (initVmm ram) s) :
    FramesSafe s := by
  rcases reserved_owned ram run with ⟨own, h, empty⟩
  exact h.framesSafe empty

theorem reserved_page_framesSafe :
    ∃ s, Run step Reserved (initVmm fun _ _ => 0#32) s ∧ s.live ≠ [] ∧ FramesSafe s := by
  have ok : Reserved (initVmm fun _ _ => 0#32) (.mmiomalloc 0x400000#32) := by
    refine ⟨by decide, ?_, ?_⟩
    · simp only [initVmm, used_init]
      rfl
    · intro mapped
      exact (initVmm_owned _).held_owner (mapped.held rfl) (by decide)
  rcases boot_mmiomalloc (fun _ _ => 0#32) 0x400000#32 with ⟨k, t, _, taken⟩
  have run := Run.refl.tail ok taken
  exact ⟨_, run, List.cons_ne_nil k t.live, reserved_run_framesSafe _ run⟩

theorem mmiomalloc_unmarked (h : Owned s own) {paddr : Word} {k : Index}
    (aligned : paddr &&& 0x00000FFF#32 = 0#32) (unmarked : Pmm.used s.bitmap paddr.frame = false)
    (taken : mmiomalloc s paddr = some (k, s')) :
    Mapped s' paddr.frame ∧ Pmm.used s'.bitmap paddr.frame = false := by
  rcases mmiomalloc_eq h.heapTable taken with ⟨t, allocated, rfl⟩
  rcases kmalloc_fresh h allocated with ⟨own', fresh⟩
  rcases deviceEntry paddr (t.slot k) aligned with ⟨w_frame, w_present, _⟩
  rw [fresh.present] at w_present
  generalize paddr + (t.slot k &&& 0x00000FFF#32) = w at *
  constructor
  · have not_dir : .heap k ∉ t.dirs := fresh.background.dirs ▸ h.not_dir fresh.idle
    have kept := fresh.owned.background_writeHeap k w not_dir
    have table := (fresh.owned.dirs _ fresh.owned.active).heap
    have entry : pte (t.write HEAP_PT k w) t.active (heapPage k) = w := by
      rw [← pde, ← kept.pdes _ fresh.owned.active] at table
      rw [pte_present (heapPage k) table.1]
      exact (congrArg (fun f => (t.write HEAP_PT k w).mem f k) table.2).trans
        ((t.slot_write k k w).trans (if_pos rfl))
    refine ⟨t.active, fresh.owned.active, heapPage k, ?_⟩
    rw [← w_frame]
    exact ⟨(congrArg Word.present entry).trans w_present, congrArg Word.frame entry⟩
  · simp only [used_pfree]
    rcases kmalloc_slot h.heapTable allocated with ⟨_, _, ⟨_, rfl⟩ | ⟨f, bitmap, claimed, rfl⟩⟩
    · rw [show (State.write s HEAP_PT k _).bitmap = s.bitmap from rfl, unmarked, Bool.and_false]
    · rw [State.slot_write, if_pos rfl, entry_frame _ _ (by decide),
        show (State.write _ HEAP_PT k _).bitmap = bitmap from rfl,
        (pmalloc_spec _ _ _ claimed).2, used_puse, unmarked]
      simp

/-- The registers of a device, at an address no RAM has. -/
theorem device_page_unmarked :
    ∃ s, Run step anyStep (initVmm fun _ _ => 0#32) s ∧ ¬FramesSafe s := by
  rcases boot_mmiomalloc (fun _ _ => 0#32) 0xFEBF0000#32 with ⟨k, t, taken, stepped⟩
  refine ⟨_, Run.refl.tail trivial stepped, ?_⟩
  have unmarked : Pmm.used (initVmm fun _ _ => 0#32).bitmap (Word.frame 0xFEBF0000#32) = false := by
    simp only [initVmm, used_init]
    decide
  rcases mmiomalloc_unmarked (initVmm_owned _) (by decide) unmarked taken with ⟨mapped, free⟩
  intro safe
  have marked := safe.1 _ mapped
  exact absurd (marked.symm.trans free) (by decide)

end TitorOS.Barrel.Vmm
