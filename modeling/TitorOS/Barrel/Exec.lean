import TitorOS.Barrel.Isolation
import TitorOS.Barrel.Demand

/-! The memory side of `exec` in `kernel/scheduler.c`: a fresh address space below the kernel, and
what it is worth to the process that asked for it. -/

namespace TitorOS.Barrel.Vmm

open TitorOS.Lib TitorOS.Lib.Word TitorOS.Barrel.Pmm

/-- The loop over the entries of `page_directory`. -/
def clearDirs : Nat → Nat → State → Option State
  | 0, _, s => some s
  | count + 1, i, s => do
      let s ← store s ⟨s.active.page, BitVec.ofNat 10 i⟩ 0#32
      clearDirs count (i + 1) s

/-- The fresh page directory, with the code area and the stack area mapped. -/
def freshSpace (s : State) (size : BitVec 32) : Option State := do
  let s ← clearDirs 0x300 0 s
  let s ← mmap s 0x0000#32 size 1#8
  mmap s 0xbffff000#32 4096#32 1#8

/-- The words that `read` puts into user memory, one after the other. -/
def copyIn : List (VAddr × Word) → State → Option State
  | [], s => some s
  | (v, w) :: rest, s => do
      let s ← kernelStore s v w
      copyIn rest s

/-- `size` is what `stat` says of the binary, `program` what `read` puts at address zero. -/
def exec (s : State) (size : BitVec 32) (program : List (VAddr × Word)) : Option State := do
  let s ← freshSpace s size
  copyIn program s

def codePage (size : BitVec 32) (page : VPage) : Prop := InRange 0x0000#32 size 1#8 page
def stackPage (page : VPage) : Prop := InRange 0xbffff000#32 4096#32 1#8 page
def Image (size : BitVec 32) (page : VPage) : Prop := codePage size page ∨ stackPage page

variable {s s' t : State} {own : Owners}

/-- What the loop leaves. -/
structure Cleared (first count : Nat) (s t : State) : Prop where
  bitmap : t.bitmap = s.bitmap
  cr3 : t.cr3 = s.cr3
  active : t.active = s.active
  dirs : t.dirs = s.dirs
  live : t.live = s.live
  row : ∀ i : Index, t.mem s.cr3 i =
    if first ≤ i.toNat ∧ i.toNat < first + count then 0#32 else s.mem s.cr3 i
  others : ∀ f, f ≠ s.cr3 → t.mem f = s.mem f

theorem clearDirs_cleared (h : Owned s own) (count first : Nat) (small : first + count ≤ 0x300) :
    ∃ t, clearDirs count first s = some t ∧ Owned t own ∧ Cleared first count s t := by
  induction count generalizing s first with
  | zero =>
      refine ⟨s, rfl, h, rfl, rfl, rfl, rfl, rfl, ?_, fun _ _ => rfl⟩
      intro i
      rw [if_neg (by omega)]
  | succ count ih =>
      have index : (BitVec.ofNat 10 first).toNat = first := by
        rw [BitVec.toNat_ofNat, Nat.mod_eq_of_lt (by omega)]
      have below : BitVec.ofNat 10 first < USER_DIRS := by
        rw [BitVec.lt_def, index, USER_DIRS, BitVec.toNat_ofNat]
        omega
      have absent : Word.present 0#32 = true → False := by
        rw [present_zero]
        exact Bool.noConfusion
      have written := h.writeDir (BitVec.ofNat 10 first) below 0#32 (fun p => (absent p).elim)
        (fun p => (absent p).elim)
      obtain ⟨t, run, owned, x⟩ := ih written (first + 1) (by omega)
      refine ⟨t, ?_, owned, x.bitmap, x.cr3, x.active, x.dirs, x.live, ?_, ?_⟩
      · rw [clearDirs, store, pageFrame_dir h h.active, ← h.cr3]
        exact run
      · intro i
        have row := x.row i
        rw [State.write_cr3, State.write_mem_self] at row
        rw [row]
        by_cases here : i.toNat = first
        · have same : i = BitVec.ofNat 10 first := BitVec.eq_of_toNat_eq (by rw [index, here])
          rw [if_neg (by omega), if_pos (by omega), same, Function.update_self]
        · have other : i ≠ BitVec.ofNat 10 first := by
            intro same
            rw [same, index] at here
            exact here rfl
          rw [Function.update_of_ne other]
          exact if_congr (by omega) rfl rfl
      · intro f other
        rw [x.others f other, State.write_mem_ne _ _ _ other]

section Cleared

variable (h : Owned s own) (x : Cleared 0 0x300 s t)
include h x

theorem Cleared.slot (k : Index) : t.slot k = s.slot k := by
  rw [State.slot, State.slot, x.others]
  rw [h.cr3]
  exact (h.dir_ne_low h.active heapPt_low (by decide)).symm

theorem Cleared.frame (q : DirPtr) : q.frame t = q.frame s := by
  cases q with
  | boot => rfl
  | heap k => rw [DirPtr.frame, DirPtr.frame, x.slot h]

theorem Cleared.pde {q : DirPtr} (member : q ∈ s.dirs) (i : Index) :
    pde t q i = if q = s.active ∧ i < USER_DIRS then 0#32 else Vmm.pde s q i := by
  rw [Vmm.pde, x.frame h, Vmm.pde]
  by_cases own_dir : q = s.active
  · subst own_dir
    rw [← h.cr3, x.row]
    apply if_congr _ rfl rfl
    simp [BitVec.lt_def, USER_DIRS]
  · rw [if_neg fun both => own_dir both.1, x.others]
    rw [h.cr3]
    exact fun same => own_dir (h.frame_inj member h.active same)

theorem Cleared.table_mem {q : DirPtr} (member : q ∈ s.dirs) {i : Index} (below : i < USER_DIRS)
    (present : (Vmm.pde s q i).present = true) :
    t.mem (Vmm.pde s q i).frame = s.mem (Vmm.pde s q i).frame := by
  apply x.others
  rw [h.cr3]
  exact (h.table_ne_dir (h.table_owner member below present) h.active).symm

theorem Cleared.pte_other {q : DirPtr} (member : q ∈ s.dirs) (other : q ≠ s.active) {page : VPage}
    (below : page.dir < USER_DIRS) : pte t q page = pte s q page := by
  have same := x.pde h member page.dir
  rw [if_neg fun both => other both.1] at same
  rw [pte, pte, same]
  exact congrFun (contents_congr (x.table_mem h member below)) page.table

theorem Cleared.word_other {q : DirPtr} (member : q ∈ s.dirs) (other : q ≠ s.active) {v : VAddr}
    (below : v.dir < USER_DIRS) : word t q v = word s q v := by
  rw [word, word, x.pte_other h member other below]
  refine congrFun (contents_congr fun present => ?_) v.word
  apply x.others
  rw [h.cr3]
  exact ((h.loose_page (h.page_owner member below present)).dir _ h.active).symm

theorem Cleared.pde_active {i : Index} (below : i < USER_DIRS) : Vmm.pde t s.active i = 0#32 := by
  rw [x.pde h h.active, if_pos ⟨rfl, below⟩]

end Cleared

/-- What `exec` has before it reads: pages for the program and the stack, in frames that were unused, and
nothing else below the kernel; no other process notices, and none has a part in it. -/
structure Execed (s : State) (size : BitVec 32) (s' : State) : Prop where
  owned : ∃ own', Owned s' own'
  dirs : s'.dirs = s.dirs
  active : s'.active = s.active
  fresh : FreshPages s (Image size) s'
  absent : ∀ page, page.dir < USER_DIRS → ¬Image size page →
    (pte s' s.active page).present = false
  pdes : ∀ q ∈ s.dirs, q ≠ s.active → ∀ i, pde s' q i = pde s q i
  ptes : ∀ q ∈ s.dirs, q ≠ s.active → ∀ page, page.dir < USER_DIRS → pte s' q page = pte s q page
  words : ∀ q ∈ s.dirs, q ≠ s.active → ∀ v, v.dir < USER_DIRS → word s' q v = word s q v
  tables : ∀ q ∈ s.dirs, q ≠ s.active → ∀ i, i < USER_DIRS → ¬SharesTable s' s.active q i
  spared : Spared s s'

section KeptDirs

/-- The directory entries are as before, but for those of the active directory that were absent. -/
def KeptDirs (s s' : State) : Prop :=
  ∀ q ∈ s.dirs, ∀ i, q ≠ s.active ∨ (pde s q i).present = true → pde s' q i = pde s q i

theorem KeptDirs.trans (first : KeptDirs s t) (dirs : t.dirs = s.dirs)
    (active : t.active = s.active) (second : KeptDirs t s') : KeptDirs s s' := by
  intro q member i old
  have same := first q member i old
  rw [second q (dirs ▸ member) i (by rwa [active, same]), same]

/-- The state `t` before `mapPage` sets the entry of the page: its table is there, new or old. -/
structure Prepared (s : State) (own : Owners) (page : VPage) (t : State) : Prop where
  owned : ∃ own', Owned t own'
  cr3 : t.cr3 = s.cr3
  active : t.active = s.active
  row : ∀ i, (s.mem s.cr3 i).present = true → t.mem s.cr3 i = s.mem s.cr3 i
  others : ∀ i, i ≠ page.dir → t.mem s.cr3 i = s.mem s.cr3 i
  mem : ∀ f, used s.bitmap f = true → f ≠ s.cr3 → t.mem f = s.mem f
  table : (t.mem s.cr3 page.dir).present = true
  apart : ∀ f, used s.bitmap f = true → (∀ i, own f ≠ .table i) → f ≠ (t.mem s.cr3 page.dir).frame
  frames : freeFrames t.bitmap + (if (s.mem s.cr3 page.dir).present then 1 else 2) =
    freeFrames s.bitmap

theorem mapPage_prepared (h : Owned s own) {page : VPage} (below : page.dir < USER_DIRS)
    (taken : mapPage s page = some s') :
    ∃ t w, Prepared s own page t ∧ s' = t.write (t.mem s.cr3 page.dir).frame page.table w := by
  simp only [mapPage, Option.bind_eq_bind, Option.bind_eq_some_iff] at taken
  rcases taken with ⟨⟨f, bitmap⟩, allocated, rest⟩
  rcases h.claim allocated (.page page) with ⟨_, owned⟩
  rcases pmalloc_spec _ _ _ allocated with ⟨free, rfl⟩
  have one := freeFrames_puse s.bitmap f free
  have window : pageFrame { s with bitmap := puse s.bitmap f } (pageEntry page).toVPage =
      if (pde s s.active page.dir).present then some (pde s s.active page.dir).frame else none := by
    rw [pageEntry, pageFrame_window owned, owned.pde_cr3]
    rfl
  rw [← h.pde_cr3] at window
  cases there : (s.mem s.cr3 page.dir).present with
  | true =>
      simp only [window, there, if_true, Option.isSome_some, Option.bind_some] at rest
      rw [store_entry owned page _ there] at rest
      refine ⟨_, _, ⟨⟨_, owned⟩, rfl, rfl, fun _ _ => rfl, fun _ _ => rfl, fun _ _ _ => rfl, there,
        ?_, ?_⟩, (Option.some.inj rest).symm⟩
      · intro g _ loose same
        refine loose page.dir ?_
        rw [same, h.pde_cr3]
        exact h.table_owner h.active below (h.pde_cr3 page.dir ▸ there)
      · rw [there, if_pos rfl]
        exact one
  | false =>
      simp only [window, there, Bool.false_eq_true, if_false, Option.isSome_none] at rest
      rcases Option.bind_eq_some_iff.mp rest with ⟨t, demanded, stored⟩
      have early : page.dir ≠ 1023#10 := by
        simp only [USER_DIRS] at below
        bv_omega
      rcases demandPage_remapped owned page below (by rwa [← owned.pde_cr3]) demanded with
        ⟨own', t_owned, _, remapped, present, _⟩
      rcases demandPage_eq owned.dir.self owned.space.cr3_marked early demanded with
        ⟨g, bitmap, made, other, t_eq⟩
      rcases pmalloc_spec _ _ _ made with ⟨unused, rfl⟩
      have two : freeFrames (puse (puse s.bitmap f) g) + 1 = freeFrames (puse s.bitmap f) :=
        freeFrames_puse _ g unused
      have count : freeFrames t.bitmap = freeFrames (puse (puse s.bitmap f) g) := by rw [t_eq]; rfl
      have old {k : Frame} (marked : used s.bitmap k = true) : k ≠ g :=
        marked_ne (puse_grows _ f marked) unused
      have w_frame : (address g + 0b100000000111#32).frame = g := entry_frame g _ (by decide)
      have t_cr3 : t.cr3 = s.cr3 := by rw [t_eq]; rfl
      have t_active : t.active = s.active := remapped.active
      have row (i : Index) :
          t.mem s.cr3 i = if i = page.dir then address g + 0b100000000111#32 else s.mem s.cr3 i := by
        rw [t_eq, State.write_mem_self, Function.update_apply]
        refine if_congr Iff.rfl rfl ?_
        exact congrFun (State.writeFrame_mem_ne _ _ (Ne.symm other)) i
      have table : (t.mem t.cr3 page.dir).present = true := by
        rw [t_owned.pde_cr3, t_active]
        exact present
      rw [store_entry t_owned page _ table] at stored
      rw [t_cr3] at table stored
      refine ⟨t, _, ⟨⟨_, t_owned⟩, t_cr3, t_active, ?_, ?_, ?_, table, ?_, ?_⟩,
        (Option.some.inj stored).symm⟩
      · intro i mapped
        rw [row, if_neg]
        rintro rfl
        exact Bool.false_ne_true (there.symm.trans mapped)
      · intro i apart
        rw [row, if_neg apart]
      · intro k marked dir
        rw [t_eq, State.write_mem_ne _ _ _ dir]
        exact State.writeFrame_mem_ne _ _ (old marked)
      · intro k marked _
        rw [row, if_pos rfl, w_frame]
        exact old marked
      · rw [there, if_neg Bool.false_ne_true]
        omega

theorem mapPage_keptDirs (h : Owned s own) {page : VPage} (below : page.dir < USER_DIRS)
    (taken : mapPage s page = some s') : KeptDirs s s' := by
  rcases mapPage_prepared h below taken with ⟨t, w, x, rfl⟩
  have marked {q : DirPtr} (member : q ∈ s.dirs) : used s.bitmap (q.frame s) = true :=
    h.used _ (h.held_owner (h.held_dir member))
  have loose {q : DirPtr} (member : q ∈ s.dirs) (i : Index) : own (q.frame s) ≠ .table i := by
    intro owner
    exact h.table_ne_dir owner member rfl
  have heap_marked : used s.bitmap HEAP_PT = true := h.used _ (by simp [h.low _ heapPt_low])
  have heap : (t.write (t.mem s.cr3 page.dir).frame page.table w).mem HEAP_PT = s.mem HEAP_PT := by
    rw [State.write_mem_ne, x.mem _ heap_marked]
    · rw [h.cr3]
      exact (h.dir_ne_low h.active heapPt_low (by decide)).symm
    · exact x.apart _ heap_marked (by simp [h.low _ heapPt_low])
  intro q member i old
  have frame : q.frame (t.write (t.mem s.cr3 page.dir).frame page.table w) = q.frame s := by
    cases q with
    | boot => rfl
    | heap k => rw [DirPtr.frame, DirPtr.frame, State.slot, State.slot, heap]
  rw [pde, frame, State.write_mem_ne _ _ _ (x.apart _ (marked member) (loose member)), pde]
  by_cases active : q = s.active
  · subst active
    rw [← h.cr3]
    refine x.row i ?_
    rw [h.pde_cr3]
    exact old.resolve_left fun other => other rfl
  · rw [x.mem _ (marked member)]
    rw [h.cr3]
    exact fun same => active (h.frame_inj member h.active same)

theorem mapPages_keptDirs (h : Owned s own) (base : BitVec 32) (count i : Nat)
    (below : ∀ n, i ≤ n → n < i + count → (mmapPage base n).dir < USER_DIRS)
    (taken : mapPages base count i s = some s') : KeptDirs s s' := by
  induction count generalizing s own i with
  | zero =>
      cases taken
      exact fun _ _ _ _ => rfl
  | succ count ih =>
      rcases Option.bind_eq_some_iff.mp taken with ⟨t, mapped, rest⟩
      have first := below i (Nat.le_refl i) (by omega)
      rcases mapPage_remapped h first mapped with ⟨⟨own', owned, _⟩, s_t, _⟩
      exact (mapPage_keptDirs h first mapped).trans s_t.dirs s_t.active
        (ih owned (i + 1) (fun n low high => below n (by omega) (by omega)) rest)

theorem mmap_keptDirs (h : Owned s own) {hint length : BitVec 32} {flags : BitVec 8}
    (range : UserRange hint length flags) (taken : mmap s hint length flags = some s') :
    KeptDirs s s' :=
  mapPages_keptDirs h _ _ 0 (fun n _ high => decode_below _ (range n (by omega))) taken

end KeptDirs

section Cost

theorem missingTables_card (row row' : Index → Word) (first count : Nat) {dir : Index}
    (small : first + count < 768 * 1024) (here : dir.toNat = first / 1024)
    (present : (row' dir).present = true) (others : ∀ i, i ≠ dir → row' i = row i) :
    (missingTables row' (first + 1) count).card + (if (row dir).present then 0 else 1) =
      (missingTables row first (count + 1)).card := by
  have index : BitVec.ofNat 10 (first / 1024) = dir := by
    rw [← here, BitVec.ofNat_toNat, BitVec.setWidth_eq]
  have same : missingTables row' (first + 1) count =
      (missingTables row first (count + 1)).erase (first / 1024) := by
    ext d
    rw [Finset.mem_erase, mem_missingTables, mem_missingTables]
    by_cases d_here : d = first / 1024
    · subst d_here
      simp [index, present]
    · constructor
      · rintro ⟨⟨n, low, high, rfl⟩, absent⟩
        refine ⟨d_here, ⟨n, by omega, by omega, rfl⟩, ?_⟩
        rwa [others _ (by rw [← index]; exact fun equal => d_here (by
          have := congrArg BitVec.toNat equal
          simp only [BitVec.toNat_ofNat] at this
          omega))] at absent
      · rintro ⟨_, ⟨n, low, high, rfl⟩, absent⟩
        have later : n ≠ first := by
          rintro rfl
          exact d_here rfl
        refine ⟨⟨n, by omega, by omega, rfl⟩, ?_⟩
        rwa [others _ (by rw [← index]; exact fun equal => d_here (by
          have := congrArg BitVec.toNat equal
          simp only [BitVec.toNat_ofNat] at this
          omega))]
  have member : first / 1024 ∈ missingTables row first (count + 1) ↔ (row dir).present = false := by
    rw [mem_missingTables, index]
    constructor
    · exact And.right
    · exact fun absent => ⟨⟨first, le_rfl, by omega, rfl⟩, absent⟩
  rw [same]
  cases absent : (row dir).present with
  | true =>
      rw [if_pos rfl, Finset.erase_eq_of_notMem]
      · rfl
      · rw [member, absent]
        exact Bool.noConfusion
  | false =>
      rw [if_neg Bool.false_ne_true, Finset.card_erase_add_one (member.mpr absent)]

/-- The frames a run of rounds takes, and the tables it leaves. -/
structure Charged (s : State) (first count : Nat) (s' : State) : Prop where
  cr3 : s'.cr3 = s.cr3
  frames : freeFrames s'.bitmap + count + (missingTables (s.mem s.cr3) first count).card =
    freeFrames s.bitmap
  tables : ∀ i, (s'.mem s.cr3 i).present = true ↔
    (s.mem s.cr3 i).present = true ∨ ∃ n, first ≤ n ∧ n < first + count ∧ n / 1024 = i.toNat

theorem VPage.number_dir {page : VPage} {n : Nat} (number : page.number = n) :
    page.dir.toNat = n / 1024 := by
  have table := page.table.isLt
  rw [VPage.number] at number
  omega

/-- One round: the page's frame, and one for its table if that was missing. -/
structure Round (s : State) (page : VPage) (s' : State) : Prop where
  owned : ∃ own', Owned s' own'
  cr3 : s'.cr3 = s.cr3
  frames : freeFrames s'.bitmap + (if (s.mem s.cr3 page.dir).present then 1 else 2) =
    freeFrames s.bitmap
  table : (s'.mem s.cr3 page.dir).present = true
  others : ∀ i, i ≠ page.dir → s'.mem s.cr3 i = s.mem s.cr3 i

theorem mapPage_round (h : Owned s own) {page : VPage} (below : page.dir < USER_DIRS)
    (taken : mapPage s page = some s') : Round s page s' := by
  rcases (mapPage_remapped h below taken).1 with ⟨own', owned, _⟩
  rcases mapPage_prepared h below taken with ⟨t, w, x, rfl⟩
  have loose : ∀ i, own s.cr3 ≠ .table i := by
    intro i owner
    rw [h.cr3] at owner
    exact h.table_ne_dir owner h.active rfl
  have row : (t.write (t.mem s.cr3 page.dir).frame page.table w).mem s.cr3 = t.mem s.cr3 :=
    State.write_mem_ne _ _ _ (x.apart _ h.space.cr3_marked loose)
  refine ⟨⟨own', owned⟩, x.cr3, x.frames, ?_, ?_⟩
  · rw [row]
    exact x.table
  · rw [row]
    exact x.others

theorem mmapPage_user (base : BitVec 32) (i : Nat) (user : base.toNat / 4096 + i < 768 * 1024) :
    (mmapPage base i).dir.toNat = (base.toNat / 4096 + i) / 1024 ∧
      (mmapPage base i).dir < USER_DIRS := by
  have dir := VPage.number_dir (mmapPage_number base (i := i) (by omega))
  refine ⟨dir, ?_⟩
  rw [BitVec.lt_def, dir, USER_DIRS, BitVec.toNat_ofNat]
  omega

theorem mapPages_charged (h : Owned s own) {base : BitVec 32} (count i : Nat)
    (user : base.toNat / 4096 + (i + count) ≤ 768 * 1024)
    (taken : mapPages base count i s = some s') : Charged s (base.toNat / 4096 + i) count s' := by
  induction count generalizing s own i with
  | zero =>
      cases taken
      refine ⟨rfl, by simp [missingTables], fun j => (or_iff_left ?_).symm⟩
      rintro ⟨n, low, high, _⟩
      omega
  | succ count ih =>
      rcases Option.bind_eq_some_iff.mp taken with ⟨t, mapped, rest⟩
      obtain ⟨dir, below⟩ := mmapPage_user base i (by omega)
      have x := mapPage_round h below mapped
      rcases x.owned with ⟨own', owned⟩
      have y := ih owned (i + 1) (by omega) rest
      have missing := missingTables_card _ _ _ count (by omega) dir x.table x.others
      have first := x.frames
      have later := y.frames
      have tables := y.tables
      rw [x.cr3] at later tables
      refine ⟨y.cr3.trans x.cr3, ?_, fun j => ?_⟩
      · rw [← Nat.add_assoc] at later
        split at first
        · rename_i there
          rw [if_pos there] at missing
          omega
        · rename_i absent
          rw [if_neg absent] at missing
          omega
      · rw [tables]
        by_cases here : j = (mmapPage base i).dir
        · subst here
          simp only [x.table, true_or, true_iff]
          exact .inr ⟨base.toNat / 4096 + i, le_rfl, by omega, dir.symm⟩
        · rw [x.others j here]
          refine or_congr Iff.rfl ?_
          constructor
          · rintro ⟨n, low, high, at_j⟩
            exact ⟨n, by omega, by omega, at_j⟩
          · rintro ⟨n, low, high, at_j⟩
            have past : n ≠ base.toNat / 4096 + i := by
              rintro rfl
              exact here (BitVec.eq_of_toNat_eq (by rw [dir, at_j]))
            exact ⟨n, by omega, by omega, at_j⟩

theorem mapPage_isSome (h : Owned s own) {page : VPage} (below : page.dir < USER_DIRS)
    (room : (if (s.mem s.cr3 page.dir).present then 1 else 2) ≤ freeFrames s.bitmap) :
    ∃ s', mapPage s page = some s' := by
  have early : page.dir ≠ 1023#10 := by
    simp only [USER_DIRS] at below
    bv_omega
  have start := h.space.tables.demand
  cases there : (s.mem s.cr3 page.dir).present with
  | true =>
      rw [there, if_pos rfl] at room
      rcases start.roundPresent (q := page) id early there room with ⟨s', _, run, _⟩
      exact ⟨s', run⟩
  | false =>
      rw [there, if_neg Bool.false_ne_true] at room
      rcases start.roundAbsent (q := page) id early there room with ⟨s', _, run, _⟩
      exact ⟨s', run⟩

/-- A run of rounds goes through exactly if there is a frame for each page and for each table that
is missing. -/
theorem mapPages_isSome_iff (h : Owned s own) (base : BitVec 32) (count i : Nat)
    (user : base.toNat / 4096 + (i + count) ≤ 768 * 1024) :
    (mapPages base count i s).isSome = true ↔
      count + (missingTables (s.mem s.cr3) (base.toNat / 4096 + i) count).card ≤
        freeFrames s.bitmap := by
  constructor
  · intro goes
    have frames := (mapPages_charged h count i user (Option.some_get goes).symm).frames
    omega
  · induction count generalizing s own i with
    | zero => exact fun _ => rfl
    | succ count ih =>
        intro room
        obtain ⟨dir, below⟩ := mmapPage_user base i (by omega)
        have made := missingTables_card (s.mem s.cr3)
          (Function.update (s.mem s.cr3) (mmapPage base i).dir 1#32) _ count (by omega) dir
          (by rw [Function.update_self]; rfl) (fun j other => Function.update_of_ne other ..)
        have one : (if (s.mem s.cr3 (mmapPage base i).dir).present then 1 else 2) ≤
            freeFrames s.bitmap := by
          split
          · omega
          · rename_i absent
            rw [if_neg absent] at made
            omega
        rcases mapPage_isSome h below one with ⟨t, mapped⟩
        have x := mapPage_round h below mapped
        rcases x.owned with ⟨own', owned⟩
        have missing := missingTables_card _ _ _ count (by omega) dir x.table x.others
        have left := x.frames
        have rest := ih owned (i + 1) (by omega) (by
          rw [x.cr3, ← Nat.add_assoc]
          split at left
          · rename_i there
            rw [if_pos there] at missing
            omega
          · rename_i absent
            rw [if_neg absent] at missing
            omega)
        rcases Option.isSome_iff_exists.mp rest with ⟨s', onward⟩
        exact Option.isSome_iff_exists.mpr ⟨s', Option.bind_eq_some_iff.mpr ⟨t, mapped, onward⟩⟩

end Cost

theorem code_range {size : BitVec 32} (fits : size ≤ 0xc0000000#32) : UserRange 0x0000#32 size 1#8 := by
  intro i inside
  have whole : size.toNat ≤ 0xc0000000 := BitVec.le_def.mp fits
  have pages : noPages size ≤ 0xc0000 := by
    rw [noPages]
    split <;> omega
  have start : mmapBase 0x0000#32 1#8 = 0#32 := rfl
  rw [start, BitVec.lt_def, BitVec.toNat_add, BitVec.toNat_mul, BitVec.toNat_ofNat]
  simp only [BitVec.toNat_ofNat]
  omega

theorem stack_range : UserRange 0xbffff000#32 4096#32 1#8 := by
  rw [UserRange]
  decide

theorem Image.below {size : BitVec 32} (fits : size ≤ 0xc0000000#32) {page : VPage}
    (image : Image size page) : page.dir < USER_DIRS := by
  rcases image with ⟨i, inside, rfl⟩ | ⟨i, inside, rfl⟩
  · exact decode_below _ (code_range fits i inside)
  · exact decode_below _ (stack_range i inside)

theorem freshSpace_execed (h : Owned s own) {size : BitVec 32} (fits : size ≤ 0xc0000000#32)
    (taken : freshSpace s size = some s') : Execed s size s' := by
  obtain ⟨t, cleared, owned, x⟩ := clearDirs_cleared h 0x300 0 le_rfl
  simp only [freshSpace, cleared, Option.bind_eq_bind, Option.bind_some, Option.bind_eq_some_iff] at taken
  obtain ⟨u, code, stack⟩ := taken
  rcases mmap_remapped owned (code_range fits) code with ⟨⟨own₁, owned₁, _⟩, t_u, fresh₁⟩
  rcases mmap_remapped owned₁ stack_range stack with ⟨⟨own₂, owned₂, _⟩, u_s', fresh₂⟩
  have dirs : KeptDirs t s' := (mmap_keptDirs owned (code_range fits) code).trans t_u.dirs
    t_u.active (mmap_keptDirs owned₁ stack_range stack)
  have t_s' : Remapped t (Image size) s' := t_u.trans u_s' (fun _ => .inl) (fun _ => .inr)
  have fresh : FreshPages t (Image size) s' :=
    fresh₁.trans t_u fresh₂ u_s' owned.active (fun _ => id)
  have blank (i : Index) (low : i < USER_DIRS) : (pde t t.active i).present = false := by
    rw [x.active, x.pde_active h low, present_zero]
  have loose {q : DirPtr} {i : Index} (low : i < USER_DIRS) : ¬SharesTable t t.active q i := by
    intro shares
    exact Bool.false_ne_true ((blank i low).symm.trans shares.1)
  have cr3_marked : used s.bitmap s.cr3 = true := h.space.cr3_marked
  have spare {f : Frame} (free : used s.bitmap f = false) : t.mem f = s.mem f :=
    x.others f fun same => Bool.false_ne_true (free.symm.trans (same ▸ cr3_marked))
  have t_member {q : DirPtr} (member : q ∈ s.dirs) : q ∈ t.dirs := x.dirs.symm ▸ member
  have t_other {q : DirPtr} (other : q ≠ s.active) : q ≠ t.active := x.active.symm ▸ other
  constructor
  case owned => exact ⟨own₂, owned₂⟩
  case dirs => exact t_s'.dirs.trans x.dirs
  case active => exact t_s'.active.trans x.active
  case fresh =>
    intro v low image
    rcases fresh v low image with ⟨present, unused, word_eq⟩
    rw [x.active, x.bitmap] at unused
    rw [x.active] at present word_eq
    exact ⟨present, unused, by rw [word_eq, spare unused]⟩
  case absent =>
    intro page low outside
    rw [← x.active, t_s'.ptes _ owned.active page low fun image => (outside image).elim,
      pte_absent page (blank _ low), present_zero]
  case pdes =>
    intro q member other i
    rw [dirs q (t_member member) i (.inl (t_other other)), x.pde h member, if_neg fun both => other both.1]
  case ptes =>
    intro q member other page low
    rw [t_s'.ptes q (t_member member) page low fun _ => ⟨t_other other, loose low⟩,
      x.pte_other h member other low]
  case words =>
    intro q member other v low
    rw [t_s'.words q (t_member member) v low fun _ => ⟨t_other other, loose low⟩,
      x.word_other h member other low]
  case tables =>
    intro q member other i low shares
    rw [← x.active] at shares
    exact loose low (t_s'.tables q (t_member member) (t_other other) i low shares)
  case spared =>
    intro f free
    rcases t_s'.spared f free with ⟨unused, same⟩
    rw [x.bitmap] at unused
    exact ⟨unused, by rw [same, spare unused]⟩

/-- What a fresh address space takes: the pages of the program and their tables, a page for the
stack, and a table for it unless the program comes that far. -/
def spaceFrames (size : BitVec 32) : Nat :=
  noPages size + (noPages size + 1023) / 1024 + if noPages size ≤ 767 * 1024 then 2 else 1

theorem noPages_user {size : BitVec 32} (fits : size ≤ 0xc0000000#32) :
    noPages size ≤ 768 * 1024 := by
  have whole : size.toNat ≤ 0xc0000000 := BitVec.le_def.mp fits
  rw [noPages]
  split <;> omega

theorem missingTables_blank {row : Index → Word} {count : Nat} (small : count ≤ 768 * 1024)
    (blank : ∀ i, i < USER_DIRS → (row i).present = false) :
    (missingTables row 0 count).card = (count + 1023) / 1024 := by
  have all : missingTables row 0 count = Finset.range ((count + 1023) / 1024) := by
    ext d
    rw [mem_missingTables, Finset.mem_range]
    constructor
    · rintro ⟨⟨n, _, high, rfl⟩, _⟩
      omega
    · intro inside
      refine ⟨⟨d * 1024, by omega, by omega, by omega⟩, blank _ ?_⟩
      rw [BitVec.lt_def, BitVec.toNat_ofNat, USER_DIRS, BitVec.toNat_ofNat]
      omega
  rw [all, Finset.card_range]

theorem missingTables_one (row : Index → Word) (n : Nat) :
    (missingTables row n 1).card =
      if (row (BitVec.ofNat 10 (n / 1024))).present then 0 else 1 := by
  have single : (Finset.Ico n (n + 1)).image (· / 1024) = {n / 1024} := by
    rw [Nat.Ico_succ_singleton, Finset.image_singleton]
  rw [missingTables, single, Finset.filter_singleton]
  cases (row (BitVec.ofNat 10 (n / 1024))).present with
  | true => simp
  | false => simp

theorem Charged.stack {count : Nat} (x : Charged s 0 count s')
    (blank : ∀ i, i < USER_DIRS → (s.mem s.cr3 i).present = false) :
    (missingTables (s'.mem s'.cr3) 0xbffff 1).card = if count ≤ 767 * 1024 then 1 else 0 := by
  have table : (s'.mem s'.cr3 767#10).present = true ↔ ¬count ≤ 767 * 1024 := by
    rw [x.cr3, x.tables, blank _ (by decide)]
    constructor
    · rintro (old | ⟨n, _, high, at_stack⟩)
      · cases old
      · rw [BitVec.toNat_ofNat] at at_stack
        omega
    · exact fun far => .inr ⟨767 * 1024, by omega, by omega, by decide⟩
  rw [missingTables_one, show BitVec.ofNat 10 (0xbffff / 1024) = 767#10 from rfl]
  by_cases near : count ≤ 767 * 1024
  · rw [if_pos near, if_neg fun there => table.mp there near]
  · rw [if_neg near, if_pos (table.mpr near)]

theorem freshSpace_frames (h : Owned s own) {size : BitVec 32} (fits : size ≤ 0xc0000000#32) :
    ((freshSpace s size).isSome = true ↔ spaceFrames size ≤ freeFrames s.bitmap) ∧
      ∀ s', freshSpace s size = some s' →
        freeFrames s'.bitmap + spaceFrames size = freeFrames s.bitmap := by
  obtain ⟨t, cleared, owned, x⟩ := clearDirs_cleared h 0x300 0 le_rfl
  have pages := noPages_user fits
  have blank (i : Index) (low : i < USER_DIRS) : (t.mem t.cr3 i).present = false := by
    rw [owned.pde_cr3, x.active, x.pde_active h low, present_zero]
  have tables := missingTables_blank pages blank
  have code_iff := mapPages_isSome_iff owned 0#32 (noPages size) 0 (by simpa using pages)
  have code_base : (0#32).toNat / 4096 + 0 = 0 := rfl
  have stack_base : (0xbffff000#32).toNat / 4096 + 0 = 0xbffff := rfl
  rw [code_base, tables, x.bitmap] at code_iff
  have code_eq : mmap t 0x0000#32 size 1#8 = mapPages 0#32 (noPages size) 0 t := rfl
  have stack_eq (u : State) : mmap u 0xbffff000#32 4096#32 1#8 = mapPages 0xbffff000#32 1 0 u := rfl
  have run : freshSpace s size =
      (mapPages 0#32 (noPages size) 0 t).bind fun u => mapPages 0xbffff000#32 1 0 u := by
    rw [freshSpace, cleared]
    rfl
  cases code : mapPages 0#32 (noPages size) 0 t with
  | none =>
      rw [code] at code_iff run
      rw [run]
      refine ⟨iff_of_false Bool.false_ne_true ?_, fun s' taken => by cases taken⟩
      intro room
      rw [spaceFrames] at room
      exact Bool.false_ne_true (code_iff.mpr (by split at room <;> omega))
  | some u =>
      rw [code] at run
      rw [run, Option.bind_some]
      have y := mapPages_charged owned (noPages size) 0 (by simpa using pages) code
      rcases (mmap_remapped owned (code_range fits) code).1 with ⟨own', u_owned, _⟩
      have stack_iff := mapPages_isSome_iff u_owned 0xbffff000#32 1 0 (by decide)
      have stack_missing := y.stack blank
      have first := y.frames
      rw [code_base, tables, x.bitmap] at first
      rw [stack_base, stack_missing] at stack_iff
      refine ⟨stack_iff.trans ?_, ?_⟩
      · rw [spaceFrames]
        split <;> omega
      · intro s' stack
        have last := (mapPages_charged u_owned 1 0 (by decide) stack).frames
        rw [stack_base, stack_missing] at last
        rw [spaceFrames]
        by_cases near : noPages size ≤ 767 * 1024
        · rw [if_pos near] at last ⊢
          omega
        · rw [if_neg near] at last ⊢
          omega

theorem kernelStore_write (h : Owned s own) {v : VAddr} {w : Word} (below : v.dir < USER_DIRS)
    (present : (pte s s.active v.toVPage).present = true) :
    kernelStore s v w = some (s.write (pte s s.active v.toVPage).frame v.word w) := by
  rw [kernelStore, if_pos below, store, h.pageFrame_active, if_pos present]
  rfl

theorem copyIn_runs (h : Owned s own) (program : List (VAddr × Word))
    (mapped : ∀ x ∈ program, x.1.dir < USER_DIRS ∧ (pte s s.active x.1.toVPage).present = true) :
    ∃ s', copyIn program s = some s' ∧ (∃ own', Owned s' own') ∧ s'.bitmap = s.bitmap := by
  induction program generalizing s own with
  | nil => exact ⟨s, rfl, ⟨own, h⟩, rfl⟩
  | cons x rest ih =>
      obtain ⟨below, present⟩ := mapped x (List.mem_cons_self ..)
      have stored := h.stored below present x.2
      rcases stored.owned with ⟨own', owned, _⟩
      rcases ih owned (fun y later => by
        obtain ⟨low, there⟩ := mapped y (List.mem_cons_of_mem _ later)
        exact ⟨low, by rw [stored.active, stored.present _ h.active _ low, there]⟩) with
        ⟨s', run, owned', same⟩
      refine ⟨s', Option.bind_eq_some_iff.mpr ⟨_, kernelStore_write h below present, run⟩, owned', same⟩

/-- `read` puts the program where it is mapped. -/
def Proper (size : BitVec 32) (program : List (VAddr × Word)) : Prop :=
  size ≤ 0xc0000000#32 ∧ ∀ x ∈ program, codePage size x.1.toVPage

theorem Execed.mapped {size : BitVec 32} {program : List (VAddr × Word)} (x : Execed s size t)
    (proper : Proper size program) :
    ∀ y ∈ program, y.1.dir < USER_DIRS ∧ (pte t t.active y.1.toVPage).present = true := by
  intro y member
  have code : Image size y.1.toVPage := .inl (proper.2 y member)
  have below := code.below proper.1
  exact ⟨below, by rw [x.active, (x.fresh y.1 below code).1]⟩

/-- `exec` returns exactly if there are frames for the new address space, and takes that many. -/
theorem exec_frames (h : Owned s own) {size : BitVec 32} {program : List (VAddr × Word)}
    (proper : Proper size program) :
    ((exec s size program).isSome = true ↔ spaceFrames size ≤ freeFrames s.bitmap) ∧
      ∀ s', exec s size program = some s' →
        (∃ own', Owned s' own') ∧ freeFrames s'.bitmap + spaceFrames size = freeFrames s.bitmap := by
  rcases freshSpace_frames h proper.1 with ⟨returns, frames⟩
  cases fresh : freshSpace s size with
  | none =>
      have run : exec s size program = none := by rw [exec, fresh]; rfl
      rw [fresh] at returns
      rw [run]
      exact ⟨returns, fun s' taken => by cases taken⟩
  | some t =>
      have x := freshSpace_execed h proper.1 fresh
      rcases x.owned with ⟨own', owned⟩
      rcases copyIn_runs owned program (x.mapped proper) with ⟨u, read, u_owned, bitmap⟩
      have run : exec s size program = some u := by
        rw [exec, fresh]
        exact read
      rw [fresh] at returns
      rw [run]
      refine ⟨returns, fun s' taken => ?_⟩
      cases taken
      exact ⟨u_owned, by rw [bitmap, frames t fresh]⟩

section Ledger

/-- What a process does to memory: a call of the memory manager, or `exec`. -/
inductive Call where
  | operation (op : Operation)
  | exec (size : BitVec 32) (program : List (VAddr × Word))

def call (s : State) : Call → Option State
  | .operation op => operate s op
  | .exec size program => exec s size program

def Call.Allowed (s : State) : Call → Prop
  | .operation op => Orderly s op
  | .exec size program => Proper size program

/-- Memory, with the frames that calls of `exec` have taken so far and the number of those that
`mmiomalloc` gave back. -/
structure Ledger where
  state : State
  spent : Nat
  returned : Nat

/-- `mmiomalloc` gives back the frame it does not need. -/
def Operation.returned : Operation → Nat
  | .memory (.mmiomalloc _) => 1
  | .memory _ => 0
  | .device _ => 1

def Ledger.call (x : Ledger) (c : Call) : Option Ledger := do
  let s ← Vmm.call x.state c
  match c with
  | .exec size _ => return ⟨s, x.spent + spaceFrames size, x.returned⟩
  | .operation op => return ⟨s, x.spent, x.returned + op.returned⟩

theorem freeFrames_mono {bitmap bitmap' : Bitmap}
    (grows : ∀ f, used bitmap f = true → used bitmap' f = true) :
    freeFrames bitmap' ≤ freeFrames bitmap := by
  rw [freeFrames, freeFrames, freeSlots, freeSlots]
  apply Finset.card_le_card
  intro i member
  rw [Finset.mem_filter] at member ⊢
  refine ⟨member.1, ?_⟩
  by_contra marked
  rw [Bool.not_eq_false] at marked
  exact Bool.false_ne_true (member.2.symm.trans (grows _ marked))

theorem freeFrames_pfree (bitmap : Bitmap) (f : Frame) :
    freeFrames (pfree bitmap f) ≤ freeFrames bitmap + 1 := by
  have free : used (pfree bitmap f) f = false := by simp [used_pfree]
  have less : freeFrames (puse (pfree bitmap f) f) ≤ freeFrames bitmap := by
    apply freeFrames_mono
    intro g marked
    rw [used_puse, used_pfree, marked]
    by_cases same : g = f
    · simp [same]
    · simp [same]
  have one := freeFrames_puse _ f free
  omega

theorem Spared.frames (spared : Spared s s') : freeFrames s'.bitmap ≤ freeFrames s.bitmap := by
  apply freeFrames_mono
  intro f marked
  by_contra unmarked
  rw [Bool.not_eq_true] at unmarked
  exact Bool.false_ne_true ((spared f unmarked).1.symm.trans marked)

theorem mmiomalloc_frames (h : Owned s own) {paddr : Word} {k : Index}
    (taken : mmiomalloc s paddr = some (k, s')) :
    freeFrames s'.bitmap ≤ freeFrames s.bitmap + 1 := by
  rcases mmiomalloc_eq h.heapTable taken with ⟨t, allocated, rfl⟩
  rcases kmalloc_fresh h allocated with ⟨_, fresh⟩
  have less := fresh.background.spared.frames
  have back := freeFrames_pfree t.bitmap (t.slot k).frame
  exact back.trans (Nat.add_le_add_right less 1)

theorem step_frames (h : Owned s own) {e : Event} (ok : Reserved s e)
    (plain : ∀ paddr, e ≠ .mmiomalloc paddr) (taken : step s e = some s') :
    freeFrames s'.bitmap ≤ freeFrames s.bitmap := by
  cases e with
  | kmalloc =>
      rcases Option.map_eq_some_iff.mp taken with ⟨⟨k, t⟩, allocated, rfl⟩
      rcases kmalloc_fresh h allocated with ⟨_, fresh⟩
      exact fresh.background.spared.frames
  | kfree k =>
      simp only [step] at taken
      split at taken
      · have table : HeapTable { s with live := s.live.filter (· ≠ k) } :=
          ⟨h.heapTable.self, h.heapTable.heap, h.heapTable.apart⟩
        rw [kfree_eq table] at taken
        cases taken
        exact le_rfl
      · cases taken
  | mmiomalloc paddr => exact absurd rfl (plain paddr)
  | mmap hint length flags => exact (mmap_remapped h ok taken).2.1.spared.frames
  | store v w =>
      rcases userStore_cases h taken with
        ⟨_, _, ⟨_, _, stored⟩ | ⟨t, own', _, _, split, stored⟩⟩
      · exact stored.spared.frames
      · exact stored.spared.frames.trans split.spared.frames
  | read v w => exact (kernelStore_stored h taken).2.2.spared.frames
  | fork fds =>
      rcases fork_forked h taken with ⟨k, t, _, forked, _, rfl⟩
      exact forked.background.spared.frames
  | scheduler p =>
      simp only [step] at taken
      split at taken
      · rename_i member
        rw [(switch_owned h member taken).2]
      · cases taken
  | fill k content =>
      simp only [step] at taken
      split at taken
      · rcases Option.map_eq_some_iff.mp taken with ⟨f, _, rfl⟩
        exact le_rfl
      · cases taken

theorem operate_frames (h : Owned s own) {op : Operation} (ok : Orderly s op)
    (taken : operate s op = some s') :
    freeFrames s'.bitmap ≤ freeFrames s.bitmap + op.returned := by
  cases op with
  | memory e =>
      by_cases device : ∃ paddr, e = .mmiomalloc paddr
      · rcases device with ⟨paddr, rfl⟩
        rcases Option.map_eq_some_iff.mp taken with ⟨⟨k, t⟩, allocated, rfl⟩
        have frames := mmiomalloc_frames h allocated
        exact frames
      · have frames := step_frames h ok (fun paddr same => device ⟨paddr, same⟩) taken
        exact Nat.le_add_right_of_le frames
  | device paddr =>
      rcases Option.map_eq_some_iff.mp taken with ⟨⟨k, t⟩, allocated, rfl⟩
      exact mmiomalloc_frames h allocated

theorem call_owned (h : Owned s own) {c : Call} (ok : c.Allowed s) (taken : call s c = some s') :
    ∃ own', Owned s' own' := by
  cases c with
  | operation op => exact operate_owned h ok taken
  | exec size program => exact ((exec_frames h ok).2 s' taken).1

/-- Memory and the frames taken, on the whole way from boot. -/
structure Balanced (ram : Mem) (x : Ledger) : Prop where
  owned : ∃ own, Owned x.state own
  balance : freeFrames x.state.bitmap + x.spent ≤ freeFrames (initVmm ram).bitmap + x.returned

theorem Ledger.call_balanced {ram : Mem} {x y : Ledger} {c : Call} (b : Balanced ram x)
    (ok : c.Allowed x.state) (taken : x.call c = some y) : Balanced ram y := by
  rcases b with ⟨⟨own, h⟩, before⟩
  rcases Option.bind_eq_some_iff.mp taken with ⟨s, called, made⟩
  have owned := call_owned h ok called
  cases c with
  | exec size program =>
      cases made
      have frames := ((exec_frames h ok).2 s called).2
      refine ⟨owned, ?_⟩
      dsimp only
      omega
  | operation op =>
      cases made
      have frames := operate_frames h ok called
      refine ⟨owned, ?_⟩
      dsimp only
      omega

def bootLedger (ram : Mem) : Ledger := ⟨initVmm ram, 0, 0⟩

/-- `exec` never gives anything back: in every run from boot, what all its calls have taken is
missing from the frames, but for one for each call of `mmiomalloc`. The next call returns exactly
if there are frames left for it. -/
theorem execs_spend (ram : Mem) {x : Ledger}
    (run : Run Ledger.call (fun x c => c.Allowed x.state) (bootLedger ram) x) (size : BitVec 32)
    (program : List (VAddr × Word)) (proper : Proper size program) :
    freeFrames x.state.bitmap + x.spent ≤ 2 ^ 20 - 0x800 + x.returned ∧
      ((exec x.state size program).isSome = true ↔
        spaceFrames size ≤ freeFrames x.state.bitmap) := by
  have b : Balanced ram x := by
    have start : Balanced ram (bootLedger ram) :=
      ⟨⟨bootOwners, initVmm_owned ram⟩, Nat.le_refl (freeFrames (initVmm ram).bitmap + 0)⟩
    refine run.invariant (Balanced ram) start ?_
    intro y c z balanced ok taken
    exact y.call_balanced balanced ok taken
  rcases b.owned with ⟨own, h⟩
  have balance := b.balance
  rw [freeFrames_boot] at balance
  exact ⟨balance, (exec_frames h proper).1⟩

theorem second_exec_returns :
    ∃ x, Run Ledger.call (fun x c => c.Allowed x.state) (bootLedger fun _ _ => 0#32) x ∧
      x.spent = 4 ∧ (exec x.state 4096#32 [(decode 0#32, 7#32)]).isSome = true := by
  have proper : Proper 4096#32 [(decode 0#32, 7#32)] := by
    refine ⟨by decide, ?_⟩
    intro x member
    rw [List.mem_singleton.mp member]
    exact ⟨0, by decide, by decide⟩
  have cost : spaceFrames 4096#32 = 4 := by decide
  rcases exec_frames (initVmm_owned fun _ _ => 0#32) proper with ⟨returns, frames⟩
  rw [cost, freeFrames_boot] at returns frames
  rcases Option.isSome_iff_exists.mp (returns.mpr (by omega)) with ⟨s, first⟩
  have goes : (bootLedger fun _ _ => 0#32).call (.exec 4096#32 [(decode 0#32, 7#32)]) =
      some ⟨s, 4, 0⟩ := by
    simp only [Ledger.call, bootLedger, call, first, cost, Option.bind_eq_bind, Option.bind_some,
      Option.pure_def, Nat.zero_add]
  have run : Run Ledger.call (fun x c => c.Allowed x.state) (bootLedger fun _ _ => 0#32)
      ⟨s, 4, 0⟩ := Run.tail (a := .exec 4096#32 [(decode 0#32, 7#32)]) .refl proper goes
  refine ⟨⟨s, 4, 0⟩, run, rfl, ?_⟩
  refine (execs_spend _ run 4096#32 _ proper).2.mpr ?_
  have left := (frames s first).2
  rw [cost]
  dsimp only
  omega

end Ledger

end TitorOS.Barrel.Vmm
