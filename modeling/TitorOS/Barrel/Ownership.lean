import TitorOS.Barrel.Vmm

/-! Who owns a frame. Every frame that some address space can reach has one owner, and
an owned frame is marked used; each operation of the memory manager hands frames
over without breaking this. -/

namespace TitorOS.Barrel.Vmm

open TitorOS.Lib TitorOS.Lib.Word TitorOS.Barrel.Pmm

/-- `kernel` are the frames set aside at boot and those lost for good. -/
inductive Owner where
  | free
  | kernel
  | heap (slot : Index)
  | table (dir : Index)
  | page (page : VPage)
  deriving DecidableEq

/-- `device` are the heap pages of devices: `mmiomalloc` has put in a frame that the bitmap knows
nothing of, and nobody owns it for that. -/
structure Owners where
  owner : Frame → Owner
  device : Set Index

instance : CoeFun Owners fun _ => Frame → Owner := ⟨Owners.owner⟩

def Owners.give (own : Owners) (f : Frame) (owner : Owner) : Owners :=
  { own with owner := Function.update own.owner f owner }

@[simp] theorem Owners.give_self (own : Owners) (f : Frame) (owner : Owner) :
    own.give f owner f = owner := Function.update_self ..

theorem Owners.give_ne (own : Owners) {f g : Frame} (owner : Owner) (other : g ≠ f) :
    own.give f owner g = own g := Function.update_of_ne other ..

@[simp] theorem Owners.give_device (own : Owners) (f : Frame) (owner : Owner) :
    (own.give f owner).device = own.device := rfl

def CODE_PT : Frame := 0x301#20
def HEAP_PT : Frame := 0x302#20

def State.slot (s : State) (k : Index) : Word := s.mem HEAP_PT k

structure TableOk (mem : Mem) (own : Owners) (dir : Index) (t : Frame) : Prop where
  owner : own t = .table dir
  user : ∀ j, (mem t j).present = true → (mem t j).user = true
  pages : ∀ j, (mem t j).present = true → own (mem t j).frame = .page ⟨dir, j⟩

structure DirOk (mem : Mem) (own : Owners) (d : Frame) : Prop where
  code : (mem d 768#10).present = true ∧ (mem d 768#10).frame = CODE_PT
  heap : (mem d 769#10).present = true ∧ (mem d 769#10).frame = HEAP_PT
  self : (mem d 1023#10).present = true ∧ (mem d 1023#10).frame = d
  gap : ∀ i : Index, 769#10 < i → i < 1023#10 → (mem d i).present = false
  supervisor : ∀ i : Index, 768#10 ≤ i → (mem d i).present = true → (mem d i).user = false
  user : ∀ i : Index, i < USER_DIRS → (mem d i).present = true → (mem d i).user = true
  tables : ∀ i : Index, i < USER_DIRS → (mem d i).present = true → TableOk mem own i (mem d i).frame

def DirPtr.frame (s : State) : DirPtr → Frame
  | .boot => 0x300#20
  | .heap slot => (s.slot slot).frame

structure Owned (s : State) (own : Owners) : Prop where
  low : ∀ f : Frame, f.toNat < 0x400 → own f = .kernel
  used : ∀ f, own f ≠ .free → Pmm.used s.bitmap f = true
  identity : ∀ j, (s.mem CODE_PT j).present = true ∧ (s.mem CODE_PT j).frame = j.setWidth 20
  heap : ∀ k ∉ own.device, (s.slot k).present = true → own (s.slot k).frame = .heap k
  device : ∀ k ∈ own.device, (s.slot k).inUse = true
  inUse : ∀ k, (s.slot k).inUse = true → (s.slot k).present = true
  dirs : ∀ p ∈ s.dirs, DirOk s.mem own (p.frame s)
  dirSlots : ∀ k, .heap k ∈ s.dirs → (s.slot k).inUse = true ∧ k ∉ own.device
  live : ∀ k ∈ s.live, (s.slot k).inUse = true ∧ k ∉ own.device ∧ .heap k ∉ s.dirs
  active : s.active ∈ s.dirs
  cr3 : s.cr3 = s.active.frame s

/-- The words of the frame an entry points to; none are present without it. -/
def contents (s : State) (w : Word) : Index → Word := if w.present then s.mem w.frame else fun _ => 0#32

def pde (s : State) (q : DirPtr) (i : Index) : Word := s.mem (q.frame s) i
def pte (s : State) (q : DirPtr) (page : VPage) : Word := contents s (pde s q page.dir) page.table
def word (s : State) (q : DirPtr) (v : VAddr) : Word := contents s (pte s q v.toVPage) v.word

def Mapped (s : State) (f : Frame) : Prop :=
  ∃ q ∈ s.dirs, ∃ page, (pte s q page).present = true ∧ (pte s q page).frame = f

/-- Mapped, and not only by the page of a device. -/
def Held (s : State) (own : Owners) (f : Frame) : Prop :=
  ∃ q ∈ s.dirs, ∃ page, (∀ k ∈ own.device, page ≠ heapPage k) ∧
    (pte s q page).present = true ∧ (pte s q page).frame = f

theorem Held.mapped {s : State} {own : Owners} {f : Frame} (held : Held s own f) : Mapped s f := by
  rcases held with ⟨q, member, page, _, present, same⟩
  exact ⟨q, member, page, present, same⟩

theorem Mapped.held {s : State} {own : Owners} {f : Frame} (empty : own.device = ∅)
    (mapped : Mapped s f) : Held s own f := by
  rcases mapped with ⟨q, member, page, present, same⟩
  exact ⟨q, member, page, by simp [empty], present, same⟩

/-- The owners a held frame can have. -/
def Reached (s : State) (own : Owners) (f : Frame) : Prop :=
  match own f with
  | .free => False
  | .heap k => (s.slot k).present = true ∧ (s.slot k).frame = f ∧ k ∉ own.device
  | _ => True

theorem heapPt_low : HEAP_PT.toNat < 0x400 := by decide
theorem codePt_low : CODE_PT.toNat < 0x400 := by decide

section Walk

variable {s : State} {own : Owners}

theorem Owned.dir_present (h : Owned s own) {k : Index} (member : .heap k ∈ s.dirs) :
    (s.slot k).present = true := h.inUse k (h.dirSlots k member).1

theorem Owned.dir_heap (h : Owned s own) {k : Index} (member : .heap k ∈ s.dirs) :
    own (s.slot k).frame = .heap k :=
  h.heap k (h.dirSlots k member).2 (h.dir_present member)

/-- A heap page that is not in use is not a device's. -/
theorem Owned.idle_ordinary (h : Owned s own) {k : Index} (idle : (s.slot k).inUse = false) :
    k ∉ own.device := by
  intro member
  rw [h.device k member] at idle
  cases idle

theorem Owned.dir (h : Owned s own) : DirOk s.mem own s.cr3 := by
  rw [h.cr3]
  exact h.dirs s.active h.active

/-- What a directory shows of itself when it maps itself. -/
theorem pageFrame_self
    (self : (s.mem s.cr3 1023#10).present = true ∧ (s.mem s.cr3 1023#10).frame = s.cr3) (i : Index) :
    pageFrame s ⟨1023#10, i⟩ =
      if (s.mem s.cr3 i).present then some (s.mem s.cr3 i).frame else none := by
  simp only [pageFrame, self.1, self.2, if_true]

theorem pageFrame_window (h : Owned s own) (i : Index) :
    pageFrame s ⟨1023#10, i⟩ =
      if (s.mem s.cr3 i).present then some (s.mem s.cr3 i).frame else none :=
  pageFrame_self h.dir.self i

/-- The directory maps itself and the heap's table, which is another frame. -/
structure HeapTable (s : State) : Prop where
  self : (s.mem s.cr3 1023#10).present = true ∧ (s.mem s.cr3 1023#10).frame = s.cr3
  heap : (s.mem s.cr3 HEAP_DIR).present = true ∧ (s.mem s.cr3 HEAP_DIR).frame = HEAP_PT
  apart : s.cr3 ≠ HEAP_PT

theorem pageFrame_heap (h : HeapTable s) (k : Index) :
    pageFrame s (heapPage k) = if (s.slot k).present then some (s.slot k).frame else none := by
  rcases h.heap with ⟨present, frame⟩
  simp only [pageFrame, heapPage, present, frame, if_true, State.slot]
  rfl

theorem load_heapEntry (h : HeapTable s) (k : Index) :
    load s (pageEntry (heapPage k)) = some (s.slot k) := by
  rcases h.heap with ⟨present, frame⟩
  have window := pageFrame_self h.self HEAP_DIR
  rw [present, if_pos rfl, frame] at window
  simp only [load, pageEntry, heapPage, window, Option.map_some, State.slot]

theorem store_heapEntry (h : HeapTable s) (k : Index) (w : Word) :
    store s (pageEntry (heapPage k)) w = some (s.write HEAP_PT k w) := by
  rcases h.heap with ⟨present, frame⟩
  have window := pageFrame_self h.self HEAP_DIR
  rw [present, if_pos rfl, frame] at window
  simp only [store, pageEntry, heapPage, window, Option.map_some]

theorem store_bitmap (s : State) (bitmap : Bitmap) (v : VAddr) (w : Word) :
    store { s with bitmap := bitmap } v w =
      (store s v w).map fun s => { s with bitmap := bitmap } := by
  rw [store, store, Option.map_map]
  rfl

theorem Owned.heapTable (h : Owned s own) : HeapTable s := by
  refine ⟨h.dir.self, h.dir.heap, ?_⟩
  rw [h.cr3]
  cases active : s.active with
  | boot =>
      rw [DirPtr.frame]
      decide
  | heap k =>
      have owner := h.dir_heap (active ▸ h.active)
      rw [DirPtr.frame]
      intro equal
      rw [equal, h.low HEAP_PT heapPt_low] at owner
      cases owner

theorem load_dirEntry (h : Owned s own) (page : VPage) :
    load s (pageEntry (pageEntry page).toVPage) = some (s.mem s.cr3 page.dir) := by
  rcases h.dir.self with ⟨present, frame⟩
  have window := pageFrame_window h 1023#10
  rw [present, if_pos rfl, frame] at window
  simp only [load, pageEntry, window, Option.map_some]

theorem store_dirEntry (h : Owned s own) (page : VPage) (w : Word) :
    store s (pageEntry (pageEntry page).toVPage) w = some (s.write s.cr3 page.dir w) := by
  rcases h.dir.self with ⟨present, frame⟩
  have window := pageFrame_window h 1023#10
  rw [present, if_pos rfl, frame] at window
  simp only [store, pageEntry, window, Option.map_some]

theorem load_entry (h : Owned s own) (page : VPage)
    (table : (s.mem s.cr3 page.dir).present = true) :
    load s (pageEntry page) = some (s.mem (s.mem s.cr3 page.dir).frame page.table) := by
  have window := pageFrame_window h page.dir
  rw [table, if_pos rfl] at window
  simp only [load, pageEntry, window, Option.map_some]

theorem store_entry (h : Owned s own) (page : VPage) (w : Word)
    (table : (s.mem s.cr3 page.dir).present = true) :
    store s (pageEntry page) w =
      some (s.write (s.mem s.cr3 page.dir).frame page.table w) := by
  have window := pageFrame_window h page.dir
  rw [table, if_pos rfl] at window
  simp only [store, pageEntry, window, Option.map_some]

end Walk

theorem present_zero : Word.present 0#32 = false := rfl

theorem contents_present {s : State} {w : Word} (present : w.present = true) :
    contents s w = s.mem w.frame := by
  rw [contents, if_pos present]

theorem contents_congr {s s' : State} {w : Word}
    (same : w.present = true → s'.mem w.frame = s.mem w.frame) : contents s' w = contents s w := by
  cases present : w.present with
  | false => simp [contents, present]
  | true => rw [contents_present present, contents_present present, same present]

theorem pte_present {s : State} {q : DirPtr} (page : VPage)
    (present : (pde s q page.dir).present = true) :
    pte s q page = s.mem (pde s q page.dir).frame page.table := by
  rw [pte, contents_present present]

theorem pte_absent {s : State} {q : DirPtr} (page : VPage)
    (absent : (pde s q page.dir).present = false) : pte s q page = 0#32 := by
  rw [pte, contents, absent, if_neg Bool.false_ne_true]

theorem pte_pde {s : State} {q : DirPtr} {page : VPage} (present : (pte s q page).present = true) :
    (pde s q page.dir).present = true := by
  cases absent : (pde s q page.dir).present with
  | true => rfl
  | false =>
      rw [pte_absent page absent, present_zero] at present
      cases present

theorem page_ne_heap {page : VPage} (other : page.dir ≠ HEAP_DIR) {k : Index} :
    page ≠ heapPage k := by
  rintro rfl
  exact other rfl

theorem user_ne_heap {page : VPage} (below : page.dir < USER_DIRS) {k : Index} :
    page ≠ heapPage k := by
  apply page_ne_heap
  simp only [USER_DIRS, HEAP_DIR] at below ⊢
  bv_omega

/-- What an address space has in user memory is held. -/
theorem held_user {s : State} {own : Owners} {q : DirPtr} (member : q ∈ s.dirs) {page : VPage}
    (below : page.dir < USER_DIRS) (present : (pte s q page).present = true) :
    Held s own (pte s q page).frame :=
  ⟨q, member, page, fun _ _ => user_ne_heap below, present, rfl⟩

theorem index_cases (i : Index) :
    i < USER_DIRS ∨ i = 768#10 ∨ i = 769#10 ∨ (769#10 < i ∧ i < 1023#10) ∨ i = 1023#10 := by
  simp only [USER_DIRS]
  bv_omega

section Mapped

variable {s : State} {own : Owners} (h : Owned s own)
include h

theorem Owned.pte_code {q : DirPtr} (member : q ∈ s.dirs) (j : Index) :
    pte s q ⟨768#10, j⟩ = s.mem CODE_PT j := by
  rcases (h.dirs q member).code with ⟨present, frame⟩
  calc
    pte s q ⟨768#10, j⟩ = s.mem (pde s q 768#10).frame j := pte_present ⟨768#10, j⟩ present
    _ = s.mem CODE_PT j := by rw [pde, frame]

theorem Owned.pte_heap {q : DirPtr} (member : q ∈ s.dirs) (k : Index) :
    pte s q (heapPage k) = s.slot k := by
  rcases (h.dirs q member).heap with ⟨present, frame⟩
  calc
    pte s q (heapPage k) = s.mem (pde s q 769#10).frame k := pte_present (heapPage k) present
    _ = s.slot k := by rw [pde, frame, State.slot]

theorem Owned.pte_self {q : DirPtr} (member : q ∈ s.dirs) (i : Index) :
    pte s q ⟨1023#10, i⟩ = pde s q i := by
  rcases (h.dirs q member).self with ⟨present, frame⟩
  calc
    pte s q ⟨1023#10, i⟩ = s.mem (pde s q 1023#10).frame i := pte_present ⟨1023#10, i⟩ present
    _ = pde s q i := by rw [pde, frame, pde]

theorem Owned.held_low (f : Frame) (low : f.toNat < 0x400) : Held s own f := by
  have code := h.pte_code h.active (f.setWidth 10)
  rcases h.identity (f.setWidth 10) with ⟨present, frame⟩
  refine ⟨s.active, h.active, ⟨768#10, f.setWidth 10⟩, ?_, ?_, ?_⟩
  · exact fun _ _ => page_ne_heap (show 768#10 ≠ HEAP_DIR by decide)
  · rw [code, present]
  · rw [code, frame]
    bv_omega

theorem Owned.held_slot {k : Index} (ordinary : k ∉ own.device)
    (present : (s.slot k).present = true) : Held s own (s.slot k).frame := by
  refine ⟨s.active, h.active, heapPage k, ?_, ?_⟩
  · intro k' device same
    cases same
    exact ordinary device
  · rw [h.pte_heap h.active]
    exact ⟨present, rfl⟩

theorem Owned.held_table {q : DirPtr} (member : q ∈ s.dirs) (i : Index)
    (present : (pde s q i).present = true) : Held s own (pde s q i).frame := by
  refine ⟨q, member, ⟨1023#10, i⟩, fun _ _ => page_ne_heap (show 1023#10 ≠ HEAP_DIR by decide), ?_⟩
  rw [h.pte_self member]
  exact ⟨present, rfl⟩

theorem Owned.held_dir {q : DirPtr} (member : q ∈ s.dirs) : Held s own (q.frame s) := by
  have own_entry := h.held_table member 1023#10 (h.dirs q member).self.1
  rw [pde, (h.dirs q member).self.2] at own_entry
  exact own_entry

theorem Owned.dir_owner {q : DirPtr} (member : q ∈ s.dirs) :
    own (q.frame s) = .kernel ∨ ∃ k, q = .heap k ∧ own (q.frame s) = .heap k := by
  cases q with
  | boot => exact .inl (h.low _ (by decide : (0x300#20).toNat < 0x400))
  | heap k => exact .inr ⟨k, rfl, h.dir_heap member⟩

theorem Owned.dir_ne_low {q : DirPtr} (member : q ∈ s.dirs) {f : Frame} (low : f.toNat < 0x400)
    (other : f ≠ 0x300#20) : q.frame s ≠ f := by
  cases q with
  | boot => exact other.symm
  | heap k =>
      intro equal
      have owner := h.dir_heap member
      rw [show (s.slot k).frame = f from equal, h.low _ low] at owner
      cases owner

theorem Owned.page_owner {q : DirPtr} (member : q ∈ s.dirs) {page : VPage}
    (below : page.dir < USER_DIRS) (present : (pte s q page).present = true) :
    own (pte s q page).frame = .page page := by
  have table := pte_pde present
  rw [pte_present page table] at present ⊢
  exact ((h.dirs q member).tables page.dir below table).pages page.table present

theorem Owned.reached_low {f : Frame} (low : f.toNat < 0x400) : Reached s own f := by
  rw [Reached, h.low f low]
  trivial

theorem Owned.reached_dir {q : DirPtr} (member : q ∈ s.dirs) : Reached s own (q.frame s) := by
  cases q with
  | boot => exact h.reached_low (by decide : (0x300#20).toNat < 0x400)
  | heap k =>
      rw [Reached, show own (DirPtr.frame s (.heap k)) = .heap k from h.dir_heap member]
      exact ⟨h.dir_present member, rfl, (h.dirSlots k member).2⟩

theorem Owned.reached_pde {q : DirPtr} (member : q ∈ s.dirs) (i : Index)
    (present : (pde s q i).present = true) : Reached s own (pde s q i).frame := by
  have ok := h.dirs q member
  rw [pde] at present ⊢
  rcases index_cases i with below | rfl | rfl | gap | rfl
  · rw [Reached, (ok.tables i below present).owner]
    trivial
  · rw [ok.code.2]
    exact h.reached_low codePt_low
  · rw [ok.heap.2]
    exact h.reached_low heapPt_low
  · rw [ok.gap i gap.1 gap.2] at present
    cases present
  · rw [ok.self.2]
    exact h.reached_dir member

theorem Owned.reached {f : Frame} (held : Held s own f) : Reached s own f := by
  rcases held with ⟨q, member, ⟨i, j⟩, ordinary, present, rfl⟩
  rcases index_cases i with below | rfl | rfl | gap | rfl
  · rw [Reached, h.page_owner member below present]
    trivial
  · rw [h.pte_code member, (h.identity j).2]
    exact h.reached_low (by bv_omega)
  · rw [show (⟨769#10, j⟩ : VPage) = heapPage j from rfl, h.pte_heap member] at present ⊢
    have spared : j ∉ own.device := fun device => ordinary j device rfl
    rw [Reached, h.heap j spared present]
    exact ⟨present, rfl, spared⟩
  · have table := pte_pde present
    rw [pde, (h.dirs q member).gap i gap.1 gap.2] at table
    cases table
  · rw [h.pte_self member] at present ⊢
    exact h.reached_pde member j present

/-- What is held is never free. -/
theorem Owned.held_owner {f : Frame} (held : Held s own f) : own f ≠ .free := by
  intro free
  have reached := h.reached held
  rw [Reached, free] at reached
  exact reached

theorem Owned.held_heap {f : Frame} (held : Held s own f) {k : Index} (owner : own f = .heap k) :
    (s.slot k).present = true ∧ (s.slot k).frame = f ∧ k ∉ own.device := by
  have reached := h.reached held
  rw [Reached, owner] at reached
  exact reached

/-- A frame that is not held may change hands. -/
theorem Owned.give {f : Frame} (unheld : ¬Held s own f) (owner : Owner) (bitmap : Bitmap)
    (others : ∀ g, g ≠ f → Pmm.used s.bitmap g = true → Pmm.used bitmap g = true)
    (marked : owner ≠ .free → Pmm.used bitmap f = true) :
    Owned { s with bitmap := bitmap } (own.give f owner) := by
  have kept {g : Frame} (held : Held s own g) : own.give f owner g = own g := by
    apply own.give_ne
    intro equal
    exact unheld (equal ▸ held)
  constructor
  case low =>
    intro g low
    rw [kept (h.held_low g low), h.low g low]
  case used =>
    intro g taken
    by_cases same : g = f
    · rw [same, own.give_self] at taken
      rw [same]
      exact marked taken
    · rw [own.give_ne _ same] at taken
      exact others g same (h.used g taken)
  case identity => exact h.identity
  case heap =>
    intro k ordinary present
    exact (kept (h.held_slot ordinary present)).trans (h.heap k ordinary present)
  case device => exact h.device
  case inUse => exact h.inUse
  case dirs =>
    intro q member
    have ok := h.dirs q member
    refine { ok with tables := ?_ }
    intro i below present
    have table := ok.tables i below present
    refine { table with owner := ?_, pages := ?_ }
    · exact (kept (h.held_table member i present)).trans table.owner
    · intro j mapped
      have entry : pte s q ⟨i, j⟩ = s.mem (pde s q i).frame j := pte_present ⟨i, j⟩ present
      have held : Held s own (pte s q ⟨i, j⟩).frame := held_user member below (entry ▸ mapped)
      rw [entry] at held
      exact (kept held).trans (table.pages j mapped)
  case dirSlots => exact h.dirSlots
  case live => exact h.live
  case active => exact h.active
  case cr3 => exact h.cr3

end Mapped

section Writes

variable {s : State} {own : Owners}

theorem State.write_mem_self (s : State) (f : Frame) (i : Index) (w : Word) :
    (s.write f i w).mem f = Function.update (s.mem f) i w := Function.update_self ..

theorem State.write_mem_ne (s : State) {f g : Frame} (i : Index) (w : Word) (other : g ≠ f) :
    (s.write f i w).mem g = s.mem g := Function.update_of_ne other ..

@[simp] theorem State.write_cr3 (s : State) (f : Frame) (i : Index) (w : Word) :
    (s.write f i w).cr3 = s.cr3 := rfl

theorem State.writeFrame_mem_self (s : State) (f : Frame) (c : Index → Word) :
    (s.writeFrame f c).mem f = c := Function.update_self ..

theorem State.writeFrame_mem_ne (s : State) {f g : Frame} (c : Index → Word) (other : g ≠ f) :
    (s.writeFrame f c).mem g = s.mem g := Function.update_of_ne other ..

theorem ne_of_owner {f g : Frame} {o : Owner} (left : own f = o) (right : own g ≠ o) : f ≠ g := by
  intro equal
  exact right (equal ▸ left)

theorem TableOk.congr {mem mem' : Mem} {i : Index} {t : Frame} (h : TableOk mem own i t)
    (same : mem' t = mem t) : TableOk mem' own i t where
  owner := h.owner
  user := by
    rw [same]
    exact h.user
  pages := by
    rw [same]
    exact h.pages

theorem DirOk.congr {mem mem' : Mem} {d : Frame} (h : DirOk mem own d) (same : mem' d = mem d)
    (tables : ∀ t i, own t = .table i → mem' t = mem t) : DirOk mem' own d := by
  constructor <;> rw [same]
  · exact h.code
  · exact h.heap
  · exact h.self
  · exact h.gap
  · exact h.supervisor
  · exact h.user
  · intro i below present
    have table := h.tables i below present
    exact table.congr (tables _ i table.owner)

theorem DirOk.anyDevice {mem : Mem} {d : Frame} (h : DirOk mem own d) (device : Set Index) :
    DirOk mem { own with device := device } d :=
  { h with tables := fun i below present => { h.tables i below present with } }

/-- A page whose words are data to the processor. -/
structure Loose (s : State) (own : Owners) (f : Frame) : Prop where
  kernel : own f ≠ .kernel
  table : ∀ i, own f ≠ .table i
  dir : ∀ q ∈ s.dirs, q.frame s ≠ f

theorem Owned.loose_free (h : Owned s own) {f : Frame} (free : own f = .free) : Loose s own f := by
  constructor
  · simp [free]
  · simp [free]
  · intro q member equal
    rw [← equal] at free
    exact h.held_owner (h.held_dir member) free

theorem Owned.loose_heap (h : Owned s own) {f : Frame} {k : Index} (owner : own f = .heap k)
    (apart : .heap k ∉ s.dirs) : Loose s own f := by
  constructor
  · simp [owner]
  · simp [owner]
  · intro q member equal
    subst equal
    rcases h.dir_owner member with kernel | ⟨k', rfl, heap⟩
    · simp [owner] at kernel
    · simp only [owner, Owner.heap.injEq] at heap
      exact apart (heap ▸ member)

theorem Owned.loose_page (h : Owned s own) {f : Frame} {page : VPage} (owner : own f = .page page) :
    Loose s own f := by
  constructor
  · simp [owner]
  · simp [owner]
  · intro q member equal
    subst equal
    rcases h.dir_owner member with kernel | ⟨k, _, heap⟩
    · simp [owner] at kernel
    · simp [owner] at heap

/-- A frame rewritten that is neither of the kernel's two tables. -/
theorem Owned.rewrite (h : Owned s own) {f : Frame} (code : f ≠ CODE_PT) (heap : f ≠ HEAP_PT)
    (c : Index → Word) (dirs : ∀ q ∈ s.dirs, DirOk (s.writeFrame f c).mem own (q.frame s)) :
    Owned (s.writeFrame f c) own := by
  have slot (k : Index) : (s.writeFrame f c).slot k = s.slot k :=
    congrFun (s.writeFrame_mem_ne c heap.symm) k
  have frame (q : DirPtr) : q.frame (s.writeFrame f c) = q.frame s := by
    cases q with
    | boot => rfl
    | heap k => rw [DirPtr.frame, slot, DirPtr.frame]
  constructor
  case low => exact h.low
  case used => exact h.used
  case identity =>
    rw [s.writeFrame_mem_ne c code.symm]
    exact h.identity
  case heap =>
    simp only [slot]
    exact h.heap
  case device =>
    simp only [slot]
    exact h.device
  case inUse =>
    simp only [slot]
    exact h.inUse
  case dirs =>
    intro q member
    rw [frame]
    exact dirs q member
  case dirSlots =>
    simp only [slot]
    exact h.dirSlots
  case live =>
    simp only [slot]
    exact h.live
  case active => exact h.active
  case cr3 =>
    rw [frame]
    exact h.cr3

theorem Owned.writeFrame (h : Owned s own) {f : Frame} (loose : Loose s own f)
    (c : Index → Word) : Owned (s.writeFrame f c) own := by
  apply h.rewrite
  · exact (ne_of_owner (h.low CODE_PT codePt_low) loose.kernel).symm
  · exact (ne_of_owner (h.low HEAP_PT heapPt_low) loose.kernel).symm
  · intro q member
    apply (h.dirs q member).congr (s.writeFrame_mem_ne c (loose.dir q member))
    intro t i owner
    exact s.writeFrame_mem_ne c (ne_of_owner owner (loose.table i))

theorem Owned.table_ne_dir (h : Owned s own) {t : Frame} {i : Index} (owner : own t = .table i)
    {q : DirPtr} (member : q ∈ s.dirs) : q.frame s ≠ t := by
  intro equal
  subst equal
  rcases h.dir_owner member with kernel | ⟨k, _, heap⟩
  · simp [owner] at kernel
  · simp [owner] at heap

theorem Owned.writeTable (h : Owned s own) {t : Frame} {i : Index} (owner : own t = .table i)
    (j : Index) (w : Word) (user : w.present = true → w.user = true)
    (page : w.present = true → own w.frame = .page ⟨i, j⟩) : Owned (s.write t j w) own := by
  apply h.rewrite
  · exact ne_of_owner owner (by simp [h.low _ codePt_low])
  · exact ne_of_owner owner (by simp [h.low _ heapPt_low])
  · intro q member
    have ok := h.dirs q member
    have same := s.writeFrame_mem_ne (Function.update (s.mem t) j w) (h.table_ne_dir owner member)
    constructor <;> rw [same]
    · exact ok.code
    · exact ok.heap
    · exact ok.self
    · exact ok.gap
    · exact ok.supervisor
    · exact ok.user
    · intro i' below present
      have table := ok.tables i' below present
      by_cases here : (s.mem (q.frame s) i').frame = t
      · have index : i' = i := by
          have twice := table.owner
          rw [here, owner] at twice
          cases twice
          rfl
        subst index
        rw [here]
        rw [here] at table
        have row (j' : Index) : (s.writeFrame t (Function.update (s.mem t) j w)).mem t j' =
            if j' = j then w else s.mem t j' := by
          rw [s.writeFrame_mem_self, Function.update_apply]
        constructor
        · exact owner
        · intro j'
          rw [row]
          split
          · exact user
          · exact table.user j'
        · intro j'
          rw [row]
          split
          · rename_i same
            subst same
            exact page
          · exact table.pages j'
      · exact table.congr (s.writeFrame_mem_ne _ here)

theorem DirOk.update {mem mem' : Mem} {d : Frame} (h : DirOk mem own d) {i : Index}
    (below : i < USER_DIRS) {w : Word} (user : w.present = true → w.user = true)
    (table : w.present = true → TableOk mem own i w.frame)
    (row : mem' d = Function.update (mem d) i w)
    (tables : ∀ t i, own t = .table i → mem' t = mem t) : DirOk mem' own d := by
  have kernel {i' : Index} (above : 768#10 ≤ i') : mem' d i' = mem d i' := by
    rw [row]
    apply Function.update_of_ne
    simp only [USER_DIRS] at below
    bv_omega
  constructor
  case code =>
    rw [kernel (by decide)]
    exact h.code
  case heap =>
    rw [kernel (by decide)]
    exact h.heap
  case self =>
    rw [kernel (by decide)]
    exact h.self
  case gap =>
    intro i' low high
    rw [kernel (by bv_omega)]
    exact h.gap i' low high
  case supervisor =>
    intro i' above
    rw [kernel above]
    exact h.supervisor i' above
  case user =>
    intro i' below'
    rw [row, Function.update_apply]
    split
    · exact user
    · exact h.user i' below'
  case tables =>
    intro i' below'
    rw [row, Function.update_apply]
    split
    · rename_i same
      subst same
      intro present
      exact (table present).congr (tables _ i' (table present).owner)
    · intro present
      have other := h.tables i' below' present
      exact other.congr (tables _ i' other.owner)

theorem Owned.writeDir (h : Owned s own) (i : Index) (below : i < USER_DIRS) (w : Word)
    (user : w.present = true → w.user = true)
    (table : w.present = true → TableOk s.mem own i w.frame) : Owned (s.write s.cr3 i w) own := by
  have active : s.active.frame s = s.cr3 := h.cr3.symm
  have tables (t : Frame) (i' : Index) (owner : own t = .table i') :
      (s.write s.cr3 i w).mem t = s.mem t := by
    apply s.write_mem_ne
    rw [← active]
    exact (h.table_ne_dir owner h.active).symm
  apply h.rewrite
  · rw [← active]
    exact h.dir_ne_low h.active codePt_low (by decide)
  · rw [← active]
    exact h.dir_ne_low h.active heapPt_low (by decide)
  · intro q member
    by_cases here : q.frame s = s.cr3
    · rw [here]
      exact h.dir.update below user table (s.write_mem_self s.cr3 i w) tables
    · exact (h.dirs q member).congr (s.write_mem_ne i w here) tables

/-- The entry of a heap page, which may become a device's. -/
theorem Owned.writeSlot (h : Owned s own) (k : Index) (w : Word) (device : Set Index)
    (same : ∀ k' ≠ k, k' ∈ device ↔ k' ∈ own.device) (apart : .heap k ∉ s.dirs)
    (live : k ∈ s.live → w.inUse = true ∧ k ∉ device)
    (frame : k ∉ device → w.present = true → own w.frame = .heap k)
    (claimed : k ∈ device → w.inUse = true) (inUse : w.inUse = true → w.present = true) :
    Owned (s.write HEAP_PT k w) { own with device := device } := by
  have fixed {g : Frame} (other : g ≠ HEAP_PT) : (s.write HEAP_PT k w).mem g = s.mem g :=
    s.write_mem_ne k w other
  have slot (k' : Index) : (s.write HEAP_PT k w).slot k' = if k' = k then w else s.slot k' := by
    rw [State.slot, s.write_mem_self, Function.update_apply]
    rfl
  have dirFrame (q : DirPtr) (member : q ∈ s.dirs) : q.frame (s.write HEAP_PT k w) = q.frame s := by
    cases q with
    | boot => rfl
    | heap k' =>
        have other : k' ≠ k := fun equal => apart (equal ▸ member)
        rw [DirPtr.frame, slot, if_neg other, DirPtr.frame]
  constructor
  case low => exact h.low
  case used => exact h.used
  case identity =>
    rw [fixed (by decide)]
    exact h.identity
  case heap =>
    intro k' ordinary
    rw [slot]
    split
    · rename_i here
      subst here
      exact frame ordinary
    · rename_i other
      exact h.heap k' (mt (same k' other).mpr ordinary)
  case device =>
    intro k' member
    rw [slot]
    split
    · rename_i here
      subst here
      exact claimed member
    · rename_i other
      exact h.device k' ((same k' other).mp member)
  case inUse =>
    intro k'
    rw [slot]
    split
    · exact inUse
    · exact h.inUse k'
  case dirs =>
    intro q member
    rw [dirFrame q member]
    apply ((h.dirs q member).anyDevice device).congr
      (fixed (h.dir_ne_low member heapPt_low (by decide)))
    intro t i owner
    exact fixed (ne_of_owner owner (by simp [h.low _ heapPt_low]))
  case dirSlots =>
    intro k' member
    have other : k' ≠ k := fun equal => apart (equal ▸ member)
    rw [slot, if_neg other]
    exact ⟨(h.dirSlots k' member).1, mt (same k' other).mp (h.dirSlots k' member).2⟩
  case live =>
    intro k' member
    rw [slot]
    split
    · rename_i here
      subst here
      exact ⟨(live member).1, (live member).2, apart⟩
    · rename_i other
      rcases h.live k' member with ⟨busy, ordinary, not_dir⟩
      exact ⟨busy, mt (same k' other).mp ordinary, not_dir⟩
  case active => exact h.active
  case cr3 => exact h.cr3.trans (dirFrame s.active h.active).symm

theorem Owned.writeHeap (h : Owned s own) (k : Index) (w : Word) (ordinary : k ∉ own.device)
    (apart : .heap k ∉ s.dirs) (live : k ∈ s.live → w.inUse = true)
    (frame : w.present = true → own w.frame = .heap k)
    (inUse : w.inUse = true → w.present = true) : Owned (s.write HEAP_PT k w) own :=
  h.writeSlot k w own.device (fun _ _ => Iff.rfl) apart (fun member => ⟨live member, ordinary⟩)
    (fun _ => frame) (fun device => absurd device ordinary) inUse

end Writes

/-- Nothing is written to a frame that stays unused. -/
def Spared (s s' : State) : Prop :=
  ∀ f, Pmm.used s'.bitmap f = false → Pmm.used s.bitmap f = false ∧ s'.mem f = s.mem f

theorem Spared.trans {s t u : State} (first : Spared s t) (second : Spared t u) : Spared s u := by
  intro f unused
  rcases second f unused with ⟨middle, later⟩
  rcases first f middle with ⟨start, earlier⟩
  exact ⟨start, later.trans earlier⟩

theorem spared_writeFrame {s : State} {f : Frame} (marked : Pmm.used s.bitmap f = true)
    (c : Index → Word) : Spared s (s.writeFrame f c) := by
  intro g unused
  have unused : Pmm.used s.bitmap g = false := unused
  refine ⟨unused, s.writeFrame_mem_ne c ?_⟩
  intro equal
  rw [equal, marked] at unused
  cases unused

theorem spared_write {s : State} {f : Frame} (marked : Pmm.used s.bitmap f = true) (i : Index)
    (w : Word) : Spared s (s.write f i w) :=
  spared_writeFrame marked _

/-- Work of the kernel that changes no address space below the kernel's part. -/
structure Background (s s' : State) : Prop where
  dirs : s'.dirs = s.dirs
  live : s'.live = s.live
  active : s'.active = s.active
  cr3 : s'.cr3 = s.cr3
  frames : ∀ q ∈ s.dirs, q.frame s' = q.frame s
  pdes : ∀ q ∈ s.dirs, ∀ i, pde s' q i = pde s q i
  ptes : ∀ q ∈ s.dirs, ∀ page, page.dir < USER_DIRS → pte s' q page = pte s q page
  words : ∀ q ∈ s.dirs, ∀ v, v.dir < USER_DIRS → word s' q v = word s q v
  spared : Spared s s'

theorem Background.trans {s t u : State} (first : Background s t) (second : Background t u) :
    Background s u := by
  have member {q : DirPtr} (m : q ∈ s.dirs) : q ∈ t.dirs := first.dirs.symm ▸ m
  constructor
  case dirs => exact second.dirs.trans first.dirs
  case live => exact second.live.trans first.live
  case active => exact second.active.trans first.active
  case cr3 => exact second.cr3.trans first.cr3
  case frames =>
    intro q m
    exact (second.frames q (member m)).trans (first.frames q m)
  case pdes =>
    intro q m i
    exact (second.pdes q (member m) i).trans (first.pdes q m i)
  case ptes =>
    intro q m page below
    exact (second.ptes q (member m) page below).trans (first.ptes q m page below)
  case words =>
    intro q m v below
    exact (second.words q (member m) v below).trans (first.words q m v below)
  case spared => exact first.spared.trans second.spared

section Background

variable {s : State} {own : Owners}

theorem background_pmalloc (s : State) {f : Frame} {bitmap : Bitmap}
    (taken : pmalloc s.bitmap = some (f, bitmap)) : Background s { s with bitmap := bitmap } := by
  have spared : Spared s { s with bitmap := bitmap } := by
    intro g unused
    rw [show (State.mk _ _ _ _ _ _).bitmap = bitmap from rfl, (pmalloc_spec _ _ _ taken).2,
      used_puse, Bool.or_eq_false_iff] at unused
    exact ⟨unused.2, rfl⟩
  constructor
  case spared => exact spared
  all_goals intros; rfl

/-- Whatever touches no directory, no page table and no user page. -/
theorem Owned.background (h : Owned s own) {mem : Mem} (spared : Spared s { s with mem := mem })
    (slots : ∀ k, .heap k ∈ s.dirs → mem HEAP_PT k = s.slot k)
    (dirs : ∀ q ∈ s.dirs, mem (q.frame s) = s.mem (q.frame s))
    (tables : ∀ t i, own t = .table i → mem t = s.mem t)
    (pages : ∀ f page, own f = .page page → mem f = s.mem f) :
    Background s { s with mem := mem } := by
  have frame (q : DirPtr) (member : q ∈ s.dirs) : q.frame { s with mem := mem } = q.frame s := by
    cases q with
    | boot => rfl
    | heap k => exact congrArg Word.frame (slots k member)
  have pdes (q : DirPtr) (member : q ∈ s.dirs) (i : Index) :
      pde { s with mem := mem } q i = pde s q i := by
    rw [pde, frame q member]
    exact congrFun (dirs q member) i
  have ptes (q : DirPtr) (member : q ∈ s.dirs) (page : VPage) (below : page.dir < USER_DIRS) :
      pte { s with mem := mem } q page = pte s q page := by
    rw [pte, pdes q member, pte]
    apply congrFun (contents_congr _)
    intro present
    exact tables _ _ ((h.dirs q member).tables page.dir below present).owner
  constructor
  case dirs => rfl
  case live => rfl
  case active => rfl
  case cr3 => rfl
  case frames => exact frame
  case pdes => exact pdes
  case ptes => exact ptes
  case words =>
    intro q member v below
    rw [word, ptes q member _ below, word]
    apply congrFun (contents_congr _)
    intro present
    exact pages _ _ (h.page_owner member below present)
  case spared => exact spared

theorem Owned.background_writeHeap (h : Owned s own) (k : Index) (w : Word)
    (apart : .heap k ∉ s.dirs) : Background s (s.write HEAP_PT k w) := by
  have low := h.low HEAP_PT heapPt_low
  apply h.background
  · exact spared_write (h.used HEAP_PT (by simp [low])) k w
  · intro k' member
    have other : k' ≠ k := fun equal => apart (equal ▸ member)
    rw [Function.update_self, Function.update_of_ne other, State.slot]
  · intro q member
    exact Function.update_of_ne (h.dir_ne_low member heapPt_low (by decide)) ..
  · intro t i owner
    exact Function.update_of_ne (ne_of_owner owner (by simp [low])) ..
  · intro f page owner
    exact Function.update_of_ne (ne_of_owner owner (by simp [low])) ..

theorem Owned.background_writeFrame (h : Owned s own) {f : Frame} (loose : Loose s own f)
    (unseen : ∀ page, own f ≠ .page page) (marked : Pmm.used s.bitmap f = true)
    (c : Index → Word) : Background s (s.writeFrame f c) := by
  have other := ne_of_owner (h.low HEAP_PT heapPt_low) loose.kernel
  apply h.background
  · exact spared_writeFrame marked c
  · intro k _
    rw [Function.update_of_ne other, State.slot]
  · intro q member
    exact Function.update_of_ne (loose.dir q member) ..
  · intro t i owner
    exact Function.update_of_ne (ne_of_owner owner (loose.table i)) ..
  · intro g page owner
    exact Function.update_of_ne (ne_of_owner owner (unseen page)) ..

end Background

end TitorOS.Barrel.Vmm
