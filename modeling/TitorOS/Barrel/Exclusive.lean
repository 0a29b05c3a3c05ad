import TitorOS.Barrel.Isolation

/-! The kernel heap under any sequence of its calls. A slot's used bit says who may hand the page
out, its present bit whether a frame is still there; they change apart, and the frames are
counted in the bitmap. -/

namespace TitorOS.Barrel.Vmm

open TitorOS.Lib TitorOS.Lib.Word TitorOS.Barrel.Pmm

/-- The memory manager, with the heap pages that are allocated and those of them that
`mmiomalloc` installed. -/
structure Heap where
  state : State
  allocated : Finset Index
  devices : Finset Index

inductive HeapCall where
  | kmalloc
  | kfree (vaddr : Index)
  | mmiomalloc (paddr : Word)
  | detach (vaddr : Index)

def Heap.call (h : Heap) : HeapCall → Option Heap
  | .kmalloc => do
      let (vaddr, s) ← kmalloc h.state
      return { h with state := s, allocated := insert vaddr h.allocated }
  | .kfree vaddr => do
      let s ← kfree h.state vaddr
      return { h with state := s, allocated := h.allocated.erase vaddr }
  | .mmiomalloc paddr => do
      let (vaddr, s) ← mmiomalloc h.state paddr
      return ⟨s, insert vaddr h.allocated, insert vaddr h.devices⟩
  | .detach vaddr => do
      let (_, s) ← detach h.state vaddr
      return { h with state := s, allocated := h.allocated.erase vaddr }

/-- A page that `kmalloc` returned and that was not given back. -/
def Heap.Holds (h : Heap) (vaddr : Index) : Prop := vaddr ∈ h.allocated ∧ vaddr ∉ h.devices

/-- What the callers promise. -/
def HeapCall.Fair (h : Heap) : HeapCall → Prop
  | .kmalloc => True
  | .kfree vaddr => h.Holds vaddr
  | .mmiomalloc paddr => paddr &&& 0x00000FFF#32 = 0#32
  | .detach vaddr => h.Holds vaddr

def bootHeap (ram : Mem) : Heap := ⟨initVmm ram, ∅, ∅⟩

/-- The used bits are the pages allocated, and each frame that `kmalloc` has put on the heap is
marked and lies in one slot. -/
structure Exclusive (h : Heap) : Prop where
  table : HeapTable h.state
  inUse : ∀ k, (h.state.slot k).inUse = true ↔ k ∈ h.allocated
  devices : ∀ k, k ∈ h.devices → k ∈ h.allocated
  marked : ∀ k, k ∉ h.devices → (h.state.slot k).present = true →
    used h.state.bitmap (h.state.slot k).frame = true
  distinct : ∀ j k, j ∉ h.devices → k ∉ h.devices → (h.state.slot j).present = true →
    (h.state.slot k).present = true → (h.state.slot j).frame = (h.state.slot k).frame → j = k

section Calls

variable {h : Heap}

theorem Exclusive.idle_iff (x : Exclusive h) (k : Index) :
    (h.state.slot k).inUse = false ↔ k ∉ h.allocated := by
  rw [← x.inUse k, Bool.not_eq_true]

/-- One slot is written, and the bitmap changed with it: what the new entry has to meet, and
that the frames of the other slots stay marked. -/
theorem Exclusive.set (x : Exclusive h) (k : Index) (w : Word) (bitmap : Bitmap)
    {allocated devices : Finset Index}
    (used_bit : w.inUse = true ↔ k ∈ allocated)
    (pages : ∀ j, j ≠ k → (j ∈ allocated ↔ j ∈ h.allocated))
    (installed : k ∈ devices → k ∈ allocated)
    (others : ∀ j, j ≠ k → (j ∈ devices ↔ j ∈ h.devices))
    (marks : ∀ j, j ≠ k → j ∉ h.devices → (h.state.slot j).present = true →
      used bitmap (h.state.slot j).frame = true)
    (frame : k ∉ devices → w.present = true → used bitmap w.frame = true ∧
      ∀ j, j ≠ k → j ∉ h.devices → (h.state.slot j).present = true →
        (h.state.slot j).frame ≠ w.frame) :
    Exclusive ⟨State.write { h.state with bitmap := bitmap } HEAP_PT k w, allocated, devices⟩ := by
  have here : (State.write { h.state with bitmap := bitmap } HEAP_PT k w).slot k = w := by
    rw [State.slot_write, if_pos rfl]
  have there (j : Index) (other : j ≠ k) :
      (State.write { h.state with bitmap := bitmap } HEAP_PT k w).slot j = h.state.slot j := by
    rw [State.slot_write, if_neg other]
    rfl
  constructor
  · exact (x.table.claim bitmap).write k w
  · intro j
    by_cases same : j = k
    · rw [same, here]
      exact used_bit
    · rw [there j same, pages j same]
      exact x.inUse j
  · intro j member
    by_cases same : j = k
    · rw [same] at member ⊢
      exact installed member
    · exact (pages j same).mpr (x.devices j ((others j same).mp member))
  · intro j plain
    by_cases same : j = k
    · rw [same] at plain ⊢
      rw [here]
      exact fun present => (frame plain present).1
    · rw [there j same]
      exact marks j same (mt (others j same).mpr plain)
  · intro i j plain plain' present present' equal
    by_cases first : i = k
    · by_cases second : j = k
      · rw [first, second]
      · rw [first] at plain present equal
        rw [here] at present equal
        rw [there j second] at present' equal
        have apart := (frame plain present).2 j second (mt (others j second).mpr plain') present'
        exact absurd equal.symm apart
    · by_cases second : j = k
      · rw [second] at plain' present' equal
        rw [here] at present' equal
        rw [there i first] at present equal
        have apart := (frame plain' present').2 i first (mt (others i first).mpr plain) present
        exact absurd equal apart
      · rw [there i first] at present equal
        rw [there j second] at present' equal
        exact x.distinct i j (mt (others i first).mpr plain) (mt (others j second).mpr plain')
          present present' equal

theorem Exclusive.kmalloc (x : Exclusive h) {k : Index} {s : State}
    (taken : Vmm.kmalloc h.state = some (k, s)) :
    IsLeast {j | j ∉ h.allocated} k ∧ (s.slot k).present = true ∧
      Exclusive { h with state := s, allocated := insert k h.allocated } := by
  rcases kmalloc_slot x.table taken with ⟨idle, lower, entry⟩
  have free := (x.idle_iff k).mp idle
  have plain := mt (x.devices k) free
  refine ⟨⟨free, ?_⟩, ?_⟩
  · intro j unallocated
    by_contra below
    exact unallocated ((x.inUse j).mp (lower j (BitVec.not_le.mp below)))
  · rcases entry with ⟨present, rfl⟩ | ⟨f, bitmap, allocated, rfl⟩
    · refine ⟨?_, x.set k _ h.state.bitmap ?_ ?_ ?_ ?_ ?_ ?_⟩
      · rw [State.slot_write, if_pos rfl, claim_present, present]
      · simp [claim_inUse]
      · exact fun _ other => Finset.mem_insert.trans (or_iff_right other)
      · exact fun member => absurd member plain
      · exact fun _ _ => Iff.rfl
      · exact fun j _ => x.marked j
      · intro _ _
        rw [claim_frame]
        refine ⟨x.marked k plain present, ?_⟩
        intro j other plain_j present_j equal
        exact other (x.distinct j k plain_j plain present_j present equal)
    · rcases pmalloc_spec _ _ _ allocated with ⟨unmarked, rfl⟩
      have entry_present : (address f + 0b100000000011#32).present = true :=
        entry_getLsbD f _ (by decide) 0 (by decide)
      have entry_inUse : (address f + 0b100000000011#32).inUse = true :=
        entry_getLsbD f _ (by decide) 11 (by decide)
      refine ⟨?_, x.set k _ _ ?_ ?_ ?_ ?_ ?_ ?_⟩
      · rw [State.slot_write, if_pos rfl, entry_present]
      · simp [entry_inUse]
      · exact fun _ other => Finset.mem_insert.trans (or_iff_right other)
      · exact fun member => absurd member plain
      · exact fun _ _ => Iff.rfl
      · intro j _ plain_j present_j
        rw [used_puse, x.marked j plain_j present_j, Bool.or_true]
      · intro _ _
        rw [entry_frame f _ (by decide)]
        refine ⟨by simp [used_puse], ?_⟩
        intro j _ plain_j present_j equal
        have marked := x.marked j plain_j present_j
        rw [equal, unmarked] at marked
        cases marked

theorem Exclusive.kfree (x : Exclusive h) {k : Index} (held : h.Holds k) {s : State}
    (freed : Vmm.kfree h.state k = some s) :
    Exclusive { h with state := s, allocated := h.allocated.erase k } := by
  rw [kfree_eq x.table] at freed
  cases freed
  apply x.set k _ h.state.bitmap
  · simp [release_inUse]
  · exact fun _ other => Finset.mem_erase.trans (and_iff_right other)
  · exact fun member => absurd member held.2
  · exact fun _ _ => Iff.rfl
  · exact fun j _ => x.marked j
  · intro plain present
    rw [release_present] at present
    rw [release_frame]
    refine ⟨x.marked k plain present, ?_⟩
    intro j other plain_j present_j equal
    exact other (x.distinct j k plain_j plain present_j present equal)

theorem Exclusive.detach (x : Exclusive h) {k : Index} (held : h.Holds k) {f : Frame} {s : State}
    (cleared : Vmm.detach h.state k = some (f, s)) :
    Exclusive { h with state := s, allocated := h.allocated.erase k } := by
  rw [detach_eq x.table] at cleared
  cases cleared
  apply x.set k _ h.state.bitmap
  · simp [Word.inUse]
  · exact fun _ other => Finset.mem_erase.trans (and_iff_right other)
  · exact fun member => absurd member held.2
  · exact fun _ _ => Iff.rfl
  · exact fun j _ => x.marked j
  · intro _ present
    rw [present_zero] at present
    cases present

theorem Exclusive.mmiomalloc (x : Exclusive h) {paddr : Word}
    (aligned : paddr &&& 0x00000FFF#32 = 0#32) {k : Index} {s : State}
    (taken : Vmm.mmiomalloc h.state paddr = some (k, s)) :
    Exclusive ⟨s, insert k h.allocated, insert k h.devices⟩ := by
  rcases mmiomalloc_eq x.table taken with ⟨t, allocated, rfl⟩
  rcases x.kmalloc allocated with ⟨least, present, y⟩
  have plain : k ∉ h.devices := mt (x.devices k) least.1
  have busy : (t.slot k).inUse = true := (y.inUse k).mpr (Finset.mem_insert_self k _)
  rcases deviceEntry paddr (t.slot k) aligned with ⟨_, _, same⟩
  apply y.set k _ (pfree t.bitmap (t.slot k).frame)
  · simp [same, busy]
  · exact fun _ _ => Iff.rfl
  · exact fun _ => Finset.mem_insert_self k _
  · exact fun _ other => Finset.mem_insert.trans (or_iff_right other)
  · intro j other plain_j present_j
    have apart : (t.slot j).frame ≠ (t.slot k).frame := by
      intro equal
      exact other (y.distinct j k plain_j plain present_j present equal)
    rw [used_pfree, y.marked j plain_j present_j]
    simp [apart]
  · exact fun outside => absurd (Finset.mem_insert_self k _) outside

theorem Exclusive.call (x : Exclusive h) {c : HeapCall} (fair : c.Fair h) {h' : Heap}
    (done : h.call c = some h') : Exclusive h' := by
  cases c with
  | kmalloc =>
      simp only [Heap.call, Option.bind_eq_bind, Option.bind_eq_some_iff, Option.pure_def,
        Option.some.injEq] at done
      rcases done with ⟨⟨k, s⟩, taken, rfl⟩
      exact (x.kmalloc taken).2.2
  | kfree k =>
      simp only [Heap.call, Option.bind_eq_bind, Option.bind_eq_some_iff, Option.pure_def,
        Option.some.injEq] at done
      rcases done with ⟨s, freed, rfl⟩
      exact x.kfree fair freed
  | mmiomalloc paddr =>
      simp only [Heap.call, Option.bind_eq_bind, Option.bind_eq_some_iff, Option.pure_def,
        Option.some.injEq] at done
      rcases done with ⟨⟨k, s⟩, taken, rfl⟩
      exact x.mmiomalloc fair taken
  | detach k =>
      simp only [Heap.call, Option.bind_eq_bind, Option.bind_eq_some_iff, Option.pure_def,
        Option.some.injEq] at done
      rcases done with ⟨⟨f, s⟩, cleared, rfl⟩
      exact x.detach fair cleared

end Calls

theorem bootHeap_exclusive (ram : Mem) : Exclusive (bootHeap ram) := by
  have empty (k : Index) : ((bootHeap ram).state.slot k).present = false := by
    rw [bootHeap, initVmm_slot, present_zero]
  constructor
  · exact (initVmm_owned ram).heapTable
  · intro k
    simp [bootHeap, initVmm_slot, Word.inUse]
  · intro k member
    cases member
  · intro k _ present
    rw [empty] at present
    cases present
  · intro j k _ _ present
    rw [empty] at present
    cases present

theorem run_exclusive (ram : Mem) {h : Heap}
    (run : Run Heap.call (fun h c => c.Fair h) (bootHeap ram) h) : Exclusive h := by
  apply run.invariant Exclusive (bootHeap_exclusive ram)
  intro t c u x fair done
  exact x.call fair done

/-- However its calls follow each other, `kmalloc` hands out the lowest page that is not
allocated, two slots of it never share a frame, and with a frame to be had it only fails with
every page allocated. -/
theorem heap_exclusive (ram : Mem) {h : Heap}
    (run : Run Heap.call (fun h c => c.Fair h) (bootHeap ram) h) :
    (∀ vaddr s, kmalloc h.state = some (vaddr, s) → IsLeast {k | k ∉ h.allocated} vaddr) ∧
      (∀ j k f, j ∉ h.devices → k ∉ h.devices → pageFrame h.state (heapPage j) = some f →
        pageFrame h.state (heapPage k) = some f → j = k) ∧
      ((∃ f, used h.state.bitmap f = false) →
        (kmalloc h.state = none ↔ ∀ k, k ∈ h.allocated)) := by
  have x := run_exclusive ram run
  refine ⟨?_, ?_, ?_⟩
  · intro vaddr s taken
    exact (x.kmalloc taken).1
  · intro j k f plain plain' first second
    rw [pageFrame_heap x.table, Option.ite_none_right_eq_some, Option.some.injEq] at first second
    exact x.distinct j k plain plain' first.1 second.1 (first.2.trans second.2.symm)
  · rintro ⟨f, free⟩
    constructor
    · intro panics k
      by_contra unallocated
      have goes := kmalloc_isSome x.table ((x.idle_iff k).mpr unallocated) free
      rw [panics] at goes
      cases goes
    · intro full
      cases taken : kmalloc h.state with
      | none => rfl
      | some result => exact absurd (full result.1) (x.kmalloc taken).1.1

instance (h : Heap) (c : HeapCall) : Decidable (c.Fair h) :=
  match c with
  | .kmalloc => inferInstanceAs (Decidable True)
  | .kfree _ => inferInstanceAs (Decidable (_ ∧ _))
  | .mmiomalloc _ => inferInstanceAs (Decidable (_ = _))
  | .detach _ => inferInstanceAs (Decidable (_ ∧ _))

/-- Two pages and a device; the first page is given back and taken again, the second is moved
off the heap and its slot filled anew. The next page is the fourth. -/
theorem fourth_page_next :
    ∃ h s, Run Heap.call (fun h c => c.Fair h) (bootHeap fun _ _ => 0#32) h ∧
      h.allocated = {0#10, 1#10, 2#10} ∧ h.devices = {2#10} ∧
      kmalloc h.state = some (3#10, s) ∧ IsLeast {k | k ∉ h.allocated} 3#10 := by
  have check : (runList (fun h c => if HeapCall.Fair h c then h.call c else none)
      ⟨sampleBoot, ∅, ∅⟩ [.kmalloc, .kmalloc, .mmiomalloc 0xFEBF0000#32, .kfree 0#10, .kmalloc,
        .detach 1#10, .kmalloc]).any (fun h =>
          h.allocated = {0#10, 1#10, 2#10} ∧ h.devices = {2#10} ∧
            (kmalloc h.state).any (fun result => result.1 = 3#10) = true) = true := by
    decide +kernel
  rcases (Option.any_eq_true _ _).mp check with ⟨h, sample, facts⟩
  rcases of_decide_eq_true facts with ⟨allocated, devices, next⟩
  rcases (Option.any_eq_true _ _).mp next with ⟨⟨vaddr, s⟩, taken, fourth⟩
  cases of_decide_eq_true fourth
  have run : Run Heap.call (fun h c => c.Fair h) (bootHeap fun _ _ => 0#32) h := by
    rw [bootHeap, initVmm_sample]
    exact Run.of_guarded _ sample
  exact ⟨h, s, run, allocated, devices, taken, (heap_exclusive _ run).1 _ s taken⟩

end TitorOS.Barrel.Vmm
