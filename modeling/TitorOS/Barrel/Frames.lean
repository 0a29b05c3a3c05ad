import TitorOS.Barrel.Ownership

/-! The operations of the memory manager keep the ownership of frames; what a process
sees changes only where the operation says so. -/

namespace TitorOS.Barrel.Vmm

open TitorOS.Lib TitorOS.Lib.Word TitorOS.Barrel.Pmm

section Entries

theorem entry_frame (f : Frame) (flags : Word) (small : flags.toNat < 4096) :
    (address f + flags).frame = f := by
  rw [address_add f flags small, frame_address_or f flags small]

theorem entry_getLsbD (f : Frame) (flags : Word) (small : flags.toNat < 4096) (i : Nat)
    (low : i < 12) : (address f + flags).getLsbD i = flags.getLsbD i := by
  rw [address_add f flags small, address_or_getLsbD f flags i low]

theorem claim_present (w : Word) : (w ||| 0x800#32).present = w.present := by
  simp [present]

theorem claim_inUse (w : Word) : (w ||| 0x800#32).inUse = true := by
  simp [inUse]

theorem claim_frame (w : Word) : (w ||| 0x800#32).frame = w.frame :=
  frame_or_small w _ (by decide)

theorem release_present (w : Word) : (w &&& 0xFFFFF7FF#32).present = w.present := by
  simp [present]

theorem release_inUse (w : Word) : (w &&& 0xFFFFF7FF#32).inUse = false := by
  simp [inUse]

theorem release_frame (w : Word) : (w &&& 0xFFFFF7FF#32).frame = w.frame :=
  frame_and_mask w _ (by decide)

theorem dropWrite_present (w : Word) : (w &&& 0xFFFFFFFD#32).present = w.present := by
  simp [present]

theorem dropWrite_user (w : Word) : (w &&& 0xFFFFFFFD#32).user = w.user := by
  simp [user]

theorem dropWrite_frame (w : Word) : (w &&& 0xFFFFFFFD#32).frame = w.frame :=
  frame_and_mask w _ (by decide)

theorem repoint_frame (w : Word) (f : Frame) : (repoint w f).frame = f :=
  frame_repoint w f _ (by decide)

theorem repoint_present (w : Word) (f : Frame) : (repoint w f).present = w.present := by
  rw [present, repoint, repoint_getLsbD w f _ 0 (by decide)]
  simp [present]

theorem repoint_user (w : Word) (f : Frame) : (repoint w f).user = w.user := by
  rw [user, repoint, repoint_getLsbD w f _ 2 (by decide)]
  simp [user]

theorem repoint_writable (w : Word) (f : Frame) : (repoint w f).writable = true := by
  rw [writable, repoint, repoint_getLsbD w f _ 1 (by decide)]
  simp

end Entries

theorem State.slot_write (s : State) (k k' : Index) (w : Word) :
    (s.write HEAP_PT k w).slot k' = if k' = k then w else s.slot k' := by
  rw [State.slot, s.write_mem_self, Function.update_apply]
  rfl

theorem State.slot_writeFrame (s : State) {f : Frame} (c : Index → Word) (other : HEAP_PT ≠ f)
    (k : Index) : (s.writeFrame f c).slot k = s.slot k :=
  congrFun (s.writeFrame_mem_ne c other) k

theorem Owned.heapPt_ne {s : State} {own : Owners} (h : Owned s own) {f : Frame}
    (loose : Loose s own f) : HEAP_PT ≠ f :=
  ne_of_owner (h.low HEAP_PT heapPt_low) loose.kernel

theorem Owned.slot_ne_heapPt {s : State} {own : Owners} (h : Owned s own) {k : Index}
    (ordinary : k ∉ own.device) (present : (s.slot k).present = true) :
    (s.slot k).frame ≠ HEAP_PT :=
  ne_of_owner (h.heap k ordinary present) (by simp [h.low _ heapPt_low])

theorem Owned.not_dir {s : State} {own : Owners} (h : Owned s own) {k : Index}
    (idle : (s.slot k).inUse = false) : .heap k ∉ s.dirs := by
  intro member
  rw [(h.dirSlots k member).1] at idle
  cases idle

theorem Owned.not_live {s : State} {own : Owners} (h : Owned s own) {k : Index}
    (idle : (s.slot k).inUse = false) : k ∉ s.live := by
  intro member
  rw [(h.live k member).1] at idle
  cases idle

/-- A frame from `pmalloc` was nobody's. -/
theorem Owned.claim {s : State} {own : Owners} (h : Owned s own) {f : Frame} {bitmap : Bitmap}
    (taken : pmalloc s.bitmap = some (f, bitmap)) (owner : Owner) :
    own f = .free ∧ Owned { s with bitmap := bitmap } (own.give f owner) := by
  rcases pmalloc_spec _ _ _ taken with ⟨unused, rfl⟩
  have free : own f = .free := by
    by_contra owned
    rw [h.used f owned] at unused
    cases unused
  refine ⟨free, h.give (fun held => h.held_owner held free) owner _ ?_ ?_⟩
  · intro g _ marked
    rw [used_puse, marked, Bool.or_true]
  · intro _
    simp [used_puse]

/-- The page `kmalloc` hands out, and what it leaves alone. -/
structure Fresh (s : State) (own : Owners) (k : Index) (s' : State) (own' : Owners) : Prop where
  owned : Owned s' own'
  device : own'.device = own.device
  background : Background s s'
  idle : (s.slot k).inUse = false
  inUse : (s'.slot k).inUse = true
  slots : ∀ k', k' ≠ k → s'.slot k' = s.slot k'
  mem : ∀ f, f ≠ HEAP_PT → s'.mem f = s.mem f
  owners : ∀ f, used s.bitmap f = true → own' f = own f
  marked : ∀ f, used s.bitmap f = true → used s'.bitmap f = true

theorem HeapTable.claim {s : State} (h : HeapTable s) (bitmap : Bitmap) :
    HeapTable { s with bitmap := bitmap } :=
  ⟨h.self, h.heap, h.apart⟩

theorem heapSlot_toNat {slot : Nat} (inside : slot < 1024) : (heapSlot slot).toNat = slot := by
  rw [heapSlot, BitVec.toNat_ofNat, Nat.mod_eq_of_lt inside]

theorem heapSlot_index (k : Index) : heapSlot k.toNat = k := by
  rw [heapSlot, BitVec.ofNat_toNat, BitVec.setWidth_eq]

/-- `kmalloc` takes the lowest page that is not in use, with the frame that is still there or a
new one. -/
theorem kmalloc_slot {s s' : State} (h : HeapTable s) {k : Index}
    (taken : kmalloc s = some (k, s')) :
    (s.slot k).inUse = false ∧ (∀ j < k, (s.slot j).inUse = true) ∧
      ((s.slot k).present = true ∧ s' = s.write HEAP_PT k (s.slot k ||| 0x800#32) ∨
        ∃ f bitmap, pmalloc s.bitmap = some (f, bitmap) ∧
          s' = State.write { s with bitmap := bitmap } HEAP_PT k
            (address f + 0b100000000011#32)) := by
  simp only [kmalloc, Option.bind_eq_bind, Option.bind_eq_some_iff] at taken
  rcases taken with ⟨slot, search, w, loaded, rest⟩
  rcases firstFrom_some _ _ _ _ search with ⟨_, inside, idle, earlier⟩
  rw [load_heapEntry h] at loaded idle
  cases loaded
  simp only [Option.any_some, Bool.not_eq_true'] at idle
  have lower (j : Index) (below : j < heapSlot slot) : (s.slot j).inUse = true := by
    rw [BitVec.lt_def, heapSlot_toNat (by omega)] at below
    have busy := earlier j.toNat (Nat.zero_le _) below
    rw [heapSlot_index, load_heapEntry h, Option.any_some, Bool.not_eq_false'] at busy
    exact busy
  split at rest
  · rename_i present
    simp only [store_heapEntry h, Option.bind_some, Option.pure_def, Option.some.injEq,
      Prod.mk.injEq] at rest
    rcases rest with ⟨rfl, rfl⟩
    exact ⟨idle, lower, .inl ⟨present, rfl⟩⟩
  · simp only [Option.bind_eq_some_iff, Option.pure_def] at rest
    rcases rest with ⟨⟨f, bitmap⟩, allocated, s1, stored, equal⟩
    rw [store_heapEntry (h.claim bitmap)] at stored
    cases stored
    cases equal
    exact ⟨idle, lower, .inr ⟨f, bitmap, allocated, rfl⟩⟩

theorem HeapTable.write {s : State} (h : HeapTable s) (k : Index) (w : Word) :
    HeapTable (s.write HEAP_PT k w) := by
  have directory : (s.write HEAP_PT k w).mem s.cr3 = s.mem s.cr3 := s.write_mem_ne k w h.apart
  refine ⟨?_, ?_, h.apart⟩
  · rw [State.write_cr3, directory]
    exact h.self
  · rw [State.write_cr3, directory]
    exact h.heap

theorem HeapTable.kmalloc {s s' : State} (h : HeapTable s) {k : Index}
    (taken : kmalloc s = some (k, s')) : HeapTable s' := by
  rcases kmalloc_slot h taken with ⟨_, _, ⟨_, rfl⟩ | ⟨f, bitmap, _, rfl⟩⟩
  · exact h.write k _
  · exact (h.claim bitmap).write k _

/-- With a frame to be had, it runs out only of pages. -/
theorem kmalloc_isSome {s : State} (h : HeapTable s) {k : Index} (idle : (s.slot k).inUse = false)
    {f : Frame} (free : used s.bitmap f = false) : (kmalloc s).isSome = true := by
  rcases Option.isSome_iff_exists.mp (pmalloc_isSome s.bitmap f free) with ⟨⟨g, bitmap⟩, allocated⟩
  cases search : firstFrom
      (fun k => (load s (pageEntry (heapPage (heapSlot k)))).any (!·.inUse)) 1024 0 with
  | none =>
      have bound := k.isLt
      have busy := firstFrom_none _ _ _ search k.toNat (by omega) (by omega)
      rw [load_heapEntry h, heapSlot_index, Option.any_some, idle] at busy
      cases busy
  | some slot =>
      rw [kmalloc, search]
      simp only [Option.bind_eq_bind, Option.bind_some, load_heapEntry h, allocated, store_bitmap,
        store_heapEntry h, Option.map_some]
      split
      · rfl
      · rfl

theorem kmalloc_fresh {s s' : State} {own : Owners} (h : Owned s own) {k : Index}
    (taken : kmalloc s = some (k, s')) : ∃ own', Fresh s own k s' own' := by
  rcases kmalloc_slot h.heapTable taken with
    ⟨idle, _, ⟨present, rfl⟩ | ⟨f, bitmap, allocated, rfl⟩⟩
  · refine ⟨own, ?_⟩
    constructor
    case owned =>
      apply h.writeHeap
      · exact h.idle_ordinary idle
      · exact h.not_dir idle
      · exact fun _ => claim_inUse _
      · intro _
        rw [claim_frame]
        exact h.heap k (h.idle_ordinary idle) present
      · intro _
        rw [claim_present, present]
    case device => rfl
    case background => exact h.background_writeHeap k _ (h.not_dir idle)
    case idle => exact idle
    case inUse => rw [s.slot_write, if_pos rfl, claim_inUse]
    case slots =>
      intro k' other
      rw [s.slot_write, if_neg other]
    case mem =>
      intro f other
      exact s.write_mem_ne k _ other
    case owners =>
      intro f _
      rfl
    case marked =>
      intro f marked
      exact marked
  · rcases h.claim allocated (.heap k) with ⟨free, owned⟩
    rcases pmalloc_spec _ _ _ allocated with ⟨unused, grown⟩
    have entry : (address f + 0b100000000011#32).frame = f := entry_frame f _ (by decide)
    refine ⟨own.give f (.heap k), ?_⟩
    constructor
    case owned =>
      apply owned.writeHeap
      · exact h.idle_ordinary idle
      · exact h.not_dir idle
      · intro _
        exact entry_getLsbD f _ (by decide) 11 (by decide)
      · intro _
        rw [entry, own.give_self]
      · intro _
        exact entry_getLsbD f _ (by decide) 0 (by decide)
    case device => rfl
    case background =>
      exact (background_pmalloc s allocated).trans
        (owned.background_writeHeap k _ (h.not_dir idle))
    case idle => exact idle
    case inUse =>
      rw [State.slot_write, if_pos rfl]
      exact entry_getLsbD f _ (by decide) 11 (by decide)
    case slots =>
      intro k' other
      rw [State.slot_write, if_neg other]
      rfl
    case mem =>
      intro f other
      exact State.write_mem_ne _ k _ other
    case owners =>
      intro g marked
      apply own.give_ne
      intro equal
      rw [equal, unused] at marked
      cases marked
    case marked =>
      intro g marked
      rw [show (State.write _ _ _ _).bitmap = bitmap from rfl, grown, used_puse, marked,
        Bool.or_true]

section Fresh

variable {s t : State} {own own' : Owners} {k : Index} (fresh : Fresh s own k t own')
include fresh

/-- The page is no device's, so its frame is its own. -/
theorem Fresh.ordinary (h : Owned s own) : k ∉ own'.device := by
  rw [fresh.device]
  exact h.idle_ordinary fresh.idle

theorem Fresh.present : (t.slot k).present = true := fresh.owned.inUse k fresh.inUse

theorem Fresh.heap (h : Owned s own) : own' (t.slot k).frame = .heap k :=
  fresh.owned.heap k (fresh.ordinary h) fresh.present

end Fresh

/-- A frame that somebody uses: it is not free, and not that of a heap page that is free. -/
def Busy (s : State) (own : Owners) (f : Frame) : Prop :=
  own f ≠ .free ∧ ∀ k, own f = .heap k → (s.slot k).inUse = true

/-- Between `s` and `t` only heap pages came and went that were free in `s`. -/
structure Kept (s : State) (own : Owners) (t : State) (own' : Owners) : Prop where
  slots : ∀ k, (s.slot k).inUse = true → t.slot k = s.slot k
  mem : ∀ f, f ≠ HEAP_PT → Busy s own f → t.mem f = s.mem f
  owners : ∀ f, Busy s own f → own' f = own f
  device : own'.device = own.device

theorem Kept.refl (s : State) (own : Owners) : Kept s own s own :=
  ⟨fun _ _ => rfl, fun _ _ _ => rfl, fun _ _ => rfl, rfl⟩

section Kept

variable {s t : State} {own own_t : Owners}

theorem Kept.kmalloc (kept : Kept s own t own_t) (h : Owned t own_t) {k : Index} {u : State}
    {own_u : Owners} (fresh : Fresh t own_t k u own_u) :
    Kept s own u own_u ∧ (s.slot k).inUse = false := by
  have idle : (s.slot k).inUse = false := by
    cases inUse : (s.slot k).inUse with
    | false => rfl
    | true =>
        have same := fresh.idle
        rw [kept.slots k inUse, inUse] at same
        cases same
  refine ⟨⟨?_, ?_, ?_, fresh.device.trans kept.device⟩, idle⟩
  · intro k' inUse
    have other : k' ≠ k := by
      intro equal
      rw [equal, idle] at inUse
      cases inUse
    rw [fresh.slots k' other, kept.slots k' inUse]
  · intro f other busy
    rw [fresh.mem f other, kept.mem f other busy]
  · intro f busy
    have owner := kept.owners f busy
    rw [fresh.owners f (h.used f (owner ▸ busy.1)), owner]

theorem Kept.slot_idle (kept : Kept s own t own_t) {k : Index} (idle : (s.slot k).inUse = false)
    {g : Frame} (owner : own_t g = .heap k) : ¬Busy s own g := by
  intro busy
  have inUse := busy.2 k ((kept.owners g busy).symm.trans owner)
  rw [idle] at inUse
  cases inUse

/-- A page that was free in `s` is written to. -/
theorem Kept.fill (kept : Kept s own t own_t) {k : Index} (idle : (s.slot k).inUse = false)
    {g : Frame} (owner : own_t g = .heap k) (other : HEAP_PT ≠ g) (c : Index → Word) :
    Kept s own (t.writeFrame g c) own_t := by
  refine ⟨?_, ?_, kept.owners, kept.device⟩
  · intro k' inUse
    rw [t.slot_writeFrame c other, kept.slots k' inUse]
  · intro f apart busy
    have distinct : f ≠ g := by
      intro equal
      exact kept.slot_idle idle owner (equal ▸ busy)
    rw [t.writeFrame_mem_ne c distinct, kept.mem f apart busy]

/-- So is the entry of such a page. -/
theorem Kept.writeHeap (kept : Kept s own t own_t) {k : Index} (idle : (s.slot k).inUse = false)
    (w : Word) : Kept s own (t.write HEAP_PT k w) own_t := by
  refine ⟨?_, ?_, kept.owners, kept.device⟩
  · intro k' inUse
    have other : k' ≠ k := by
      intro equal
      rw [equal, idle] at inUse
      cases inUse
    rw [t.slot_write, if_neg other, kept.slots k' inUse]
  · intro f apart busy
    rw [t.write_mem_ne k w apart, kept.mem f apart busy]

theorem Kept.give (kept : Kept s own t own_t) {f : Frame} (loose : ¬Busy s own f) (owner : Owner) :
    Kept s own t (own_t.give f owner) := by
  refine ⟨kept.slots, kept.mem, ?_, kept.device⟩
  intro g busy
  have distinct : g ≠ f := by
    intro equal
    exact loose (equal ▸ busy)
  rw [own_t.give_ne owner distinct, kept.owners g busy]

end Kept

theorem kfree_eq {s : State} (h : HeapTable s) (k : Index) :
    kfree s k = some (s.write HEAP_PT k (s.slot k &&& 0xFFFFF7FF#32)) := by
  simp only [kfree, load_heapEntry h, Option.bind_eq_bind, Option.bind_some, store_heapEntry h]

theorem Owned.kfree {s : State} {own : Owners} (h : Owned s own) {k : Index}
    (ordinary : k ∉ own.device) (apart : .heap k ∉ s.dirs) (dead : k ∉ s.live) :
    Owned (s.write HEAP_PT k (s.slot k &&& 0xFFFFF7FF#32)) own := by
  apply h.writeHeap k _ ordinary apart
  · intro member
    exact absurd member dead
  · intro present
    rw [release_present] at present
    rw [release_frame]
    exact h.heap k ordinary present
  · rw [release_inUse]
    intro impossible
    cases impossible

/-- The kernel writes to a heap page that is no directory. -/
theorem Owned.fill {s : State} {own : Owners} (h : Owned s own) {k : Index}
    (ordinary : k ∉ own.device) (present : (s.slot k).present = true) (apart : .heap k ∉ s.dirs)
    (c : Index → Word) :
    Owned (s.writeFrame (s.slot k).frame c) own ∧
      Background s (s.writeFrame (s.slot k).frame c) ∧
      ∀ k', (s.writeFrame (s.slot k).frame c).slot k' = s.slot k' := by
  have owner := h.heap k ordinary present
  have loose := h.loose_heap owner apart
  refine ⟨h.writeFrame loose c, h.background_writeFrame loose ?_ (h.used _ ?_) c, ?_⟩
  · simp [owner]
  · simp [owner]
  · exact s.slot_writeFrame c (h.heapPt_ne loose)

/-- A heap page filled from `source`. -/
structure Copied (s : State) (source : VPage) (k : Index) (s' : State) : Prop where
  background : Background s s'
  slots : ∀ k', (s.slot k').inUse = true → s'.slot k' = s.slot k'
  content : ∃ t own src, Owned t own ∧ Background s t ∧ (∀ f, f ≠ HEAP_PT → t.mem f = s.mem f) ∧
    pageFrame t source = some src ∧ s'.mem (s'.slot k).frame = t.mem src

theorem memCopy_copied {s s' : State} {own : Owners} (h : Owned s own) {source : VPage} {k : Index}
    (ordinary : k ∉ own.device) (inUse : (s.slot k).inUse = true) (apart : .heap k ∉ s.dirs)
    (taken : memCopy s source (heapPage k) = some s') :
    Copied s source k s' ∧ ∃ own', Owned s' own' ∧ own'.device = own.device ∧
      ∀ s0 own0, Kept s0 own0 s own → (s0.slot k).inUse = false → Kept s0 own0 s' own' := by
  simp only [memCopy, Option.bind_eq_bind, Option.bind_eq_some_iff] at taken
  rcases taken with ⟨⟨buffer, t⟩, allocated, src, read, via, buffered, dst, written, freed⟩
  rcases kmalloc_fresh h allocated with ⟨own1, fresh⟩
  have t_owned := fresh.owned
  have k_apart : .heap k ∉ t.dirs := fresh.background.dirs.symm ▸ apart
  have other : k ≠ buffer := by
    intro equal
    rw [equal, fresh.idle] at inUse
    cases inUse
  have k_slot : t.slot k = s.slot k := fresh.slots k other
  have k_present : (t.slot k).present = true := by
    rw [k_slot]
    exact h.inUse k inUse
  have b_present := fresh.present
  have b_ordinary := fresh.ordinary h
  have k_ordinary : k ∉ own1.device := fresh.device ▸ ordinary
  have b_apart : .heap buffer ∉ t.dirs := fresh.background.dirs.symm ▸ h.not_dir fresh.idle
  have b_dead : buffer ∉ t.live := fresh.background.live.symm ▸ h.not_live fresh.idle
  rw [pageFrame_heap t_owned.heapTable, if_pos b_present] at buffered
  cases buffered
  have kept_u (s0 : State) (own0 : Owners) (kept : Kept s0 own0 s own) :
      Kept s0 own0 (t.writeFrame (t.slot buffer).frame (t.mem src)) own1 ∧
        (s0.slot buffer).inUse = false := by
    rcases kept.kmalloc h fresh with ⟨kept_t, idle⟩
    exact ⟨kept_t.fill idle (fresh.heap h) (t_owned.slot_ne_heapPt b_ordinary b_present).symm _, idle⟩
  rcases t_owned.fill b_ordinary b_present b_apart (t.mem src) with ⟨u_owned, t_u, u_slot⟩
  have through : (t.writeFrame (t.slot buffer).frame (t.mem src)).mem (t.slot buffer).frame =
      t.mem src := t.writeFrame_mem_self ..
  rw [through] at freed
  generalize t.writeFrame (t.slot buffer).frame (t.mem src) = u at *
  rw [pageFrame_heap u_owned.heapTable, u_slot, if_pos k_present, ← u_slot] at written
  cases written
  have u_present : (u.slot k).present = true := (u_slot k).symm ▸ k_present
  have kept_v (s0 : State) (own0 : Owners) (kept : Kept s0 own0 s own)
      (idle : (s0.slot k).inUse = false) :
      Kept s0 own0 (u.writeFrame (u.slot k).frame (t.mem src)) own1 :=
    (kept_u s0 own0 kept).1.fill idle (u_owned.heap k k_ordinary u_present)
      (u_owned.slot_ne_heapPt k_ordinary u_present).symm _
  rcases u_owned.fill k_ordinary u_present (t_u.dirs.symm ▸ k_apart) (t.mem src) with ⟨v_owned, u_v, v_slot⟩
  have filled : (u.writeFrame (u.slot k).frame (t.mem src)).mem (s.slot k).frame = t.mem src := by
    rw [u_slot, k_slot]
    exact u.writeFrame_mem_self ..
  generalize u.writeFrame (u.slot k).frame (t.mem src) = v at *
  rw [kfree_eq v_owned.heapTable] at freed
  cases freed
  have t_v := t_u.trans u_v
  have v_apart : .heap buffer ∉ v.dirs := t_v.dirs.symm ▸ b_apart
  have slot_ne := h.slot_ne_heapPt ordinary (h.inUse k inUse)
  have slots (k' : Index) (apart : k' ≠ buffer) :
      (v.write HEAP_PT buffer (v.slot buffer &&& 0xFFFFF7FF#32)).slot k' = s.slot k' := by
    rw [v.slot_write, if_neg apart, v_slot, u_slot, fresh.slots k' apart]
  refine ⟨⟨?_, ?_, t, own1, src, t_owned, fresh.background, fresh.mem, read, ?_⟩, own1, ?_,
    fresh.device, ?_⟩
  · exact (fresh.background.trans t_v).trans (v_owned.background_writeHeap buffer _ v_apart)
  · intro k' busy
    apply slots
    intro equal
    rw [equal, fresh.idle] at busy
    cases busy
  · rw [slots k other, v.write_mem_ne _ _ slot_ne, filled]
  · exact v_owned.kfree b_ordinary v_apart (t_v.live.symm ▸ b_dead)
  · intro s0 own0 kept idle
    exact (kept_v s0 own0 kept idle).writeHeap (kept_u s0 own0 kept).2 _

/-- A page from `kmalloc` with the words of `source`. -/
structure Filled (s : State) (source : VPage) (k : Index) (s' : State) (own' : Owners) : Prop
    extends Copied s source k s' where
  owned : Owned s' own'
  ordinary : k ∉ own'.device
  inUse : (s'.slot k).inUse = true
  apart : .heap k ∉ s'.dirs
  dead : k ∉ s'.live

theorem kmalloc_memCopy {s s1 s' : State} {own : Owners} (h : Owned s own) {source : VPage}
    {k : Index} (allocated : kmalloc s = some (k, s1))
    (copied : memCopy s1 source (heapPage k) = some s') :
    ∃ own', Filled s source k s' own' ∧ Kept s own s' own' ∧ (s.slot k).inUse = false := by
  rcases kmalloc_fresh h allocated with ⟨own1, fresh⟩
  have apart : .heap k ∉ s1.dirs := fresh.background.dirs.symm ▸ h.not_dir fresh.idle
  have dead : k ∉ s1.live := fresh.background.live.symm ▸ h.not_live fresh.idle
  rcases memCopy_copied fresh.owned (fresh.ordinary h) fresh.inUse apart copied with
    ⟨copy, own', owned, device, kept⟩
  rcases (Kept.refl s own).kmalloc h fresh with ⟨kept1, idle⟩
  rcases copy.content with ⟨t, own_t, src, t_owned, s1_t, mem, read, equal⟩
  refine ⟨own', ⟨⟨fresh.background.trans copy.background, ?_, ?_⟩, owned,
    device ▸ fresh.ordinary h, ?_, ?_, ?_⟩,
    kept s own kept1 idle, idle⟩
  · intro k' busy
    have other : k' ≠ k := by
      intro equal
      rw [equal, fresh.idle] at busy
      cases busy
    have same := fresh.slots k' other
    rw [copy.slots k' (same ▸ busy), same]
  · refine ⟨t, own_t, src, t_owned, fresh.background.trans s1_t, ?_, read, equal⟩
    intro f other
    rw [mem f other, fresh.mem f other]
  · rw [copy.slots k fresh.inUse, fresh.inUse]
  · rw [copy.background.dirs]
    exact apart
  · rw [copy.background.live]
    exact dead

theorem dropWrite_eq {s : State} {own : Owners} (h : Owned s own) {k : Index}
    (present : (s.slot k).present = true) :
    dropWrite s k = some (s.writeFrame (s.slot k).frame fun i =>
      s.mem (s.slot k).frame i &&& 0xFFFFFFFD#32) := by
  simp only [dropWrite, pageFrame_heap h.heapTable, present, if_true, Option.map_some]

theorem detach_eq {s : State} (h : HeapTable s) (k : Index) :
    detach s k = some ((s.slot k).frame, s.write HEAP_PT k 0#32) := by
  simp only [detach, getpaddr, load_heapEntry h, Option.map_some, Option.bind_eq_bind,
    Option.bind_some, store_heapEntry h, Option.pure_def]

/-- A frame off the heap may be given to an address space. -/
theorem Owned.detach {s : State} {own : Owners} (h : Owned s own) {k : Index}
    (ordinary : k ∉ own.device) (present : (s.slot k).present = true) (apart : .heap k ∉ s.dirs)
    (dead : k ∉ s.live) (owner : Owner) :
    ¬Held (s.write HEAP_PT k 0#32) own (s.slot k).frame ∧
      Owned (s.write HEAP_PT k 0#32) (own.give (s.slot k).frame owner) := by
  have owned : Owned (s.write HEAP_PT k 0#32) own := by
    apply h.writeHeap k _ ordinary apart
    · exact fun member => absurd member dead
    · exact fun impossible => absurd impossible Bool.false_ne_true
    · exact fun impossible => absurd impossible Bool.false_ne_true
  have unheld : ¬Held (s.write HEAP_PT k 0#32) own (s.slot k).frame := by
    intro held
    have back := (owned.held_heap held (h.heap k ordinary present)).1
    rw [s.slot_write, if_pos rfl] at back
    cases back
  refine ⟨unheld, owned.give unheld owner s.bitmap (fun _ _ => id) fun _ => ?_⟩
  apply h.used
  rw [h.heap k ordinary present]
  simp

theorem Owned.pde_cr3 {s : State} {own : Owners} (h : Owned s own) (i : Index) :
    s.mem s.cr3 i = pde s s.active i := by
  rw [pde, h.cr3]

theorem Background.pde_active {s s' : State} {own : Owners} (b : Background s s')
    (h : Owned s own) (i : Index) : pde s' s'.active i = pde s s.active i := by
  rw [b.active]
  exact b.pdes _ h.active i

theorem Background.pte_active {s s' : State} {own : Owners} (b : Background s s')
    (h : Owned s own) {page : VPage} (below : page.dir < USER_DIRS) :
    pte s' s'.active page = pte s s.active page := by
  rw [b.active]
  exact b.ptes _ h.active page below

theorem Owned.pageFrame_active {s : State} {own : Owners} (h : Owned s own) (page : VPage) :
    pageFrame s page =
      if (pte s s.active page).present then some (pte s s.active page).frame else none := by
  rw [pageFrame, h.pde_cr3]
  cases table : (pde s s.active page.dir).present with
  | false => simp [pte_absent page table, present_zero]
  | true => simp only [pte_present page table, if_true]

/-- The state `t` just before the directory entry is set, with the new table `f` filled. -/
structure TableSplit (s : State) (own : Owners) (page : VPage) (t : State) (own' : Owners)
    (f : Frame) (s' : State) : Prop where
  owned : Owned t own'
  background : Background s t
  owner : own' f = .table page.dir
  unheld : ¬Held t own' f
  rows : ∀ j, t.mem f j = pte s s.active ⟨page.dir, j⟩ &&& 0xFFFFFFFD#32
  kept : Kept s own t own'
  loose : ¬Busy s own f
  result : s' = t.write t.cr3 page.dir (repoint (pde s s.active page.dir) f)

/-- The same for the page table entry, with the page `f` copied. -/
structure PageSplit (s : State) (own : Owners) (page : VPage) (t : State) (own' : Owners)
    (f : Frame) (s' : State) : Prop where
  owned : Owned t own'
  background : Background s t
  owner : own' f = .page page
  unheld : ¬Held t own' f
  content : t.mem f = s.mem (pte s s.active page).frame
  kept : Kept s own t own'
  loose : ¬Busy s own f
  result : s' = t.write (pde s s.active page.dir).frame page.table
    (repoint (pte s s.active page) f)

theorem splitTable_spec {s s' : State} {own : Owners} (h : Owned s own) {page : VPage}
    (below : page.dir < USER_DIRS) (present : (pde s s.active page.dir).present = true)
    (taken : splitTable s page = some s') : ∃ t own' f, TableSplit s own page t own' f s' := by
  simp only [splitTable, Option.bind_eq_bind, Option.bind_eq_some_iff] at taken
  rcases taken with ⟨⟨newPt, s1⟩, allocated, s2, copied, s3, dropped, ⟨f, t⟩, detached, w, loaded,
    stored⟩
  rcases kmalloc_memCopy h allocated copied with ⟨own2, filled, kept2, idle⟩
  have new_present := filled.owned.inUse newPt filled.inUse
  rcases filled.content with ⟨u, own_u, src, u_owned, s_u, u_mem, read, content⟩
  have source : src = (pde s s.active page.dir).frame := by
    rw [pageEntry, pageFrame_window u_owned, u_owned.pde_cr3, s_u.pde_active h, if_pos present]
      at read
    exact (Option.some.inj read).symm
  have table : u.mem src = s.mem (pde s s.active page.dir).frame := by
    have owner := ((h.dirs _ h.active).tables page.dir below present).owner
    rw [source]
    exact u_mem _ (ne_of_owner owner (by simp [h.low _ heapPt_low]))
  rw [dropWrite_eq filled.owned new_present, content, table] at dropped
  cases dropped
  rcases filled.owned.fill filled.ordinary new_present filled.apart (fun i =>
    s.mem (pde s s.active page.dir).frame i &&& 0xFFFFFFFD#32) with ⟨owned3, s2_s3, slot3⟩
  have kept3 := kept2.fill idle (filled.owned.heap newPt filled.ordinary new_present)
    (filled.owned.slot_ne_heapPt filled.ordinary new_present).symm (fun i =>
      s.mem (pde s s.active page.dir).frame i &&& 0xFFFFFFFD#32)
  have masked := s2.writeFrame_mem_self (s2.slot newPt).frame (fun i =>
    s.mem (pde s s.active page.dir).frame i &&& 0xFFFFFFFD#32)
  generalize s2.writeFrame _ _ = s3 at *
  rw [detach_eq owned3.heapTable] at detached
  cases detached
  rcases owned3.detach filled.ordinary (by rwa [slot3]) (s2_s3.dirs ▸ filled.apart)
    (s2_s3.live ▸ filled.dead) (.table page.dir) with ⟨unheld, owned_t⟩
  have s_s3 := filled.background.trans s2_s3
  have s_t := s_s3.trans (owned3.background_writeHeap newPt 0#32 (s2_s3.dirs ▸ filled.apart))
  rw [load_dirEntry owned_t, owned_t.pde_cr3, s_t.pde_active h] at loaded
  cases loaded
  rw [store_dirEntry owned_t] at stored
  cases stored
  have loose := kept3.slot_idle idle (owned3.heap newPt filled.ordinary (by rwa [slot3]))
  refine ⟨_, _, _, owned_t, s_t, own2.give_self .., unheld, ?_,
    (kept3.writeHeap idle _).give loose _, loose, rfl⟩
  intro j
  have apart := owned3.slot_ne_heapPt filled.ordinary
    (by rwa [slot3] : (s3.slot newPt).present = true)
  rw [State.write_mem_ne _ _ _ apart, slot3, masked, pte_present ⟨page.dir, j⟩ present]

theorem splitPage_spec {s s' : State} {own : Owners} (h : Owned s own) {page : VPage}
    (below : page.dir < USER_DIRS) (present : (pte s s.active page).present = true)
    (taken : splitPage s page = some s') : ∃ t own' f, PageSplit s own page t own' f s' := by
  simp only [splitPage, Option.bind_eq_bind, Option.bind_eq_some_iff] at taken
  rcases taken with ⟨⟨newpage, s1⟩, allocated, s2, copied, ⟨f, t⟩, detached, w, loaded, stored⟩
  rcases kmalloc_memCopy h allocated copied with ⟨own2, filled, kept2, idle⟩
  have new_present := filled.owned.inUse newpage filled.inUse
  rcases filled.content with ⟨u, own_u, src, u_owned, s_u, u_mem, read, content⟩
  rw [u_owned.pageFrame_active, s_u.pte_active h below, if_pos present] at read
  cases read
  have page_ne : (pte s s.active page).frame ≠ HEAP_PT :=
    ne_of_owner (h.page_owner h.active below present) (by simp [h.low _ heapPt_low])
  rw [u_mem _ page_ne] at content
  rw [detach_eq filled.owned.heapTable] at detached
  cases detached
  rcases filled.owned.detach filled.ordinary new_present filled.apart filled.dead (.page page) with
    ⟨unheld, owned_t⟩
  have s_t := filled.background.trans
    (filled.owned.background_writeHeap newpage 0#32 filled.apart)
  have table : ((s2.write HEAP_PT newpage 0#32).mem (s2.write HEAP_PT newpage 0#32).cr3
      page.dir).present = true := by
    rw [owned_t.pde_cr3, s_t.pde_active h]
    exact pte_pde present
  rw [load_entry owned_t _ table, owned_t.pde_cr3, ← pte_present page, s_t.pte_active h below]
    at loaded
  · cases loaded
    rw [store_entry owned_t _ _ table, owned_t.pde_cr3, s_t.pde_active h] at stored
    cases stored
    have loose := kept2.slot_idle idle (filled.owned.heap newpage filled.ordinary new_present)
    refine ⟨_, _, _, owned_t, s_t, own2.give_self .., unheld, ?_,
      (kept2.writeHeap idle _).give loose _, loose, rfl⟩
    rw [State.write_mem_ne _ _ _ (filled.owned.slot_ne_heapPt filled.ordinary new_present), content]
  · rwa [← owned_t.pde_cr3]

theorem Owned.pte_user {s : State} {own : Owners} (h : Owned s own) {q : DirPtr}
    (member : q ∈ s.dirs) {page : VPage} (below : page.dir < USER_DIRS)
    (present : (pte s q page).present = true) : (pte s q page).user = true := by
  have table := pte_pde present
  rw [pte_present page table] at present ⊢
  exact ((h.dirs q member).tables page.dir below table).user page.table present

theorem Owned.frame_inj {s : State} {own : Owners} (h : Owned s own) {p q : DirPtr}
    (left : p ∈ s.dirs) (right : q ∈ s.dirs) (same : p.frame s = q.frame s) : p = q := by
  cases p with
  | boot =>
      cases q with
      | boot => rfl
      | heap k =>
          have owner := h.dir_heap right
          rw [show (s.slot k).frame = 0x300#20 from same.symm, h.low _ (by decide)] at owner
          cases owner
  | heap k =>
      have owner := h.dir_heap left
      cases q with
      | boot =>
          rw [show (s.slot k).frame = 0x300#20 from same, h.low _ (by decide)] at owner
          cases owner
      | heap k' =>
          have owner' := h.dir_heap right
          rw [show (s.slot k).frame = (s.slot k').frame from same, owner'] at owner
          cases owner
          rfl

theorem frame_write {s : State} {f : Frame} (other : HEAP_PT ≠ f) (i : Index) (w : Word)
    (q : DirPtr) : q.frame (s.write f i w) = q.frame s := by
  cases q with
  | boot => rfl
  | heap k => exact congrArg Word.frame (congrFun (s.write_mem_ne i w other) k)

theorem Owned.pde_writeDir {s : State} {own : Owners} (h : Owned s own) (i : Index) (w : Word)
    {q : DirPtr} (member : q ∈ s.dirs) (i' : Index) :
    pde (s.write s.cr3 i w) q i' = if q = s.active ∧ i' = i then w else pde s q i' := by
  have active : s.active.frame s = s.cr3 := h.cr3.symm
  have other := h.dir_ne_low h.active heapPt_low (by decide)
  rw [active] at other
  rw [pde, frame_write other.symm]
  by_cases here : q = s.active
  · rw [here, active, s.write_mem_self, Function.update_apply, pde, active]
    simp
  · have apart : q.frame s ≠ s.cr3 := by
      rw [← active]
      intro same
      exact here (h.frame_inj member h.active same)
    rw [s.write_mem_ne i w apart, if_neg (fun both => here both.1), pde]

theorem Owned.pte_writeDir {s : State} {own : Owners} (h : Owned s own) (i : Index) (w : Word)
    (present : w.present = true) (owner : own w.frame = .table i) {q : DirPtr} (member : q ∈ s.dirs)
    {page : VPage} (below : page.dir < USER_DIRS) :
    pte (s.write s.cr3 i w) q page =
      if q = s.active ∧ page.dir = i then s.mem w.frame page.table else pte s q page := by
  have active : s.active.frame s = s.cr3 := h.cr3.symm
  have table {t : Frame} {i' : Index} (owner : own t = .table i') :
      (s.write s.cr3 i w).mem t = s.mem t := by
    apply s.write_mem_ne
    rw [← active]
    exact (h.table_ne_dir owner h.active).symm
  rw [pte, h.pde_writeDir i w member]
  split
  · rw [contents_present present, table owner]
  · rw [pte]
    apply congrFun (contents_congr _)
    intro mapped
    exact table ((h.dirs q member).tables page.dir below mapped).owner

theorem contents_write {s : State} {f : Frame} {x : Word} (i : Index) (w : Word)
    (other : x.present = true → x.frame ≠ f) : contents (s.write f i w) x = contents s x :=
  contents_congr fun present => s.write_mem_ne i w (other present)

/-- A step that gives a process other frames for the same words. -/
structure Unseen (s s' : State) : Prop where
  dirs : s'.dirs = s.dirs
  live : s'.live = s.live
  active : s'.active = s.active
  present : ∀ q ∈ s.dirs, ∀ page, page.dir < USER_DIRS →
    (pte s' q page).present = (pte s q page).present
  words : ∀ q ∈ s.dirs, ∀ v, v.dir < USER_DIRS → word s' q v = word s q v
  spared : Spared s s'

theorem Unseen.trans {s t u : State} (first : Unseen s t) (second : Unseen t u) : Unseen s u where
  dirs := second.dirs.trans first.dirs
  live := second.live.trans first.live
  active := second.active.trans first.active
  present := by
    intro q member page below
    rw [second.present q (first.dirs.symm ▸ member) page below, first.present q member page below]
  words := by
    intro q member v below
    rw [second.words q (first.dirs.symm ▸ member) v below, first.words q member v below]
  spared := first.spared.trans second.spared

theorem Owned.table_owner {s : State} {own : Owners} (h : Owned s own) {q : DirPtr}
    (member : q ∈ s.dirs) {i : Index} (below : i < USER_DIRS)
    (present : (pde s q i).present = true) : own (pde s q i).frame = .table i :=
  ((h.dirs q member).tables i below present).owner

theorem Owned.pde_writeTable {s : State} {own : Owners} (h : Owned s own) {t : Frame} {i : Index}
    (owner : own t = .table i) (j : Index) (w : Word) {q : DirPtr} (member : q ∈ s.dirs)
    (i' : Index) : pde (s.write t j w) q i' = pde s q i' := by
  have other : HEAP_PT ≠ t := (ne_of_owner owner (by simp [h.low _ heapPt_low])).symm
  rw [pde, frame_write other, s.write_mem_ne j w (h.table_ne_dir owner member), pde]

/-- Everyone who has the table gets the new entry. -/
theorem Owned.pte_writeTable {s : State} {own : Owners} (h : Owned s own) {t : Frame} {i : Index}
    (owner : own t = .table i) (j : Index) (w : Word) {q : DirPtr} (member : q ∈ s.dirs)
    {page : VPage} (below : page.dir < USER_DIRS) :
    pte (s.write t j w) q page =
      if page = ⟨i, j⟩ ∧ (pde s q i).present = true ∧ (pde s q i).frame = t then w
      else pte s q page := by
  rw [pte, h.pde_writeTable owner j w member]
  cases table : (pde s q page.dir).present with
  | false =>
      have absent : ¬(page = ⟨i, j⟩ ∧ (pde s q i).present = true ∧ (pde s q i).frame = t) := by
        rintro ⟨rfl, present, _⟩
        rw [table] at present
        cases present
      rw [if_neg absent, pte]
      simp [contents, table]
  | true =>
      have owner' := h.table_owner member below table
      rw [contents_present table, pte_present page table]
      by_cases here : (pde s q page.dir).frame = t
      · have index : page.dir = i := by
          rw [here, owner] at owner'
          exact (Owner.table.inj owner').symm
        rw [here, s.write_mem_self, Function.update_apply, ← index, here, table]
        cases page
        simp
      · have apart : ¬(page = ⟨i, j⟩ ∧ (pde s q i).present = true ∧ (pde s q i).frame = t) := by
          rintro ⟨rfl, _, same⟩
          exact here same
        rw [s.write_mem_ne j w here, if_neg apart]

section Split

variable {s s' t : State} {own own' : Owners} {page : VPage} {f : Frame}

theorem TableSplit.owned_result (x : TableSplit s own page t own' f s') (h : Owned s own)
    (below : page.dir < USER_DIRS) (present : (pde s s.active page.dir).present = true) :
    Owned s' own' := by
  rw [x.result]
  apply x.owned.writeDir page.dir below
  · intro _
    rw [repoint_user]
    exact (h.dirs _ h.active).user page.dir below present
  · intro _
    rw [repoint_frame]
    constructor
    · exact x.owner
    · intro j mapped
      rw [x.rows, dropWrite_present] at mapped
      rw [x.rows, dropWrite_user]
      exact h.pte_user h.active below mapped
    · intro j mapped
      have same : pte t t.active ⟨page.dir, j⟩ = pte s s.active ⟨page.dir, j⟩ :=
        x.background.pte_active h below
      rw [x.rows, dropWrite_present, ← same] at mapped
      rw [x.rows, dropWrite_frame, ← same]
      exact x.owned.page_owner x.owned.active below mapped

theorem TableSplit.pdes (x : TableSplit s own page t own' f s') {q : DirPtr} (member : q ∈ s.dirs)
    (i : Index) :
    pde s' q i =
      if q = s.active ∧ i = page.dir then repoint (pde s s.active page.dir) f else pde s q i := by
  rw [x.result, x.owned.pde_writeDir page.dir _ (x.background.dirs ▸ member), x.background.active,
    x.background.pdes q member]

theorem TableSplit.ptes (x : TableSplit s own page t own' f s')
    (present : (pde s s.active page.dir).present = true) {q : DirPtr} (member : q ∈ s.dirs)
    {p : VPage} (user : p.dir < USER_DIRS) :
    pte s' q p =
      if q = s.active ∧ p.dir = page.dir then pte s q p &&& 0xFFFFFFFD#32 else pte s q p := by
  have w_present : (repoint (pde s s.active page.dir) f).present = true := by
    rw [repoint_present, present]
  have w_owner : own' (repoint (pde s s.active page.dir) f).frame = .table page.dir := by
    rw [repoint_frame, x.owner]
  rw [x.result, x.owned.pte_writeDir page.dir _ w_present w_owner (x.background.dirs ▸ member) user,
    x.background.active, x.background.ptes q member p user]
  split
  · rename_i here
    rw [repoint_frame, x.rows, here.1, ← here.2]
  · rfl

theorem TableSplit.unseen (x : TableSplit s own page t own' f s')
    (present : (pde s s.active page.dir).present = true) : Unseen s s' := by
  have ptes {q : DirPtr} (member : q ∈ s.dirs) {p : VPage} (user : p.dir < USER_DIRS) :=
    x.ptes present member user
  have s_t := x.background
  have owned := x.owned
  rw [x.result] at ptes ⊢
  generalize repoint (pde s s.active page.dir) f = w at *
  refine ⟨s_t.dirs, s_t.live, s_t.active, ?_, ?_, ?_⟩
  · intro q member p user
    rw [ptes member user]
    split
    · exact dropWrite_present _
    · rfl
  · intro q member v user
    have same : contents (t.write t.cr3 page.dir w) (pte (t.write t.cr3 page.dir w) q v.toVPage) =
        contents (t.write t.cr3 page.dir w) (pte s q v.toVPage) := by
      rw [ptes member user]
      split
      · simp only [contents, dropWrite_present, dropWrite_frame]
      · rfl
    rw [word, same, contents_write, ← s_t.ptes q member _ user, ← word, s_t.words q member v user]
    intro mapped
    rw [← s_t.ptes q member _ user] at mapped ⊢
    rw [owned.cr3]
    exact ((owned.loose_page (owned.page_owner (s_t.dirs ▸ member) user mapped)).dir _
      owned.active).symm
  · refine s_t.spared.trans (spared_write ?_ page.dir w)
    rw [owned.cr3]
    exact owned.used _ (owned.held_owner (owned.held_dir owned.active))

theorem TableSplit.alone (x : TableSplit s own page t own' f s') (h : Owned s own) {q : DirPtr}
    (member : q ∈ s.dirs) (other : q ≠ s.active) (mapped : (pde s' q page.dir).present = true) :
    (pde s' q page.dir).frame ≠ (pde s' s.active page.dir).frame := by
  rw [x.pdes member, if_neg (fun both => other both.1)] at mapped ⊢
  rw [x.pdes h.active, if_pos ⟨rfl, rfl⟩, repoint_frame]
  intro same
  rw [← x.background.pdes q member] at mapped same
  exact x.unheld (same ▸ x.owned.held_table (x.background.dirs ▸ member) page.dir mapped)

theorem PageSplit.table_owner (x : PageSplit s own page t own' f s') (h : Owned s own)
    (below : page.dir < USER_DIRS) (present : (pte s s.active page).present = true) :
    own' (pde s s.active page.dir).frame = .table page.dir := by
  have mapped := pte_pde present
  rw [← x.background.pde_active h] at mapped ⊢
  exact x.owned.table_owner x.owned.active below mapped

theorem PageSplit.owned_result (x : PageSplit s own page t own' f s') (h : Owned s own)
    (below : page.dir < USER_DIRS) (present : (pte s s.active page).present = true) :
    Owned s' own' := by
  rw [x.result]
  apply x.owned.writeTable (x.table_owner h below present) page.table
  · intro _
    rw [repoint_user]
    exact h.pte_user h.active below present
  · intro _
    rw [repoint_frame, x.owner]

theorem PageSplit.pdes (x : PageSplit s own page t own' f s') (h : Owned s own)
    (below : page.dir < USER_DIRS) (present : (pte s s.active page).present = true) {q : DirPtr}
    (member : q ∈ s.dirs) (i : Index) : pde s' q i = pde s q i := by
  rw [x.result, x.owned.pde_writeTable (x.table_owner h below present) page.table _
    (x.background.dirs ▸ member), x.background.pdes q member]

/-- Everyone who has the table gets the new page. -/
theorem PageSplit.ptes (x : PageSplit s own page t own' f s') (h : Owned s own)
    (below : page.dir < USER_DIRS) (present : (pte s s.active page).present = true) {q : DirPtr}
    (member : q ∈ s.dirs) {p : VPage} (user : p.dir < USER_DIRS) :
    pte s' q p =
      if p = page ∧ (pde s q page.dir).present = true ∧
        (pde s q page.dir).frame = (pde s s.active page.dir).frame
      then repoint (pte s s.active page) f else pte s q p := by
  rw [x.result, x.owned.pte_writeTable (x.table_owner h below present) page.table _
    (x.background.dirs ▸ member) user, x.background.pdes q member,
    x.background.ptes q member p user]

theorem PageSplit.unseen (x : PageSplit s own page t own' f s') (h : Owned s own)
    (below : page.dir < USER_DIRS) (present : (pte s s.active page).present = true) :
    Unseen s s' := by
  have ptes {q : DirPtr} (member : q ∈ s.dirs) {p : VPage} (user : p.dir < USER_DIRS) :=
    x.ptes h below present member user
  have table := x.table_owner h below present
  have s_t := x.background
  have owned := x.owned
  have w_present : (repoint (pte s s.active page) f).present = true := by
    rw [repoint_present, present]
  have w_frame := repoint_frame (pte s s.active page) f
  rw [x.result] at ptes ⊢
  generalize repoint (pte s s.active page) f = w at *
  have shared {q : DirPtr} (mapped : (pde s q page.dir).present = true)
      (same : (pde s q page.dir).frame = (pde s s.active page.dir).frame) :
      pte s q page = pte s s.active page := by
    rw [pte_present page mapped, pte_present page (pte_pde present), same]
  refine ⟨s_t.dirs, s_t.live, s_t.active, ?_, ?_, ?_⟩
  · intro q member p user
    rw [ptes member user]
    split
    · rename_i here
      rw [w_present, here.1, shared here.2.1 here.2.2, present]
    · rfl
  · intro q member v user
    rw [word, ptes member user]
    split
    · rename_i here
      have other : f ≠ (pde s s.active page.dir).frame := ne_of_owner x.owner (by simp [table])
      rw [contents_present w_present, w_frame, t.write_mem_ne _ _ other, x.content, word, here.1,
        shared here.2.1 here.2.2, contents_present present]
    · rw [contents_write, ← s_t.ptes q member _ user, ← word, s_t.words q member v user]
      intro mapped
      rw [← s_t.ptes q member _ user] at mapped ⊢
      exact ne_of_owner (owned.page_owner (s_t.dirs ▸ member) user mapped) (by simp [table])
  · exact s_t.spared.trans (spared_write (owned.used _ (by simp [table])) page.table w)

/-- Who has the new page has the table. -/
theorem PageSplit.shared (x : PageSplit s own page t own' f s') (h : Owned s own)
    (below : page.dir < USER_DIRS) (present : (pte s s.active page).present = true) {q : DirPtr}
    (member : q ∈ s.dirs) (mapped : (pte s' q page).present = true)
    (same : (pte s' q page).frame = (pte s' s.active page).frame) :
    (pde s q page.dir).present = true ∧
      (pde s q page.dir).frame = (pde s s.active page.dir).frame := by
  rw [x.ptes h below present h.active below, if_pos ⟨rfl, pte_pde present, rfl⟩, repoint_frame]
    at same
  rw [x.ptes h below present member below] at mapped same
  split at mapped
  · rename_i here
    exact here.2
  · rename_i apart
    rw [if_neg apart] at same
    rw [← x.background.ptes q member _ below] at mapped same
    exact absurd (same ▸ held_user (x.background.dirs ▸ member) below mapped) x.unheld

end Split

/-- Copy on write, as the processes see it: not at all, but for a page that no one else
has unless the table was shared and writable. -/
structure Split (s : State) (own : Owners) (page : VPage) (s' : State) : Prop
    extends Unseen s s' where
  owned : ∃ own', Owned s' own' ∧ own'.device = own.device
  shared : ∀ q ∈ s.dirs, q ≠ s.active → (pte s' q page).present = true →
    (pte s' q page).frame = (pte s' s.active page).frame →
      (pde s s.active page.dir).writable = true ∧ (pde s q page.dir).present = true ∧
        (pde s q page.dir).frame = (pde s s.active page.dir).frame

theorem copyOnWrite_split {s s' : State} {own : Owners} (h : Owned s own) {page : VPage}
    (below : page.dir < USER_DIRS) (present : (pte s s.active page).present = true)
    (taken : copyOnWrite s page = some s') : Split s own page s' := by
  simp only [copyOnWrite, load_dirEntry h, h.pde_cr3, Option.bind_eq_bind, Option.bind_some] at taken
  split at taken
  · rename_i writable
    rcases splitPage_spec h below present taken with ⟨_, own', _, x⟩
    refine ⟨x.unseen h below present, ⟨own', x.owned_result h below present, x.kept.device⟩, ?_⟩
    intro q member _ mapped same
    exact ⟨writable, x.shared h below present member mapped same⟩
  · rcases Option.bind_eq_some_iff.mp taken with ⟨t, split, taken⟩
    have table := pte_pde present
    rcases splitTable_spec h below table split with ⟨_, own1, _, x⟩
    have s_t := x.unseen table
    have owned := x.owned_result h below table
    have present' : (pte t t.active page).present = true := by
      rw [s_t.active, s_t.present _ h.active page below, present]
    rcases splitPage_spec owned below present' taken with ⟨_, own', _, y⟩
    refine ⟨s_t.trans (y.unseen owned below present'),
      ⟨own', y.owned_result owned below present', y.kept.device.trans x.kept.device⟩, ?_⟩
    intro q member other mapped same
    rw [← s_t.active] at same
    rcases y.shared owned below present' (s_t.dirs ▸ member) mapped same with ⟨there, equal⟩
    rw [s_t.active] at equal
    exact absurd equal (x.alone h member other there)

end TitorOS.Barrel.Vmm
