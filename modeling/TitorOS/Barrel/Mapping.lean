import TitorOS.Barrel.Frames

/-! Stores of user mode and of the kernel into user pages, `mmap`, `mmiomalloc` and
`fork`, with their effect on every address space. -/

namespace TitorOS.Barrel.Vmm

open TitorOS.Lib TitorOS.Lib.Word TitorOS.Barrel.Pmm

variable {s s' : State} {own : Owners}

/-- Everyone who has the frame sees the store. -/
structure Stored (s : State) (own : Owners) (v : VAddr) (w : Word) (s' : State) : Prop where
  owned : ∃ own', Owned s' own' ∧ own'.device = own.device
  dirs : s'.dirs = s.dirs
  live : s'.live = s.live
  active : s'.active = s.active
  present : ∀ q ∈ s.dirs, ∀ page, page.dir < USER_DIRS →
    (pte s' q page).present = (pte s q page).present
  words : ∀ q ∈ s.dirs, ∀ v', v'.dir < USER_DIRS → word s' q v' =
    if v' = v ∧ (pte s q v.toVPage).present = true ∧
      (pte s q v.toVPage).frame = (pte s s.active v.toVPage).frame then w else word s q v'
  spared : Spared s s'

theorem Owned.stored (h : Owned s own) {v : VAddr} (below : v.dir < USER_DIRS)
    (present : (pte s s.active v.toVPage).present = true) (w : Word) :
    Stored s own v w (s.write (pte s s.active v.toVPage).frame v.word w) := by
  have owner := h.page_owner h.active below present
  have loose := h.loose_page owner
  generalize frame_eq : (pte s s.active v.toVPage).frame = f at *
  have frame (q : DirPtr) : q.frame (s.write f v.word w) = q.frame s :=
    frame_write (h.heapPt_ne loose) ..
  have ptes (q : DirPtr) (member : q ∈ s.dirs) (page : VPage) (user : page.dir < USER_DIRS) :
      pte (s.write f v.word w) q page = pte s q page := by
    have dir : pde (s.write f v.word w) q page.dir = pde s q page.dir := by
      rw [pde, frame, s.write_mem_ne _ _ (loose.dir q member), pde]
    rw [pte, dir, contents_write, pte]
    intro mapped
    exact ne_of_owner (h.table_owner member user mapped) (by simp [owner])
  refine ⟨⟨own, h.writeFrame loose _, rfl⟩, rfl, rfl, rfl, ?_, ?_, ?_⟩
  · intro q member page user
    rw [ptes q member page user]
  · intro q member v' user
    rw [word, ptes q member _ user, frame_eq]
    by_cases here : (pte s q v'.toVPage).present = true ∧ (pte s q v'.toVPage).frame = f
    · have same : v'.toVPage = v.toVPage := by
        have owner' := h.page_owner member user here.1
        rw [here.2, owner] at owner'
        exact (Owner.page.inj owner').symm
      rw [contents_present here.1, here.2, s.write_mem_self, Function.update_apply, ← same,
        word, contents_present here.1, here.2, here.1]
      have word_eq : v'.word = v.word ↔ v' = v := by
        cases v
        cases v'
        simp_all
      simp [word_eq]
    · have apart : ¬(v' = v ∧ (pte s q v.toVPage).present = true ∧
          (pte s q v.toVPage).frame = f) := by
        rintro ⟨rfl, both⟩
        exact here both
      rw [contents_write, if_neg apart, word]
      intro mapped equal
      exact here ⟨mapped, equal⟩
  · exact spared_write (h.used f (by simp [owner])) v.word w

theorem kernelStore_stored (h : Owned s own) {v : VAddr} {w : Word}
    (taken : kernelStore s v w = some s') :
    v.dir < USER_DIRS ∧ (pte s s.active v.toVPage).present = true ∧ Stored s own v w s' := by
  simp only [kernelStore, store, h.pageFrame_active] at taken
  split at taken
  · rename_i below
    split at taken
    · rename_i present
      cases taken
      exact ⟨below, present, h.stored below present w⟩
    · cases taken
  · cases taken

theorem userWrite_eq (h : Owned s own) (page : VPage) :
    userWrite s page =
      if (pte s s.active page).present then
        some ((pte s s.active page).frame, (pde s s.active page.dir).user &&
          (pte s s.active page).user && (pde s s.active page.dir).writable &&
          (pte s s.active page).writable)
      else none := by
  rw [userWrite, h.pde_cr3]
  cases table : (pde s s.active page.dir).present with
  | false => simp [pte_absent page table, present_zero]
  | true => simp only [pte_present page table, if_true]

/-- A store that goes through at once, or after copy on write. -/
theorem userStore_cases (h : Owned s own) {v : VAddr} {w : Word}
    (taken : userStore s v w = some s') :
    v.dir < USER_DIRS ∧ (pte s s.active v.toVPage).present = true ∧
      (((pde s s.active v.dir).writable = true ∧ (pte s s.active v.toVPage).writable = true ∧
          Stored s own v w s') ∨
        ∃ t own', Owned t own' ∧ own'.device = own.device ∧ Split s own v.toVPage t ∧
          Stored t own' v w s') := by
  simp only [userStore, userWrite_eq h] at taken
  split at taken
  · rename_i present
    simp only [Option.bind_eq_bind, Option.bind_some] at taken
    split at taken
    · rename_i allowed
      simp only [Bool.and_eq_true] at allowed
      have below : v.dir < USER_DIRS := by
        by_contra above
        have dir := (h.dirs _ h.active).supervisor v.dir (by simpa [USER_DIRS] using above)
          (pte_pde present)
        rw [← pde, allowed.1.1.1] at dir
        cases dir
      cases taken
      exact ⟨below, present, .inl ⟨allowed.1.2, allowed.2, h.stored below present w⟩⟩
    · split at taken
      · rename_i below
        rcases Option.bind_eq_some_iff.mp taken with ⟨t, split, rest⟩
        have split := copyOnWrite_split h below present split
        rcases split.owned with ⟨own', owned, device⟩
        have present' : (pte t t.active v.toVPage).present = true := by
          rw [split.active, split.present _ h.active _ below, present]
        rw [userWrite_eq owned, if_pos present'] at rest
        simp only [Option.bind_some] at rest
        split at rest
        · cases rest
          exact ⟨below, present, .inr ⟨t, own', owned, device, split,
            owned.stored below present' w⟩⟩
        · cases rest
      · cases taken
  · cases taken

def SharesTable (s : State) (p q : DirPtr) (i : Index) : Prop :=
  (pde s p i).present = true ∧ (pde s q i).present = true ∧ (pde s p i).frame = (pde s q i).frame

/-- Only pages in `pages` change, for the active process and those that share the table. -/
structure Remapped (s : State) (pages : VPage → Prop) (s' : State) : Prop where
  dirs : s'.dirs = s.dirs
  live : s'.live = s.live
  active : s'.active = s.active
  tables : ∀ q ∈ s.dirs, q ≠ s.active → ∀ i, i < USER_DIRS →
    SharesTable s' s.active q i → SharesTable s s.active q i
  ptes : ∀ q ∈ s.dirs, ∀ p, p.dir < USER_DIRS →
    (pages p → q ≠ s.active ∧ ¬SharesTable s s.active q p.dir) → pte s' q p = pte s q p
  words : ∀ q ∈ s.dirs, ∀ v, v.dir < USER_DIRS →
    (pages v.toVPage → q ≠ s.active ∧ ¬SharesTable s s.active q v.dir) → word s' q v = word s q v
  spared : Spared s s'

/-- The pages lie in frames that were unused, as those were. -/
def FreshPages (s : State) (pages : VPage → Prop) (s' : State) : Prop :=
  ∀ v, v.dir < USER_DIRS → pages v.toVPage → (pte s' s.active v.toVPage).present = true ∧
    used s.bitmap (pte s' s.active v.toVPage).frame = false ∧
    word s' s.active v = s.mem (pte s' s.active v.toVPage).frame v.word

theorem Remapped.trans {t : State} {P Q R : VPage → Prop} (first : Remapped s P t)
    (second : Remapped t Q s') (left : ∀ p, P p → R p) (right : ∀ p, Q p → R p) :
    Remapped s R s' := by
  have later {q : DirPtr} (member : q ∈ s.dirs) {i : Index} (below : i < USER_DIRS)
      (spared : q ≠ s.active ∧ ¬SharesTable s s.active q i) :
      q ≠ t.active ∧ ¬SharesTable t t.active q i := by
    rw [first.active]
    exact ⟨spared.1, fun shared => spared.2 (first.tables q member spared.1 i below shared)⟩
  constructor
  case dirs => exact second.dirs.trans first.dirs
  case live => exact second.live.trans first.live
  case active => exact second.active.trans first.active
  case tables =>
    intro q member other i below shared
    apply first.tables q member other i below
    rw [← first.active] at shared other ⊢
    exact second.tables q (first.dirs.symm ▸ member) other i below shared
  case ptes =>
    intro q member p below spared
    rw [second.ptes q (first.dirs.symm ▸ member) p below
      fun mine => later member below (spared (right p mine)),
      first.ptes q member p below fun mine => spared (left p mine)]
  case words =>
    intro q member v below spared
    rw [second.words q (first.dirs.symm ▸ member) v below
      fun mine => later member below (spared (right _ mine)),
      first.words q member v below fun mine => spared (left _ mine)]
  case spared => exact first.spared.trans second.spared

theorem FreshPages.trans {t : State} {P Q R : VPage → Prop} (first : FreshPages s P t)
    (s_t : Remapped s P t) (second : FreshPages t Q s') (t_s' : Remapped t Q s')
    (active : s.active ∈ s.dirs) (cover : ∀ p, R p → P p ∨ Q p) : FreshPages s R s' := by
  intro v below mine
  have member : s.active ∈ t.dirs := s_t.dirs.symm ▸ active
  by_cases late : Q v.toVPage
  · have new := second v below late
    rw [s_t.active] at new
    rcases s_t.spared _ new.2.1 with ⟨unused, same⟩
    exact ⟨new.1, unused, by rw [new.2.2, same]⟩
  · rcases cover _ mine with early | impossible
    · rw [t_s'.ptes _ member _ below (fun q => absurd q late),
        t_s'.words _ member v below (fun q => absurd q late)]
      exact first v below early
    · exact absurd impossible late

theorem Owned.setEntry (h : Owned s own) {page : VPage} (below : page.dir < USER_DIRS)
    (table : (pde s s.active page.dir).present = true) (w : Word)
    (user : w.present = true → w.user = true)
    (owner : w.present = true → own w.frame = .page page) :
    Owned (s.write (pde s s.active page.dir).frame page.table w) own ∧
      Remapped s (· = page) (s.write (pde s s.active page.dir).frame page.table w) ∧
      pte (s.write (pde s s.active page.dir).frame page.table w) s.active page = w := by
  have t_owner := h.table_owner h.active below table
  have pdes {q : DirPtr} (member : q ∈ s.dirs) (i : Index) :=
    h.pde_writeTable t_owner page.table w member i
  have kept {q : DirPtr} (member : q ∈ s.dirs) {p : VPage} (user : p.dir < USER_DIRS)
      (spared : p = page → q ≠ s.active ∧ ¬SharesTable s s.active q p.dir) :
      pte (s.write (pde s s.active page.dir).frame page.table w) q p = pte s q p := by
    rw [h.pte_writeTable t_owner page.table w member user, if_neg]
    rintro ⟨rfl, present, frame⟩
    exact (spared rfl).2 ⟨table, present, frame.symm⟩
  refine ⟨h.writeTable t_owner page.table w user owner, ?_, ?_⟩
  · refine ⟨rfl, rfl, rfl, ?_, fun q member p => kept member, ?_, ?_⟩
    · intro q member _ i _
      rw [SharesTable, pdes member, pdes h.active]
      exact id
    · intro q member v user spared
      rw [word, kept member user spared, contents_write, word]
      intro mapped
      exact ne_of_owner (h.page_owner member user mapped) (by simp [t_owner])
    · exact spared_write (h.used _ (by simp [t_owner])) page.table w
  · rw [h.pte_writeTable t_owner page.table w h.active below, if_pos ⟨rfl, table, rfl⟩]

theorem State.writeFrame_write (s : State) {f g : Frame} (i : Index) (w : Word) (c : Index → Word)
    (other : f ≠ g) : (s.write f i w).writeFrame g c = (s.writeFrame g c).write f i w := by
  simp only [State.write, State.writeFrame, Function.update_of_ne other]
  rw [Function.update_comm other]

/-- The page table made for a missing directory entry. -/
theorem demandPage_run
    (self : (s.mem s.cr3 1023#10).present = true ∧ (s.mem s.cr3 1023#10).frame = s.cr3)
    (marked : used s.bitmap s.cr3 = true) {page : VPage} (early : page.dir ≠ 1023#10) {g : Frame}
    {bitmap : Bitmap} (allocated : pmalloc s.bitmap = some (g, bitmap)) :
    g ≠ s.cr3 ∧ demandPage s (pageEntry page).toVPage =
      some (State.write { s.writeFrame g (fun _ => 0#32) with bitmap := bitmap } s.cr3 page.dir
        (address g + 0b100000000111#32)) := by
  have other : g ≠ s.cr3 := by
    intro equal
    rw [← equal, (pmalloc_spec _ _ _ allocated).1] at marked
    cases marked
  have through : pageFrame { s with bitmap := bitmap } ⟨1023#10, 1023#10⟩ = some s.cr3 := by
    rw [pageFrame_self (s := { s with bitmap := bitmap }) self, if_pos self.1, self.2]
  have entry : (address g + 0b100000000111#32).present = true :=
    entry_getLsbD g _ (by decide) 0 (by decide)
  have frame : (address g + 0b100000000111#32).frame = g := entry_frame g _ (by decide)
  refine ⟨other, ?_⟩
  simp only [demandPage, allocated, store, pageEntry, through, Option.bind_eq_bind,
    Option.bind_some, Option.map_some, Option.pure_def]
  generalize address g + 0b100000000111#32 = w at *
  have walked : pageFrame (State.write { s with bitmap := bitmap } s.cr3 page.dir w)
      ⟨1023#10, page.dir⟩ = some g := by
    simp only [pageFrame, State.write_cr3, State.write_mem_self, Function.update_of_ne early.symm,
      self.1, self.2, Function.update_self, entry, frame, if_true]
  rw [walked, Option.bind_some, State.writeFrame_write _ _ _ _ other.symm]
  rfl

theorem demandPage_eq
    (self : (s.mem s.cr3 1023#10).present = true ∧ (s.mem s.cr3 1023#10).frame = s.cr3)
    (marked : used s.bitmap s.cr3 = true) {page : VPage} (early : page.dir ≠ 1023#10)
    (taken : demandPage s (pageEntry page).toVPage = some s') :
    ∃ g bitmap, pmalloc s.bitmap = some (g, bitmap) ∧ g ≠ s.cr3 ∧
      s' = State.write { s.writeFrame g (fun _ => 0#32) with bitmap := bitmap } s.cr3 page.dir
        (address g + 0b100000000111#32) := by
  cases allocated : pmalloc s.bitmap with
  | none => simp [demandPage, allocated] at taken
  | some result =>
      rcases demandPage_run self marked early allocated with ⟨other, run⟩
      exact ⟨result.1, result.2, rfl, other, Option.some.inj (taken.symm.trans run)⟩

theorem Background.remapped (b : Background s s') (active : s.active ∈ s.dirs) :
    Remapped s (fun _ => False) s' := by
  constructor
  case dirs => exact b.dirs
  case live => exact b.live
  case active => exact b.active
  case tables =>
    intro q member _ i _
    rw [SharesTable, b.pdes q member, b.pdes _ active]
    exact id
  case ptes =>
    intro q member p below _
    exact b.ptes q member p below
  case words =>
    intro q member v below _
    exact b.words q member v below
  case spared => exact b.spared

theorem Owned.newTable (h : Owned s own) {i : Index} (below : i < USER_DIRS)
    (absent : (pde s s.active i).present = false) {w : Word} (present : w.present = true)
    (user : w.user = true) (owner : own w.frame = .table i)
    (blank : s.mem w.frame = fun _ => 0#32) (unheld : ¬Held s own w.frame) :
    Owned (s.write s.cr3 i w) own ∧ Remapped s (fun _ => False) (s.write s.cr3 i w) ∧
      (pde (s.write s.cr3 i w) s.active i).present = true := by
  have table : TableOk s.mem own i w.frame := by
    constructor
    · exact owner
    · intro j mapped
      rw [blank, present_zero] at mapped
      cases mapped
    · intro j mapped
      rw [blank, present_zero] at mapped
      cases mapped
  have ptes {q : DirPtr} (member : q ∈ s.dirs) {p : VPage} (user : p.dir < USER_DIRS) :
      pte (s.write s.cr3 i w) q p = pte s q p := by
    rw [h.pte_writeDir i w present owner member user]
    split
    · rename_i here
      rw [blank, here.1, pte, here.2]
      simp [contents, absent]
    · rfl
  refine ⟨h.writeDir i below w (fun _ => user) (fun _ => table),
    ⟨rfl, rfl, rfl, ?_, ?_, ?_, ?_⟩, ?_⟩
  · intro q member other i' _
    have theirs : pde (s.write s.cr3 i w) q i' = pde s q i' := by
      rw [h.pde_writeDir i w member, if_neg (fun both => other both.1)]
    rw [SharesTable, theirs, h.pde_writeDir i w h.active]
    split
    · rename_i here
      rintro ⟨_, mapped, same⟩
      exact absurd (same ▸ h.held_table member i' mapped) unheld
    · exact id
  · intro q member p user _
    exact ptes member user
  · intro q member v user _
    rw [word, ptes member user, contents_write, word]
    intro mapped
    rw [h.cr3]
    exact ((h.loose_page (h.page_owner member user mapped)).dir _ h.active).symm
  · apply spared_write
    rw [h.cr3]
    exact h.used _ (h.held_owner (h.held_dir h.active))
  · rw [h.pde_writeDir i w h.active, if_pos ⟨rfl, rfl⟩, present]

theorem demandPage_remapped (h : Owned s own) (page : VPage) (below : page.dir < USER_DIRS)
    (absent : (pde s s.active page.dir).present = false)
    (taken : demandPage s (pageEntry page).toVPage = some s') :
    ∃ own', Owned s' own' ∧ own'.device = own.device ∧ Remapped s (fun _ => False) s' ∧
      (pde s' s.active page.dir).present = true ∧
      ∀ f p, own f = .page p → own' f = .page p ∧ s'.mem f = s.mem f := by
  have marked_dir : used s.bitmap s.cr3 = true := by
    rw [h.cr3]
    exact h.used _ (h.held_owner (h.held_dir h.active))
  have early : page.dir ≠ 1023#10 := by
    simp only [USER_DIRS] at below
    bv_omega
  rcases demandPage_eq h.dir.self marked_dir early taken with ⟨g, bitmap, allocated, other, rfl⟩
  rcases h.claim allocated .free with ⟨free, claimed⟩
  have s_t := background_pmalloc s allocated
  have free' : own.give g .free g = .free := own.give_self ..
  have marked : used bitmap g = true := by
    rw [(pmalloc_spec _ _ _ allocated).2, used_puse]
    simp
  have loose := claimed.loose_free free'
  have zeroed := claimed.writeFrame loose (fun _ => 0#32)
  have t_u := claimed.background_writeFrame loose (by simp) marked (fun _ => 0#32)
  have unheld : ¬Held (State.writeFrame { s with bitmap := bitmap } g fun _ => 0#32)
      (own.give g .free) g :=
    fun held => zeroed.held_owner held free'
  have owned := zeroed.give unheld (.table page.dir) bitmap (fun _ _ => id) (fun _ => marked)
  have s_u := s_t.trans t_u
  have frame : (address g + 0b100000000111#32).frame = g := entry_frame g _ (by decide)
  rcases owned.newTable (i := page.dir) (w := address g + 0b100000000111#32) below
    (by rw [← absent, ← s_u.pde_active h]; rfl) (entry_getLsbD g _ (by decide) 0 (by decide))
    (entry_getLsbD g _ (by decide) 2 (by decide)) (by rw [frame, Owners.give_self])
    (by rw [frame]; exact State.writeFrame_mem_self ..) (by rw [frame]; exact unheld) with
    ⟨owned', remapped, present⟩
  refine ⟨_, owned', rfl, ?_, present, ?_⟩
  · exact (s_u.remapped h.active).trans remapped (fun _ => id) (fun _ => id)
  · intro f p owner
    have apart : f ≠ g := ne_of_owner owner (by simp [free])
    have not_dir : f ≠ s.cr3 := by
      rw [h.cr3]
      exact ((h.loose_page owner).dir _ h.active).symm
    refine ⟨by simp [Owners.give_ne _ _ apart, owner], ?_⟩
    rw [State.write_mem_ne _ _ _ not_dir]
    exact s.writeFrame_mem_ne _ apart

theorem mapPage_remapped (h : Owned s own) {page : VPage} (below : page.dir < USER_DIRS)
    (taken : mapPage s page = some s') :
    (∃ own', Owned s' own' ∧ own'.device = own.device) ∧ Remapped s (· = page) s' ∧
      FreshPages s (· = page) s' := by
  simp only [mapPage, Option.bind_eq_bind, Option.bind_eq_some_iff] at taken
  rcases taken with ⟨⟨f, bitmap⟩, allocated, rest⟩
  rcases h.claim allocated (.page page) with ⟨free, owned⟩
  have frame : (address f ||| 0b100000000111#32).frame = f := frame_address_or f _ (by decide)
  have present : (address f ||| 0b100000000111#32).present = true :=
    address_or_getLsbD f _ 0 (by decide)
  have user : (address f ||| 0b100000000111#32).user = true :=
    address_or_getLsbD f _ 2 (by decide)
  have final {t : State} {own' : Owners} (t_owned : Owned t own')
      (device : own'.device = own.device) (s_t : Remapped s (fun _ => False) t) (table : (pde t t.active page.dir).present = true)
      (owner : own' f = .page page) (content : t.mem f = s.mem f)
      (stored : store t (pageEntry page) (address f ||| 0b100000000111#32) = some s') :
      (∃ own', Owned s' own' ∧ own'.device = own.device) ∧ Remapped s (· = page) s' ∧
        FreshPages s (· = page) s' := by
    rw [store_entry t_owned page _ (by rwa [t_owned.pde_cr3]), t_owned.pde_cr3] at stored
    cases stored
    rcases t_owned.setEntry below table (address f ||| 0b100000000111#32) (fun _ => user)
      (by rw [frame]; exact fun _ => owner) with ⟨owned', remapped, entry⟩
    have t_owner := t_owned.table_owner t_owned.active below table
    generalize address f ||| 0b100000000111#32 = w at *
    refine ⟨⟨own', owned', device⟩, s_t.trans remapped (fun _ => False.elim) (fun _ => id), ?_⟩
    intro v _ same
    have other : f ≠ (pde t t.active page.dir).frame := ne_of_owner owner (by simp [t_owner])
    rw [word, same, ← s_t.active, entry, contents_present present, frame,
      State.write_mem_ne _ _ _ other, content]
    exact ⟨present, (pmalloc_spec _ _ _ allocated).1, rfl⟩
  have window : pageFrame { s with bitmap := bitmap } (pageEntry page).toVPage =
      if (pde s s.active page.dir).present then some (pde s s.active page.dir).frame else none := by
    rw [pageEntry, pageFrame_window owned, owned.pde_cr3]
    rfl
  have s_t := (background_pmalloc s allocated).remapped h.active
  cases table : (pde s s.active page.dir).present with
  | true =>
      simp only [window, table, if_true, Option.isSome_some] at rest
      exact final owned rfl s_t table (own.give_self ..) rfl rest
  | false =>
      simp only [window, table, Bool.false_eq_true, if_false, Option.isSome_none] at rest
      rcases Option.bind_eq_some_iff.mp rest with ⟨t, demanded, stored⟩
      rcases demandPage_remapped owned page below table demanded with
        ⟨own', t_owned, device, remapped, mapped, pages⟩
      rcases pages f page (own.give_self ..) with ⟨owner, content⟩
      apply final t_owned device _ _ owner content stored
      · exact s_t.trans remapped (fun _ => id) (fun _ => id)
      · rw [remapped.active]
        exact mapped

def mmapPage (base : BitVec 32) (i : Nat) : VPage :=
  (decode (base + 0x1000#32 * BitVec.ofNat 32 i)).toVPage

theorem mapPages_remapped (h : Owned s own) (base : BitVec 32) (count i : Nat)
    (below : ∀ n, i ≤ n → n < i + count → (mmapPage base n).dir < USER_DIRS)
    (taken : mapPages base count i s = some s') :
    (∃ own', Owned s' own' ∧ own'.device = own.device) ∧
      Remapped s (fun p => ∃ n, i ≤ n ∧ n < i + count ∧ p = mmapPage base n) s' ∧
      FreshPages s (fun p => ∃ n, i ≤ n ∧ n < i + count ∧ p = mmapPage base n) s' := by
  induction count generalizing s own i with
  | zero =>
      cases taken
      refine ⟨⟨own, h, rfl⟩, ?_, ?_⟩
      · exact ⟨rfl, rfl, rfl, fun _ _ _ _ _ => id, fun _ _ _ _ _ => rfl, fun _ _ _ _ _ => rfl,
          fun _ unused => ⟨unused, rfl⟩⟩
      · intro v _ ⟨n, low, high, _⟩
        omega
  | succ count ih =>
      rcases Option.bind_eq_some_iff.mp taken with ⟨t, mapped, rest⟩
      rcases mapPage_remapped h (below i (Nat.le_refl i) (by omega)) mapped with
        ⟨⟨own', owned, device⟩, s_t, first⟩
      rcases ih owned (i + 1) (fun n low high => below n (by omega) (by omega)) rest with
        ⟨⟨own'', owned', device'⟩, t_s', later⟩
      refine ⟨⟨own'', owned', device'.trans device⟩, s_t.trans t_s' ?_ ?_, first.trans s_t later t_s' h.active ?_⟩
      · intro p here
        exact ⟨i, Nat.le_refl i, by omega, here⟩
      · intro p ⟨n, low, high, here⟩
        exact ⟨n, by omega, by omega, here⟩
      · intro p ⟨n, low, high, here⟩
        by_cases start : n = i
        · exact .inl (start ▸ here)
        · exact .inr ⟨n, by omega, by omega, here⟩

theorem decode_below (vaddr : BitVec 32) (below : vaddr < 0xc0000000#32) :
    (decode vaddr).dir < USER_DIRS := by
  have bound := BitVec.lt_def.mp below
  rw [BitVec.lt_def, decode, USER_DIRS, BitVec.toNat_setWidth, BitVec.toNat_ushiftRight,
    Nat.shiftRight_eq_div_pow]
  simp only [BitVec.toNat_ofNat] at bound ⊢
  omega

/-- Every address whose entry `mmap` sets lies below USER_LIMIT. -/
def UserRange (hint length : BitVec 32) (flags : BitVec 8) : Prop :=
  ∀ i < noPages length,
    mmapBase hint flags + 0x1000#32 * BitVec.ofNat 32 i < 0xc0000000#32

def InRange (hint length : BitVec 32) (flags : BitVec 8) (page : VPage) : Prop :=
  ∃ i < noPages length, page = mmapPage (mmapBase hint flags) i

theorem mmap_remapped (h : Owned s own) {hint length : BitVec 32} {flags : BitVec 8}
    (range : UserRange hint length flags) (taken : mmap s hint length flags = some s') :
    (∃ own', Owned s' own' ∧ own'.device = own.device) ∧ Remapped s (InRange hint length flags) s' ∧
      FreshPages s (InRange hint length flags) s' := by
  have pages : (fun p => ∃ n, 0 ≤ n ∧ n < 0 + noPages length ∧
      p = mmapPage (mmapBase hint flags) n) = InRange hint length flags := by
    funext p
    simp [InRange]
  rw [← pages]
  exact mapPages_remapped h _ _ 0 (fun n _ high => decode_below _ (range n (by omega))) taken

theorem getpaddr_dir (h : Owned s own) {q : DirPtr} : getpaddr s q.page = some (q.frame s) := by
  cases q with
  | boot =>
      rcases (h.dirs _ h.active).code with ⟨present, frame⟩
      rw [← h.cr3] at present frame
      rw [getpaddr, DirPtr.page, load_entry h _ present, frame, Option.map_some,
        (h.identity _).2]
      rfl
  | heap k =>
      rw [getpaddr, DirPtr.page, load_heapEntry h.heapTable, Option.map_some]
      rfl

theorem switch_owned (h : Owned s own) {q : DirPtr} (member : q ∈ s.dirs)
    (taken : switch s q = some s') :
    Owned s' own ∧ s' = { s with cr3 := q.frame s, active := q } := by
  simp only [switch, getpaddr_dir h, Option.bind_eq_bind, Option.bind_some, Option.pure_def,
    Option.some.injEq] at taken
  subst taken
  exact ⟨{ h with active := member, cr3 := rfl }, rfl⟩

theorem lowFlags_small (w : Word) : (w &&& 0x00000FFF#32).toNat < 4096 := by
  rw [BitVec.toNat_and]
  exact Nat.lt_of_le_of_lt Nat.and_le_right (by decide)

theorem lowFlags_getLsbD (w : Word) (i : Nat) (low : i < 12) :
    (w &&& 0x00000FFF#32).getLsbD i = w.getLsbD i := by
  have mask : (0x00000FFF#32).getLsbD i = true := by
    interval_cases i <;> rfl
  rw [BitVec.getLsbD_and, mask, Bool.and_true]

theorem aligned_address (paddr : Word) (aligned : paddr &&& 0x00000FFF#32 = 0#32) :
    address paddr.frame = paddr := by
  apply BitVec.eq_of_toNat_eq
  have low := congrArg BitVec.toNat aligned
  rw [BitVec.toNat_and, show (0x00000FFF#32).toNat = 2 ^ 12 - 1 from rfl,
    Nat.and_two_pow_sub_one_eq_mod] at low
  rw [toNat_address, toNat_frame]
  simp only [BitVec.toNat_ofNat] at low
  omega

theorem deviceEntry (paddr w : Word) (aligned : paddr &&& 0x00000FFF#32 = 0#32) :
    (paddr + (w &&& 0x00000FFF#32)).frame = paddr.frame ∧
      (paddr + (w &&& 0x00000FFF#32)).present = w.present ∧
      (paddr + (w &&& 0x00000FFF#32)).inUse = w.inUse := by
  have entry : paddr + (w &&& 0x00000FFF#32) = address paddr.frame + (w &&& 0x00000FFF#32) := by
    rw [aligned_address paddr aligned]
  have flag (i : Nat) (low : i < 12) :
      (paddr + (w &&& 0x00000FFF#32)).getLsbD i = w.getLsbD i := by
    rw [entry, entry_getLsbD _ _ (lowFlags_small _) i low, lowFlags_getLsbD _ i low]
  refine ⟨?_, flag 0 (by decide), flag 11 (by decide)⟩
  rw [entry, entry_frame _ _ (lowFlags_small _)]

theorem mmiomalloc_eq (h : HeapTable s) {paddr : Word} {k : Index}
    (taken : mmiomalloc s paddr = some (k, s')) :
    ∃ t, kmalloc s = some (k, t) ∧
      s' = { t.write HEAP_PT k (paddr + (t.slot k &&& 0x00000FFF#32)) with
        bitmap := pfree t.bitmap (t.slot k).frame } := by
  simp only [mmiomalloc, Option.bind_eq_bind, Option.bind_eq_some_iff, Option.pure_def,
    Option.some.injEq, Prod.mk.injEq] at taken
  rcases taken with ⟨⟨k', t⟩, allocated, w, loaded, u, stored, rfl, rfl⟩
  have table := h.kmalloc allocated
  rw [load_heapEntry table] at loaded
  cases loaded
  rw [store_bitmap, store_heapEntry table] at stored
  cases stored
  exact ⟨t, allocated, rfl⟩

/-- A page of a device, whatever frame it is in: nobody owns that for it, and the frame that was
in its place is free. -/
theorem mmiomalloc_device (h : Owned s own) {paddr : Word} {k : Index}
    (aligned : paddr &&& 0x00000FFF#32 = 0#32) (taken : mmiomalloc s paddr = some (k, s')) :
    ∃ own', Owned s' own' ∧ own'.device = insert k own.device := by
  rcases mmiomalloc_eq h.heapTable taken with ⟨t, allocated, rfl⟩
  rcases kmalloc_fresh h allocated with ⟨own1, fresh⟩
  rcases deviceEntry paddr (t.slot k) aligned with ⟨_, w_present, w_inUse⟩
  rw [fresh.inUse] at w_inUse
  rw [fresh.present] at w_present
  have ordinary := fresh.ordinary h
  have dead : k ∉ t.live := fresh.background.live.symm ▸ h.not_live fresh.idle
  have u_owned := fresh.owned.writeSlot k (paddr + (t.slot k &&& 0x00000FFF#32))
    (insert k own1.device) (fun k' other => by simp [other])
    (fresh.background.dirs ▸ h.not_dir fresh.idle) (fun member => absurd member dead)
    (fun out => absurd (Set.mem_insert k _) out) (fun _ => w_inUse) (fun _ => w_present)
  generalize paddr + (t.slot k &&& 0x00000FFF#32) = w at *
  have dropped : ¬Held (t.write HEAP_PT k w) { own1 with device := insert k own1.device }
      (t.slot k).frame := by
    intro held
    exact (u_owned.held_heap held (fresh.heap h)).2.2 (Set.mem_insert k _)
  refine ⟨_, u_owned.give dropped .free (pfree t.bitmap (t.slot k).frame) ?_ ?_, ?_⟩
  · intro g other used_g
    rw [used_pfree, show used t.bitmap g = true from used_g]
    simp [other]
  · exact fun impossible => absurd rfl impossible
  · rw [Owners.give_device, fresh.device]

/-- A frame that is marked and not mapped may be put on the heap. -/
theorem mmiomalloc_owned (h : Owned s own) {paddr : Word} {k : Index}
    (aligned : paddr &&& 0x00000FFF#32 = 0#32) (marked : used s.bitmap paddr.frame = true)
    (unmapped : ¬Mapped s paddr.frame) (taken : mmiomalloc s paddr = some (k, s')) :
    (∃ own', Owned s' own' ∧ own'.device = own.device) ∧ s'.dirs = s.dirs ∧ s'.live = s.live ∧
      (s'.slot k).inUse = true ∧ k ∉ own.device ∧ .heap k ∉ s.dirs := by
  rcases mmiomalloc_eq h.heapTable taken with ⟨t, allocated, rfl⟩
  have given_up : Owned s (own.give paddr.frame .free) :=
    h.give (mt Held.mapped unmapped) .free s.bitmap (fun _ _ => id)
      (fun impossible => absurd rfl impossible)
  rcases kmalloc_fresh given_up allocated with ⟨own1, fresh⟩
  have ordinary := fresh.ordinary given_up
  have free : own1 paddr.frame = .free := by
    rw [fresh.owners _ marked, own.give_self]
  have t_owned : Owned t (own1.give paddr.frame (.heap k)) :=
    fresh.owned.give (fun held => fresh.owned.held_owner held free) _ t.bitmap
      (fun _ _ => id) (fun _ => fresh.marked _ marked)
  have old_owner := fresh.heap given_up
  have apart : (t.slot k).frame ≠ paddr.frame := ne_of_owner old_owner (by simp [free])
  rcases deviceEntry paddr (t.slot k) aligned with ⟨w_frame, w_present, w_inUse⟩
  rw [fresh.inUse] at w_inUse
  rw [fresh.present] at w_present
  generalize paddr + (t.slot k &&& 0x00000FFF#32) = w at *
  have not_dir : .heap k ∉ s.dirs := h.not_dir fresh.idle
  have u_owned := t_owned.writeHeap k w ordinary (fresh.background.dirs ▸ not_dir)
    (fun _ => w_inUse) (fun _ => by rw [w_frame, own1.give_self]) (fun _ => w_present)
  have dropped : ¬Held (t.write HEAP_PT k w) (own1.give paddr.frame (.heap k)) (t.slot k).frame := by
    intro held
    have owner : own1.give paddr.frame (.heap k) (t.slot k).frame = .heap k := by
      rw [own1.give_ne _ apart, old_owner]
    have back := (u_owned.held_heap held owner).2.1
    rw [t.slot_write, if_pos rfl, w_frame] at back
    exact apart back.symm
  refine ⟨⟨_, u_owned.give dropped .free (pfree t.bitmap (t.slot k).frame) ?_ ?_, fresh.device⟩, ?_⟩
  · intro g other used_g
    rw [used_pfree, show used t.bitmap g = true from used_g]
    simp [other]
  · exact fun impossible => absurd rfl impossible
  · refine ⟨fresh.background.dirs, fresh.background.live, ?_, h.idle_ordinary fresh.idle, not_dir⟩
    exact ((t.slot_write k k w).trans (if_pos rfl)).symm ▸ w_inUse

theorem pageFrame_dir (h : Owned s own) {q : DirPtr} (member : q ∈ s.dirs) :
    pageFrame s q.page = some (q.frame s) := by
  rw [h.pageFrame_active]
  cases q with
  | boot =>
      rw [DirPtr.page, h.pte_code h.active, (h.identity _).1, (h.identity _).2]
      rfl
  | heap k =>
      rw [DirPtr.page, h.pte_heap h.active, h.dir_present member]
      rfl

/-- The state `t` just before the child is linked into the list, its directory in `k`. -/
structure Forked (s : State) (k : Index) (t : State) (own' : Owners) : Prop where
  owned : Owned t own'
  background : Background s t
  ordinary : k ∉ own'.device
  inUse : (t.slot k).inUse = true
  apart : .heap k ∉ t.dirs
  dead : k ∉ t.live
  copied : ∀ i, i ≠ 1023#10 → t.mem (t.slot k).frame i = pde s s.active i &&& 0xFFFFFFFD#32
  self : t.mem (t.slot k).frame 1023#10 = address (t.slot k).frame ||| 0b100000000011#32

theorem fork_forked (h : Owned s own) {fds : VPage} (taken : fork s fds = some s') :
    ∃ k t own', Forked s k t own' ∧ own'.device = own.device ∧
      s' = { t with dirs := t.dirs ++ [.heap k] } := by
  simp only [fork, Option.bind_eq_bind, Option.bind_eq_some_iff, Option.pure_def,
    Option.some.injEq] at taken
  rcases taken with ⟨⟨process, s1⟩, made, ⟨fdTable, s2⟩, table, s3, cloned, ⟨newdir, s4⟩, dir, s5,
    copied, s6, dropped, paddr, address, s7, stored, ⟨stack, t⟩, last, rfl⟩
  rcases kmalloc_fresh h made with ⟨own1, fresh1⟩
  rcases kmalloc_memCopy fresh1.owned table cloned with ⟨own3, filled3, kept3, _⟩
  rcases kmalloc_memCopy filled3.owned dir copied with ⟨own5, filled, kept5, _⟩
  have s_s3 := fresh1.background.trans filled3.background
  have s_s5 := s_s3.trans filled.background
  have present := filled.owned.inUse newdir filled.inUse
  rcases filled.content with ⟨u, own_u, src, u_owned, s3_u, u_mem, read, content⟩
  have copied : ∀ i, s5.mem (s5.slot newdir).frame i = pde s s.active i := by
    rcases kmalloc_fresh filled3.owned dir with ⟨_, fresh4⟩
    rw [fresh4.background.active, ← s3_u.active, pageFrame_dir u_owned u_owned.active] at read
    cases read
    intro i
    rw [content, ← pde, (s_s3.trans s3_u).pde_active h]
  rw [dropWrite_eq filled.owned present] at dropped
  cases dropped
  rcases filled.owned.fill filled.ordinary present filled.apart (fun i =>
    s5.mem (s5.slot newdir).frame i &&& 0xFFFFFFFD#32) with ⟨owned6, s5_s6, slot6⟩
  have masked := s5.writeFrame_mem_self (s5.slot newdir).frame (fun i =>
    s5.mem (s5.slot newdir).frame i &&& 0xFFFFFFFD#32)
  generalize s5.writeFrame _ _ = s6 at *
  have present6 : (s6.slot newdir).present = true := slot6 newdir ▸ present
  have apart6 : .heap newdir ∉ s6.dirs := s5_s6.dirs ▸ filled.apart
  simp only [getpaddr, load_heapEntry owned6.heapTable, Option.map_some, Option.some.injEq] at address
  simp only [store, pageFrame_heap owned6.heapTable, present6, if_true, Option.map_some, Option.some.injEq]
    at stored
  subst address stored
  rcases owned6.fill filled.ordinary present6 apart6 (Function.update (s6.mem (s6.slot newdir).frame) 1023#10
    (Word.address (s6.slot newdir).frame ||| 0b100000000011#32)) with ⟨owned7, s6_s7, slot7⟩
  have linked := s6.write_mem_self (s6.slot newdir).frame 1023#10
    (Word.address (s6.slot newdir).frame ||| 0b100000000011#32)
  rw [show s6.writeFrame (s6.slot newdir).frame _ = s6.write (s6.slot newdir).frame 1023#10
    (Word.address (s6.slot newdir).frame ||| 0b100000000011#32) from rfl] at owned7 s6_s7 slot7
  generalize s6.write _ _ _ = s7 at *
  rcases kmalloc_fresh owned7 last with ⟨own8, fresh⟩
  have inUse7 : (s7.slot newdir).inUse = true := by
    rw [slot7, slot6]
    exact filled.inUse
  have other : newdir ≠ stack := by
    intro equal
    rw [equal, fresh.idle] at inUse7
    cases inUse7
  have slot : t.slot newdir = s7.slot newdir := fresh.slots newdir other
  have s_t := ((s_s5.trans s5_s6).trans s6_s7).trans fresh.background
  have row : t.mem (t.slot newdir).frame = s7.mem (s6.slot newdir).frame := by
    rw [slot, fresh.mem _ (owned7.slot_ne_heapPt filled.ordinary (owned7.inUse newdir inUse7)), slot7]
  refine ⟨newdir, t, own8, ⟨fresh.owned, s_t, fresh.device ▸ filled.ordinary, ?_, ?_, ?_, ?_, ?_⟩,
    fresh.device.trans (kept5.device.trans (kept3.device.trans fresh1.device)), rfl⟩
  · rw [slot, inUse7]
  · rw [fresh.background.dirs, s6_s7.dirs]
    exact apart6
  · rw [fresh.background.live, s6_s7.live, s5_s6.live]
    exact filled.dead
  · intro i early
    rw [row, linked, Function.update_of_ne early, slot6, masked]
    simp only [copied]
  · rw [row, linked, Function.update_self, slot, slot7]

theorem Forked.dirOk {k : Index} {t : State} {own' : Owners} (h : Owned s own)
    (f : Forked s k t own') : DirOk t.mem own' (t.slot k).frame := by
  have ok := f.owned.dirs _ f.owned.active
  have entry (i : Index) (early : i ≠ 1023#10) :
      t.mem (t.slot k).frame i = pde t t.active i &&& 0xFFFFFFFD#32 := by
    rw [f.copied i early, f.background.pde_active h]
  constructor
  case code =>
    rw [entry _ (by decide), dropWrite_present, dropWrite_frame]
    exact ok.code
  case heap =>
    rw [entry _ (by decide), dropWrite_present, dropWrite_frame]
    exact ok.heap
  case self =>
    rw [f.self, frame_address_or _ _ (by decide)]
    exact ⟨address_or_getLsbD _ _ 0 (by decide), rfl⟩
  case gap =>
    intro i low high
    rw [entry i (by bv_omega), dropWrite_present]
    exact ok.gap i low high
  case supervisor =>
    intro i above
    by_cases last : i = 1023#10
    · intro _
      rw [last, f.self]
      exact address_or_getLsbD _ _ 2 (by decide)
    · rw [entry i last, dropWrite_present, dropWrite_user]
      exact ok.supervisor i above
  case user =>
    intro i below
    rw [entry i (by simp only [USER_DIRS] at below; bv_omega), dropWrite_present, dropWrite_user]
    exact ok.user i below
  case tables =>
    intro i below
    rw [entry i (by simp only [USER_DIRS] at below; bv_omega), dropWrite_present, dropWrite_frame]
    exact ok.tables i below

theorem Forked.linked {k : Index} {t : State} {own' : Owners} (h : Owned s own)
    (f : Forked s k t own') : Owned { t with dirs := t.dirs ++ [.heap k] } own' := by
  refine { f.owned with dirs := ?_, dirSlots := ?_, live := ?_, active := ?_ }
  · intro q member
    rcases List.mem_append.mp member with old | new
    · exact f.owned.dirs q old
    · have ok := f.dirOk h
      cases List.mem_singleton.mp new
      exact ok
  · intro k' member
    rcases List.mem_append.mp member with old | new
    · exact f.owned.dirSlots k' old
    · cases List.mem_singleton.mp new
      exact ⟨f.inUse, f.ordinary⟩
  · intro k' member
    rcases f.owned.live k' member with ⟨busy, ordinary, not_dir⟩
    refine ⟨busy, ordinary, ?_⟩
    intro dir
    rcases List.mem_append.mp dir with old | new
    · exact not_dir old
    · cases List.mem_singleton.mp new
      exact f.dead member
  · exact List.mem_append_left _ f.owned.active

end TitorOS.Barrel.Vmm
