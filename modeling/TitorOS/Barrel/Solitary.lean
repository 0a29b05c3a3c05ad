import TitorOS.Barrel.Exec

/-! What `exec` is worth to the process that asked for it: from then on its memory is its own. -/

namespace TitorOS.Barrel.Vmm

open TitorOS.Lib TitorOS.Lib.Word TitorOS.Barrel.Pmm

variable {s s' t : State} {own : Owners}

section Solitary

/-- No other process has a table or a page of this one. -/
def Solitary (s : State) (q : DirPtr) : Prop :=
  ∀ r ∈ s.dirs, r ≠ q → (∀ i, i < USER_DIRS → ¬SharesTable s q r i) ∧
    ∀ page, page.dir < USER_DIRS → ¬SharesPage s q r page

theorem SharesTable.symm {p q : DirPtr} {i : Index} (x : SharesTable s p q i) :
    SharesTable s q p i :=
  ⟨x.2.1, x.1, x.2.2.symm⟩

theorem SharesPage.symm {p q : DirPtr} {page : VPage} (x : SharesPage s p q page) :
    SharesPage s q p page :=
  ⟨x.2.1, x.1, x.2.2.symm⟩

/-- The same tables everywhere, and the same frames in them. -/
structure SameFrames (s s' : State) : Prop where
  dirs : s'.dirs = s.dirs
  pdes : ∀ q ∈ s.dirs, ∀ i, pde s' q i = pde s q i
  present : ∀ q ∈ s.dirs, ∀ page, page.dir < USER_DIRS →
    (pte s' q page).present = (pte s q page).present
  frames : ∀ q ∈ s.dirs, ∀ page, page.dir < USER_DIRS →
    (pte s' q page).frame = (pte s q page).frame

variable {q : DirPtr}

theorem SameFrames.trans (first : SameFrames s t) (second : SameFrames t s') : SameFrames s s' where
  dirs := second.dirs.trans first.dirs
  pdes r member i := by
    rw [second.pdes r (first.dirs.symm ▸ member), first.pdes r member]
  present r member page below := by
    rw [second.present r (first.dirs.symm ▸ member) page below, first.present r member page below]
  frames r member page below := by
    rw [second.frames r (first.dirs.symm ▸ member) page below, first.frames r member page below]

theorem Background.sameFrames (b : Background s s') : SameFrames s s' where
  dirs := b.dirs
  pdes := b.pdes
  present r member page below := by rw [b.ptes r member page below]
  frames r member page below := by rw [b.ptes r member page below]

theorem Solitary.congr (x : Solitary s q) (member : q ∈ s.dirs) (same : SameFrames s s') :
    Solitary s' q := by
  intro r old other
  rw [same.dirs] at old
  rcases x r old other with ⟨tables, pages⟩
  refine ⟨fun i below => ?_, fun page below => ?_⟩
  · rw [SharesTable, same.pdes q member, same.pdes r old]
    exact tables i below
  · rw [SharesPage, same.present q member page below, same.present r old page below,
      same.frames q member page below, same.frames r old page below]
    exact pages page below

theorem Owned.write_sameFrames (h : Owned s own) {v : VAddr} (below : v.dir < USER_DIRS)
    (present : (pte s s.active v.toVPage).present = true) (w : Word) :
    SameFrames s (s.write (pte s s.active v.toVPage).frame v.word w) := by
  have owner := h.page_owner h.active below present
  have loose := h.loose_page owner
  generalize (pte s s.active v.toVPage).frame = f at *
  have frame (r : DirPtr) : r.frame (s.write f v.word w) = r.frame s :=
    frame_write (h.heapPt_ne loose) ..
  have pdes (r : DirPtr) (member : r ∈ s.dirs) (i : Index) :
      pde (s.write f v.word w) r i = pde s r i := by
    rw [pde, frame, s.write_mem_ne _ _ (loose.dir r member), pde]
  have ptes (r : DirPtr) (member : r ∈ s.dirs) (page : VPage) (user : page.dir < USER_DIRS) :
      pte (s.write f v.word w) r page = pte s r page := by
    rw [pte, pdes r member, contents_write, pte]
    intro mapped
    exact ne_of_owner (h.table_owner member user mapped) (by simp [owner])
  exact ⟨rfl, pdes, fun r member page user => by rw [ptes r member page user],
    fun r member page user => by rw [ptes r member page user]⟩

section Split

variable {own' : Owners} {page : VPage} {f : Frame}

theorem TableSplit.solitary (x : TableSplit s own page t own' f s') (h : Owned s own)
    (present : (pde s s.active page.dir).present = true) (member : q ∈ s.dirs)
    (alone : Solitary s q) : Solitary s' q := by
  have dirs : s'.dirs = s.dirs := (x.unseen present).dirs
  intro r old other
  rw [dirs] at old
  rcases alone r old other with ⟨tables, pages⟩
  refine ⟨fun i below shares => ?_, fun p below => ?_⟩
  · by_cases moved : i = page.dir ∧ (q = s.active ∨ r = s.active)
    · rcases moved with ⟨rfl, rfl | rfl⟩
      · exact x.alone h old other shares.2.1 shares.2.2.symm
      · exact x.alone h member (Ne.symm other) shares.1 shares.2.2
    · rw [SharesTable, x.pdes member, x.pdes old,
        if_neg fun both => moved ⟨both.2, .inl both.1⟩,
        if_neg fun both => moved ⟨both.2, .inr both.1⟩] at shares
      exact tables i below shares
  · have entry (r : DirPtr) (old : r ∈ s.dirs) :
        (pte s' r p).present = (pte s r p).present ∧ (pte s' r p).frame = (pte s r p).frame := by
      rw [x.ptes present old below]
      split
      · exact ⟨dropWrite_present _, dropWrite_frame _⟩
      · exact ⟨rfl, rfl⟩
    rw [SharesPage, (entry q member).1, (entry q member).2, (entry r old).1, (entry r old).2]
    exact pages p below

theorem PageSplit.solitary (x : PageSplit s own page t own' f s') (h : Owned s own)
    (user : page.dir < USER_DIRS) (present : (pte s s.active page).present = true)
    (member : q ∈ s.dirs) (alone : Solitary s q) : Solitary s' q := by
  have dirs : s'.dirs = s.dirs := (x.unseen h user present).dirs
  have ptes := fun {r : DirPtr} (old : r ∈ s.dirs) {p : VPage} (below : p.dir < USER_DIRS) =>
    x.ptes h user present old below
  -- the processes whose entry for the page is replaced
  have same_table {r : DirPtr} (old : r ∈ s.dirs) (far : r ≠ s.active)
      (has : (pde s r page.dir).present = true ∧
        (pde s r page.dir).frame = (pde s s.active page.dir).frame) (either : r = q ∨ s.active = q) :
      False := by
    rcases either with rfl | rfl
    · exact (alone s.active h.active (Ne.symm far)).1 page.dir user
        ⟨has.1, pte_pde present, has.2⟩
    · exact (alone r old far).1 page.dir user ⟨pte_pde present, has.1, has.2.symm⟩
  intro r old other
  rw [dirs] at old
  rcases alone r old other with ⟨tables, pages⟩
  refine ⟨fun i below => ?_, fun p below shares => ?_⟩
  · rw [SharesTable, x.pdes h user present member, x.pdes h user present old]
    exact tables i below
  · by_cases here : p = page
    · subst here
      by_cases mine : q = s.active
      · subst mine
        have table := x.shared h user present old shares.2.1 shares.2.2.symm
        exact same_table old other table (.inr rfl)
      · have kept : pte s' q p = pte s q p := by
          rw [ptes member below, if_neg]
          rintro ⟨_, has⟩
          exact same_table member mine has (.inl rfl)
        by_cases theirs : (pde s r p.dir).present = true ∧
            (pde s r p.dir).frame = (pde s s.active p.dir).frame
        · have r_entry : pte s' r p = pte s' s.active p := by
            rw [ptes old below, if_pos ⟨rfl, theirs⟩, ptes h.active below,
              if_pos ⟨rfl, pte_pde present, rfl⟩]
          rw [SharesPage, r_entry] at shares
          exact same_table member mine (x.shared h user present member shares.1 shares.2.2)
            (.inl rfl)
        · rw [SharesPage, kept, ptes old below, if_neg fun both => theirs both.2] at shares
          exact pages p below shares
    · rw [SharesPage, ptes member below, ptes old below, if_neg fun both => here both.1,
        if_neg fun both => here both.1] at shares
      exact pages p below shares

theorem copyOnWrite_solitary (h : Owned s own) (user : page.dir < USER_DIRS)
    (present : (pte s s.active page).present = true) (taken : copyOnWrite s page = some s')
    (member : q ∈ s.dirs) (alone : Solitary s q) : Solitary s' q := by
  simp only [copyOnWrite, load_dirEntry h, h.pde_cr3, Option.bind_eq_bind, Option.bind_some] at taken
  split at taken
  · rcases splitPage_spec h user present taken with ⟨_, _, _, x⟩
    exact x.solitary h user present member alone
  · rcases Option.bind_eq_some_iff.mp taken with ⟨u, split, taken⟩
    have table := pte_pde present
    rcases splitTable_spec h user table split with ⟨_, own1, _, x⟩
    have s_u := x.unseen table
    have owned := x.owned_result h user table
    have present' : (pte u u.active page).present = true := by
      rw [s_u.active, s_u.present _ h.active page user, present]
    rcases splitPage_spec owned user present' taken with ⟨_, _, _, y⟩
    exact y.solitary owned user present' (s_u.dirs ▸ member) (x.solitary h table member alone)

end Split

theorem Owned.page_used (h : Owned s own) {r : DirPtr} (member : r ∈ s.dirs) {page : VPage}
    (below : page.dir < USER_DIRS) (present : (pte s r page).present = true) :
    Pmm.used s.bitmap (pte s r page).frame = true := by
  apply h.used
  rw [h.page_owner member below present]
  exact Owner.noConfusion

theorem FreshPages.unshared {pages : VPage → Prop} (fresh : FreshPages s pages s')
    (h : Owned s own) {r : DirPtr} (member : r ∈ s.dirs) {page : VPage}
    (below : page.dir < USER_DIRS) (inside : pages page) (kept : pte s' r page = pte s r page) :
    ¬SharesPage s' s.active r page := by
  intro shares
  have free := (fresh ⟨page, 0#10⟩ below inside).2.1
  rw [SharesPage, kept] at shares
  have marked := h.page_used member below shares.2.1
  rw [← shares.2.2] at marked
  exact Bool.false_ne_true (free.symm.trans marked)

theorem Remapped.solitary {pages : VPage → Prop} (x : Remapped s pages s')
    (fresh : FreshPages s pages s') (dirs : KeptDirs s s') (h : Owned s own) (member : q ∈ s.dirs)
    (alone : Solitary s q) : Solitary s' q := by
  have apart {r : DirPtr} (old : r ∈ s.dirs) (far : r ≠ s.active) (either : r = q ∨ s.active = q)
      {i : Index} (below : i < USER_DIRS) : ¬SharesTable s s.active r i := by
    rcases either with rfl | rfl
    · exact fun shares => (alone s.active h.active (Ne.symm far)).1 i below shares.symm
    · exact (alone r old far).1 i below
  have kept {r : DirPtr} (old : r ∈ s.dirs) (far : r ≠ s.active) (either : r = q ∨ s.active = q)
      {p : VPage} (below : p.dir < USER_DIRS) : pte s' r p = pte s r p :=
    x.ptes r old p below fun _ => ⟨far, apart old far either below⟩
  -- the active process against another that is kept
  have active_apart {r : DirPtr} (old : r ∈ s.dirs) (far : r ≠ s.active)
      (either : r = q ∨ s.active = q) {p : VPage} (below : p.dir < USER_DIRS) :
      ¬SharesPage s' s.active r p := by
    by_cases inside : pages p
    · exact fresh.unshared h old below inside (kept old far either below)
    · intro shares
      rw [SharesPage, kept old far either below,
        x.ptes s.active h.active p below fun new => absurd new inside] at shares
      rcases either with rfl | rfl
      · exact (alone s.active h.active (Ne.symm far)).2 p below (SharesPage.symm shares)
      · exact (alone r old far).2 p below shares
  intro r old other
  rw [x.dirs] at old
  refine ⟨fun i below shares => ?_, fun p below shares => ?_⟩
  · by_cases mine : q = s.active
    · subst mine
      exact apart old other (.inr rfl) below (x.tables r old other i below shares)
    · by_cases theirs : r = s.active
      · subst theirs
        exact apart member mine (.inl rfl) below (x.tables q member mine i below shares.symm)
      · rw [SharesTable, dirs q member i (.inl mine), dirs r old i (.inl theirs)] at shares
        exact (alone r old other).1 i below shares
  · by_cases mine : q = s.active
    · subst mine
      exact active_apart old other (.inr rfl) below shares
    · by_cases theirs : r = s.active
      · subst theirs
        exact active_apart member mine (.inl rfl) below shares.symm
      · by_cases moved : pages p ∧ SharesTable s s.active r p.dir
        · -- whoever has the table has the new page
          have table := moved.2
          have active_dir := dirs s.active h.active p.dir (.inr table.1)
          have r_dir := dirs r old p.dir (.inl theirs)
          have r_entry : pte s' r p = pte s' s.active p := by
            rw [pte_present p (r_dir ▸ table.2.1), pte_present p (active_dir ▸ table.1), r_dir,
              active_dir, table.2.2]
          rw [SharesPage, r_entry] at shares
          exact active_apart member mine (.inl rfl) below
            ⟨shares.2.1, shares.1, shares.2.2.symm⟩
        · rw [SharesPage, kept member mine (.inl rfl) below,
            x.ptes r old p below fun inside => ⟨theirs, fun table => moved ⟨inside, table⟩⟩] at shares
          exact (alone r old other).2 p below shares

theorem Execed.solitary {size : BitVec 32} (x : Execed s size s') (h : Owned s own) :
    Solitary s' s.active := by
  intro r old other
  rw [x.dirs] at old
  refine ⟨fun i below => x.tables r old other i below, fun p below shares => ?_⟩
  by_cases image : Image size p
  · exact x.fresh.unshared h old below image (x.ptes r old other p below) shares
  · exact Bool.false_ne_true ((x.absent p below image).symm.trans shares.1)

theorem Execed.solitary_other {size : BitVec 32} (x : Execed s size s') (h : Owned s own)
    (member : q ∈ s.dirs) (mine : q ≠ s.active) (alone : Solitary s q) : Solitary s' q := by
  have fresh := x.solitary h
  intro r old other
  by_cases theirs : r = s.active
  · subst theirs
    rcases fresh q (x.dirs.symm ▸ member) mine with ⟨tables, pages⟩
    exact ⟨fun i below shares => tables i below shares.symm,
      fun p below shares => pages p below shares.symm⟩
  · rw [x.dirs] at old
    rcases alone r old other with ⟨tables, pages⟩
    refine ⟨fun i below => ?_, fun p below => ?_⟩
    · rw [SharesTable, x.pdes q member mine, x.pdes r old theirs]
      exact tables i below
    · rw [SharesPage, x.ptes q member mine p below, x.ptes r old theirs p below]
      exact pages p below

theorem Forked.solitary {k : Index} {own' : Owners} (f : Forked s k t own') (h : Owned s own)
    (member : q ∈ s.dirs) (mine : q ≠ s.active) (alone : Solitary s q) :
    Solitary { t with dirs := t.dirs ++ [.heap k] } q := by
  have kept : Solitary t q := alone.congr member f.background.sameFrames
  have parent := kept s.active (f.background.dirs.symm ▸ h.active) (Ne.symm mine)
  intro r old other
  rcases List.mem_append.mp old with old | new
  · exact kept r old other
  · cases List.mem_singleton.mp new
    refine ⟨fun i below shares => ?_, fun p below shares => ?_⟩
    · have early : i ≠ 1023#10 := by
        simp only [USER_DIRS] at below
        bv_omega
      have entry : pde t (.heap k) i = pde t s.active i &&& 0xFFFFFFFD#32 := by
        rw [f.background.pdes s.active h.active]
        exact f.copied i early
      have theirs : SharesTable t q (.heap k) i := shares
      rw [SharesTable, entry, dropWrite_present, dropWrite_frame] at theirs
      exact parent.1 i below theirs
    · have entry : pte t (.heap k) p = pte t s.active p := by
        rw [f.pte_child h below, f.background.ptes s.active h.active p below]
      have theirs : SharesPage t q (.heap k) p := shares
      rw [SharesPage, entry] at theirs
      exact parent.2 p below theirs

end Solitary

/-- A view with words put on top of it, one after the other. -/
def overlay : List (VAddr × Word) → (VAddr → Option Word) → VAddr → Option Word
  | [], view => view
  | (v, w) :: rest, view => overlay rest fun v' => if v' = v then some w else view v'

section Views

variable {q : DirPtr}

/-- The process has what it had. -/
structure Undisturbed (s : State) (q : DirPtr) (s' : State) : Prop where
  member : q ∈ s'.dirs
  alone : Solitary s' q
  view : ∀ v, userLoad s' q v = userLoad s q v

theorem Background.undisturbed {own' : Owners} (b : Background s s') (h : Owned s own)
    (h' : Owned s' own') (member : q ∈ s.dirs) (alone : Solitary s q) : Undisturbed s q s' where
  member := b.dirs.symm ▸ member
  alone := alone.congr member b.sameFrames
  view v := by
    apply userLoad_congr h h' member (b.dirs.symm ▸ member)
    · intro below
      rw [b.ptes q member v.toVPage below]
    · exact b.words q member v

/-- A word is stored: it is seen by the process that is active. -/
structure Seen (s : State) (q : DirPtr) (v : VAddr) (w : Word) (s' : State) : Prop where
  member : q ∈ s'.dirs
  alone : Solitary s' q
  view : ∀ v', userLoad s' q v' = if q = s.active ∧ v' = v then some w else userLoad s q v'

theorem Owned.write_seen (h : Owned s own) {v : VAddr} (below : v.dir < USER_DIRS)
    (present : (pte s s.active v.toVPage).present = true) (w : Word) (member : q ∈ s.dirs)
    (alone : Solitary s q) :
    Seen s q v w (s.write (pte s s.active v.toVPage).frame v.word w) := by
  have stored := h.stored below present w
  refine ⟨member, alone.congr member (h.write_sameFrames below present w), fun v' => ?_⟩
  rcases stored.views h below present v' with ⟨mine, theirs⟩
  by_cases active : q = s.active
  · subst active
    rw [mine]
    exact if_congr (and_iff_right rfl).symm rfl rfl
  · rw [if_neg fun both => active both.1]
    refine theirs q member fun shares => ?_
    exact (alone s.active h.active (Ne.symm active)).2 _ below shares.symm

theorem kernelStore_seen (h : Owned s own) {v : VAddr} {w : Word}
    (taken : kernelStore s v w = some s') (member : q ∈ s.dirs) (alone : Solitary s q) :
    Seen s q v w s' := by
  rcases kernelStore_stored h taken with ⟨below, present, _⟩
  rw [kernelStore_write h below present] at taken
  cases taken
  exact h.write_seen below present w member alone

/-- A store of user mode writes to a page that is present, at once or after copy on write. -/
theorem userStore_write (h : Owned s own) {v : VAddr} {w : Word}
    (taken : userStore s v w = some s') :
    v.dir < USER_DIRS ∧ (pte s s.active v.toVPage).present = true ∧
      ∃ t, (t = s ∨ copyOnWrite s v.toVPage = some t) ∧
        s' = t.write (pte t t.active v.toVPage).frame v.word w := by
  rcases userStore_cases h taken with ⟨below, present, _⟩
  refine ⟨below, present, ?_⟩
  simp only [userStore, userWrite_eq h, present, below, if_true, Option.bind_eq_bind,
    Option.bind_some] at taken
  split at taken
  · exact ⟨s, .inl rfl, (Option.some.inj taken).symm⟩
  · rcases Option.bind_eq_some_iff.mp taken with ⟨t, split, rest⟩
    have x := copyOnWrite_split h below present split
    rcases x.owned with ⟨own', owned, _⟩
    have present' : (pte t t.active v.toVPage).present = true := by
      rw [x.active, x.present _ h.active _ below, present]
    rw [userWrite_eq owned, if_pos present'] at rest
    simp only [Option.bind_some] at rest
    split at rest
    · exact ⟨t, .inr split, (Option.some.inj rest).symm⟩
    · cases rest

theorem userStore_seen (h : Owned s own) {v : VAddr} {w : Word}
    (taken : userStore s v w = some s') (member : q ∈ s.dirs) (alone : Solitary s q) :
    Seen s q v w s' := by
  rcases userStore_write h taken with ⟨below, present, t, rfl | split, rfl⟩
  · exact h.write_seen below present w member alone
  · have x := copyOnWrite_split h below present split
    rcases x.owned with ⟨own', owned, _⟩
    have present' : (pte t t.active v.toVPage).present = true := by
      rw [x.active, x.present _ h.active _ below, present]
    have seen := owned.write_seen below present' w (x.dirs.symm ▸ member)
      (copyOnWrite_solitary h below present split member alone)
    refine ⟨seen.member, seen.alone, fun v' => ?_⟩
    rw [seen.view v', x.active, x.toUnseen.userLoad h owned member]

theorem mmap_undisturbed (h : Owned s own) {hint length : BitVec 32} {flags : BitVec 8}
    (range : UserRange hint length flags) (taken : mmap s hint length flags = some s')
    (member : q ∈ s.dirs) (alone : Solitary s q) (mine : q ≠ s.active) : Undisturbed s q s' := by
  rcases mmap_remapped h range taken with ⟨⟨own', owned, _⟩, x, fresh⟩
  have apart {i : Index} (below : i < USER_DIRS) : ¬SharesTable s s.active q i := fun shares =>
    (alone s.active h.active (Ne.symm mine)).1 i below shares.symm
  refine ⟨x.dirs.symm ▸ member, x.solitary fresh (mmap_keptDirs h range taken) h member alone,
    fun v => ?_⟩
  apply userLoad_congr h owned member (x.dirs.symm ▸ member)
  · intro below
    rw [x.ptes q member v.toVPage below fun _ => ⟨mine, apart below⟩]
  · intro below
    exact x.words q member v below fun _ => ⟨mine, apart below⟩

theorem mmap_own (h : Owned s own) {hint length : BitVec 32} {flags : BitVec 8}
    (range : UserRange hint length flags) (taken : mmap s hint length flags = some s')
    (alone : Solitary s s.active) :
    s.active ∈ s'.dirs ∧ Solitary s' s.active ∧ ∀ v, userLoad s' s.active v =
      if InRange hint length flags v.toVPage then some (s.mem (pte s' s.active v.toVPage).frame v.word)
      else userLoad s s.active v := by
  rcases mmap_remapped h range taken with ⟨⟨own', owned, _⟩, x, fresh⟩
  have member : s.active ∈ s'.dirs := x.dirs.symm ▸ h.active
  refine ⟨member, x.solitary fresh (mmap_keptDirs h range taken) h h.active alone, fun v => ?_⟩
  split
  · rename_i inside
    have below : v.dir < USER_DIRS := by
      rcases inside with ⟨i, small, page⟩
      rw [page]
      exact decode_below _ (range i small)
    rcases fresh v below inside with ⟨present, _, content⟩
    rw [owned.userLoad_eq member, if_pos ⟨below, present⟩, content]
  · rename_i outside
    apply userLoad_congr h owned h.active member
    · intro below
      rw [x.ptes _ h.active _ below fun inside => absurd inside outside]
    · intro below
      exact x.words _ h.active v below fun inside => absurd inside outside

theorem copyIn_seen (h : Owned s own) {program : List (VAddr × Word)}
    (taken : copyIn program s = some s') (member : q ∈ s.dirs) (alone : Solitary s q) :
    SameFrames s s' ∧ ∀ v, userLoad s' q v =
      if q = s.active then overlay program (userLoad s q) v else userLoad s q v := by
  induction program generalizing s own with
  | nil =>
      cases taken
      refine ⟨⟨rfl, fun _ _ _ => rfl, fun _ _ _ _ => rfl, fun _ _ _ _ => rfl⟩, fun v => ?_⟩
      rw [overlay, ite_self]
  | cons x rest ih =>
      rcases Option.bind_eq_some_iff.mp taken with ⟨t, stored, onward⟩
      have seen := kernelStore_seen h stored member alone
      rcases kernelStore_stored h stored with ⟨below, present, first⟩
      rcases first.owned with ⟨own', owned, _⟩
      have same : SameFrames s t := by
        rw [kernelStore_write h below present] at stored
        cases stored
        exact h.write_sameFrames below present x.2
      rcases ih owned onward seen.member seen.alone with ⟨later, view⟩
      refine ⟨same.trans later, fun v => ?_⟩
      rw [view v, first.active]
      split
      · rename_i mine
        rw [overlay]
        congr 1
        funext v'
        rw [seen.view v']
        exact if_congr (and_iff_right mine) rfl rfl
      · rename_i mine
        rw [seen.view v, if_neg fun both => mine both.1]

end Views

section Watch

variable {q : DirPtr} {c : Call}

instance (size : BitVec 32) (page : VPage) : Decidable (Image size page) :=
  inferInstanceAs (Decidable (InRange 0x0000#32 size 1#8 page ∨ InRange 0xbffff000#32 4096#32 1#8 page))

/-- What the process that makes the call should find afterwards. A page that is new holds what its
frame held before. -/
def viewAfter (s s' : State) (view : VAddr → Option Word) : Call → VAddr → Option Word
  | .operation (.memory (.store v w)), v' | .operation (.memory (.read v w)), v' =>
      if v' = v then some w else view v'
  | .operation (.memory (.mmap hint length flags)), v' =>
      if InRange hint length flags v'.toVPage then
        some (s.mem (pte s' s.active v'.toVPage).frame v'.word)
      else view v'
  | .exec size program, v' =>
      overlay program (fun v' =>
        if Image size v'.toVPage then some (s.mem (pte s' s.active v'.toVPage).frame v'.word)
        else none) v'
  | _, v' => view v'

/-- What a call does to an address space that is nobody else's. -/
structure Watched (s : State) (q : DirPtr) (c : Call) (s' : State) : Prop where
  member : q ∈ s'.dirs
  alone : Solitary s' q
  view : ∀ v, userLoad s' q v =
    if s.active = q then viewAfter s s' (userLoad s q) c v else userLoad s q v

theorem Undisturbed.watched (x : Undisturbed s q s')
    (plain : s.active = q → ∀ v, viewAfter s s' (userLoad s q) c v = userLoad s q v) :
    Watched s q c s' := by
  refine ⟨x.member, x.alone, fun v => ?_⟩
  rw [x.view v]
  split
  · rename_i mine
    exact (plain mine v).symm
  · rfl

theorem Seen.watched {v : VAddr} {w : Word} (x : Seen s q v w s')
    (stores : ∀ v', viewAfter s s' (userLoad s q) c v' = if v' = v then some w else userLoad s q v') :
    Watched s q c s' := by
  refine ⟨x.member, x.alone, fun v' => ?_⟩
  rw [x.view v', stores v']
  by_cases mine : s.active = q
  · rw [if_pos mine]
    exact if_congr (and_iff_right mine.symm) rfl rfl
  · rw [if_neg mine, if_neg fun both => mine both.1.symm]

theorem mmiomalloc_undisturbed (h : Owned s own) {paddr : Word} {k : Index}
    (taken : mmiomalloc s paddr = some (k, s')) {own' : Owners} (h' : Owned s' own')
    (member : q ∈ s.dirs) (alone : Solitary s q) : Undisturbed s q s' := by
  rcases mmiomalloc_eq h.heapTable taken with ⟨t, allocated, rfl⟩
  rcases kmalloc_fresh h allocated with ⟨_, fresh⟩
  have free : .heap k ∉ t.dirs := fresh.background.dirs ▸ h.not_dir fresh.idle
  have b := fresh.background.trans
    (fresh.owned.background_writeHeap k (paddr + (t.slot k &&& 0x00000FFF#32)) free)
  have same := b.sameFrames
  refine ⟨b.dirs.symm ▸ member,
    alone.congr member ⟨same.dirs, same.pdes, same.present, same.frames⟩, fun v => ?_⟩
  apply userLoad_congr h h' member (b.dirs.symm ▸ member)
  · exact fun below => same.present q member v.toVPage below
  · exact fun below => b.words q member v below

theorem step_watched (h : Owned s own) {e : Event} (ok : Reserved s e)
    (noFork : s.active = q → ∀ fds, e ≠ .fork fds) (taken : step s e = some s')
    (member : q ∈ s.dirs) (alone : Solitary s q) : Watched s q (.operation (.memory e)) s' := by
  rcases step_owned h ok taken with ⟨own', h', _⟩
  cases e with
  | kmalloc =>
      rcases Option.map_eq_some_iff.mp taken with ⟨⟨k, t⟩, allocated, rfl⟩
      rcases kmalloc_fresh h allocated with ⟨_, fresh⟩
      have x := fresh.background.undisturbed h fresh.owned member alone
      exact Undisturbed.watched ⟨x.member, x.alone, x.view⟩ fun _ _ => rfl
  | kfree k =>
      simp only [step] at taken
      split at taken
      · rename_i held
        have owned : Owned { s with live := s.live.filter (· ≠ k) } own := by
          refine { h with live := ?_ }
          intro k' inside
          exact h.live k' (List.mem_filter.mp inside).1
        have b := owned.background_writeHeap k (s.slot k &&& 0xFFFFF7FF#32) (h.live k held).2.2
        rw [kfree_eq owned.heapTable] at taken
        cases taken
        have x := b.undisturbed owned h' member alone
        exact Undisturbed.watched ⟨x.member, x.alone, x.view⟩ fun _ _ => rfl
      · cases taken
  | mmiomalloc paddr =>
      rcases Option.map_eq_some_iff.mp taken with ⟨⟨k, t⟩, allocated, rfl⟩
      rcases ok with ⟨aligned, marked, unmapped⟩
      rcases mmiomalloc_owned h aligned marked unmapped allocated with ⟨⟨_, owned, _⟩, _⟩
      have x := mmiomalloc_undisturbed h allocated owned member alone
      exact Undisturbed.watched ⟨x.member, x.alone, x.view⟩ fun _ _ => rfl
  | mmap hint length flags =>
      by_cases mine : s.active = q
      · subst mine
        rcases mmap_own h ok taken alone with ⟨member', alone', view⟩
        refine ⟨member', alone', fun v => ?_⟩
        rw [if_pos rfl, view v]
        rfl
      · exact (mmap_undisturbed h ok taken member alone (Ne.symm mine)).watched
          fun same => absurd same mine
  | store v w => exact (userStore_seen h taken member alone).watched fun _ => rfl
  | read v w => exact (kernelStore_seen h taken member alone).watched fun _ => rfl
  | fork fds =>
      have mine : q ≠ s.active := fun same => noFork same.symm fds rfl
      rcases fork_forked h taken with ⟨k, t, own_t, forked, _, rfl⟩
      have x := forked.background.undisturbed h forked.owned member alone
      refine Undisturbed.watched ⟨List.mem_append_left _ x.member,
        forked.solitary h member mine alone, fun v => ?_⟩ fun same => absurd same.symm mine
      rw [← x.view v]
      rfl
  | scheduler p =>
      simp only [step] at taken
      split at taken
      · rename_i there
        rw [(switch_owned h there taken).2]
        exact Undisturbed.watched ⟨member, alone, fun _ => rfl⟩ fun _ _ => rfl
      · cases taken
  | fill k content =>
      simp only [step] at taken
      split at taken
      · rename_i held
        rcases h.live k held with ⟨inUse, ordinary, apart⟩
        have present := h.inUse k inUse
        rw [pageFrame_heap h.heapTable, if_pos present] at taken
        cases taken
        exact ((h.fill ordinary present apart content).2.1.undisturbed h h' member alone).watched
          fun _ _ => rfl
      · cases taken

theorem operate_watched (h : Owned s own) {op : Operation} (ok : Orderly s op)
    (noFork : s.active = q → ∀ fds, op ≠ .memory (.fork fds)) (taken : operate s op = some s')
    (member : q ∈ s.dirs) (alone : Solitary s q) : Watched s q (.operation op) s' := by
  cases op with
  | memory e =>
      refine step_watched h ok (fun mine fds same => ?_) taken member alone
      exact noFork mine fds (congrArg Operation.memory same)
  | device paddr =>
      rcases Option.map_eq_some_iff.mp taken with ⟨⟨k, t⟩, allocated, rfl⟩
      rcases mmiomalloc_device h ok allocated with ⟨_, owned, _⟩
      exact (mmiomalloc_undisturbed h allocated owned member alone).watched fun _ _ => rfl

/-- `exec` makes its own address space the process's own: the program, over what the frames
held. -/
theorem exec_own (h : Owned s own) {size : BitVec 32} {program : List (VAddr × Word)}
    (proper : Proper size program) (taken : exec s size program = some s') :
    Watched s s.active (.exec size program) s' := by
  rcases Option.bind_eq_some_iff.mp taken with ⟨t, fresh, read⟩
  have x := freshSpace_execed h proper.1 fresh
  rcases x.owned with ⟨own', owned⟩
  have member : s.active ∈ t.dirs := x.dirs.symm ▸ h.active
  rcases copyIn_seen owned read member (x.solitary h) with ⟨same, view⟩
  refine ⟨same.dirs.symm ▸ member, (x.solitary h).congr member same, fun v => ?_⟩
  rw [view v, if_pos x.active.symm, if_pos rfl, viewAfter]
  congr 1
  funext v'
  rw [owned.userLoad_eq member]
  by_cases image : Image size v'.toVPage
  · have below := image.below proper.1
    rcases x.fresh v' below image with ⟨present, _, content⟩
    rw [if_pos ⟨below, present⟩, if_pos image, content, same.frames _ member _ below]
  · rw [if_neg image, if_neg]
    rintro ⟨below, present⟩
    exact Bool.false_ne_true ((x.absent _ below image).symm.trans present)

theorem exec_other (h : Owned s own) {size : BitVec 32} {program : List (VAddr × Word)}
    (proper : Proper size program) (taken : exec s size program = some s') (member : q ∈ s.dirs)
    (mine : q ≠ s.active) (alone : Solitary s q) : Undisturbed s q s' := by
  rcases Option.bind_eq_some_iff.mp taken with ⟨t, fresh, read⟩
  have x := freshSpace_execed h proper.1 fresh
  rcases x.owned with ⟨own', owned⟩
  have member' : q ∈ t.dirs := x.dirs.symm ▸ member
  have alone' := x.solitary_other h member mine alone
  rcases copyIn_seen owned read member' alone' with ⟨same, view⟩
  refine ⟨same.dirs.symm ▸ member', alone'.congr member' same, fun v => ?_⟩
  rw [view v, if_neg fun active => mine (active.trans x.active)]
  apply userLoad_congr h owned member member'
  · intro below
    rw [x.ptes q member mine v.toVPage below]
  · exact x.words q member mine v

theorem call_watched (h : Owned s own) (ok : c.Allowed s)
    (noFork : s.active = q → ∀ fds, c ≠ .operation (.memory (.fork fds))) (taken : call s c = some s')
    (member : q ∈ s.dirs) (alone : Solitary s q) : Watched s q c s' := by
  cases c with
  | operation op =>
      refine operate_watched h ok (fun mine fds same => ?_) taken member alone
      exact noFork mine fds (congrArg Call.operation same)
  | exec size program =>
      by_cases mine : s.active = q
      · subst mine
        exact exec_own h ok taken
      · exact (exec_other h ok taken member (Ne.symm mine) alone).watched fun same => absurd same mine

/-- The machine, and what the process with the page directory `dir` should find in its memory, by
its own calls. -/
structure Watch where
  state : State
  dir : DirPtr
  view : VAddr → Option Word

def Watch.call (x : Watch) (c : Call) : Option Watch := do
  let s ← Vmm.call x.state c
  return { x with
    state := s
    view := if x.state.active = x.dir then viewAfter x.state s x.view c else x.view }

/-- Any call of any process, but for a fork of this one. -/
def Watch.Allowed (x : Watch) (c : Call) : Prop :=
  c.Allowed x.state ∧ (x.state.active = x.dir → ∀ fds, c ≠ .operation (.memory (.fork fds)))

/-- The process right after `exec` in `s`. -/
def launched (s s' : State) (size : BitVec 32) (program : List (VAddr × Word)) : Watch :=
  ⟨s', s.active, viewAfter s s' (fun _ => none) (.exec size program)⟩

structure Guarded (x : Watch) : Prop where
  owned : ∃ own, Owned x.state own
  member : x.dir ∈ x.state.dirs
  alone : Solitary x.state x.dir
  view : ∀ v, userLoad x.state x.dir v = x.view v

theorem Watch.call_guarded {x y : Watch} (g : Guarded x) (ok : x.Allowed c)
    (taken : x.call c = some y) : Guarded y := by
  rcases g.owned with ⟨own, h⟩
  rcases Option.bind_eq_some_iff.mp taken with ⟨s, called, made⟩
  cases made
  have w := call_watched h ok.1 ok.2 called g.member g.alone
  refine ⟨call_owned h ok.1 called, w.member, w.alone, fun v => ?_⟩
  rw [w.view v, show userLoad x.state x.dir = x.view from funext g.view]
  dsimp only
  split
  · rfl
  · rfl

theorem reachable_call_owned (ram : Mem) (run : Run call (fun s c => c.Allowed s) (initVmm ram) s) :
    ∃ own, Owned s own := by
  refine run.invariant (fun s => ∃ own, Owned s own) ⟨bootOwners, initVmm_owned ram⟩ ?_
  rintro t c u ⟨own, h⟩ ok taken
  exact call_owned h ok taken

theorem exec_dirs (h : Owned s own) {size : BitVec 32} {program : List (VAddr × Word)}
    (proper : Proper size program) (taken : exec s size program = some s') : s'.dirs = s.dirs := by
  rcases Option.bind_eq_some_iff.mp taken with ⟨t, fresh, read⟩
  have x := freshSpace_execed h proper.1 fresh
  rcases x.owned with ⟨own', owned⟩
  have member : s.active ∈ t.dirs := x.dirs.symm ▸ h.active
  exact (copyIn_seen owned read member (x.solitary h)).1.dirs.trans x.dirs

theorem card_le_freeFrames {bitmap : Bitmap} (frames : Finset Frame)
    (free : ∀ f ∈ frames, used bitmap f = false) : frames.card ≤ freeFrames bitmap := by
  rw [freeFrames, freeSlots]
  refine Finset.card_le_card_of_injOn BitVec.toNat ?_ fun f _ g _ same => BitVec.eq_of_toNat_eq same
  intro f member
  refine Finset.mem_filter.mpr ⟨Finset.mem_range.mpr f.isLt, ?_⟩
  rw [usedNumber, BitVec.ofNat_toNat, BitVec.setWidth_eq]
  exact free f member

theorem operations_run (run : Run operate Orderly s s') :
    Run call (fun s c => c.Allowed s) s s' := by
  induction run with
  | refl => exact .refl
  | tail _ allowed taken ih => exact ih.tail (a := .operation _) allowed taken

end Watch

end TitorOS.Barrel.Vmm
