import TitorOS.Barrel.Paging

/-! A process and the child it forks, each acting in its own address space. -/

namespace TitorOS.Barrel.Vmm

open TitorOS.Lib TitorOS.Lib.Word TitorOS.Barrel.Pmm

/-- A load in user mode under the directory of `q`. -/
def userLoad (s : State) (q : DirPtr) (v : VAddr) : Option Word :=
  let pde := s.mem (q.frame s) v.dir
  if pde.present && pde.user then
    let pte := s.mem pde.frame v.table
    if pte.present && pte.user then some (s.mem pte.frame v.word) else none
  else none

inductive Party where
  | parent
  | child
  deriving DecidableEq

def Party.other : Party → Party
  | .parent => .child
  | .child => .parent

inductive Action where
  | store (v : VAddr) (w : Word)
  | mmap (hint length : BitVec 32) (flags : BitVec 8)
  | read (v : VAddr) (w : Word)

/-- `atFork` is the memory at the fork; `expected` what each of the two should find in its
own address space, by its own actions since. -/
structure Family where
  state : State
  atFork : Mem
  dir : Party → DirPtr
  expected : Party → VAddr → Option Word

def perform (s : State) : Action → Option State
  | .store v w => userStore s v w
  | .mmap hint length flags => mmap s hint length flags
  | .read v w => kernelStore s v w

instance (hint length : BitVec 32) (flags : BitVec 8) (page : VPage) :
    Decidable (InRange hint length flags page) :=
  inferInstanceAs (Decidable (∃ i, i < noPages length ∧ page = mmapPage (mmapBase hint flags) i))

/-- A page mapped since the fork holds what its frame held at the fork. -/
def expect (atFork : Mem) (s : State) (q : DirPtr) (view : VAddr → Option Word) :
    Action → VAddr → Option Word
  | .store v w, v' | .read v w, v' => if v' = v then some w else view v'
  | .mmap hint length flags, v' =>
      if InRange hint length flags v'.toVPage then
        some (atFork (pte s q v'.toVPage).frame v'.word)
      else view v'

def Family.act (x : Family) (a : Party × Action) : Option Family := do
  let s ← switch x.state (x.dir a.1)
  let s ← perform s a.2
  return { x with
    state := s
    expected := Function.update x.expected a.1
      (expect x.atFork s (x.dir a.1) (x.expected a.1) a.2) }

/-- The two right after `fork` in `s`: both have what the parent had. -/
def family (s s' : State) (child : DirPtr) : Family where
  state := s'
  atFork := s'.mem
  dir := fun
    | .parent => s.active
    | .child => child
  expected := fun _ v => userLoad s s.active v

def SharesPage (s : State) (p q : DirPtr) (page : VPage) : Prop :=
  (pte s p page).present = true ∧ (pte s q page).present = true ∧
    (pte s p page).frame = (pte s q page).frame

/-- What the action writes to is not shared, or is split before it is written to. -/
def Unshared (s : State) (mine theirs : DirPtr) : Action → Prop
  | .store v _ => (pde s mine v.dir).writable = true →
      ¬SharesTable s mine theirs v.dir ∧
        ((pte s mine v.toVPage).writable = true → ¬SharesPage s mine theirs v.toVPage)
  | .mmap hint length flags => UserRange hint length flags ∧
      ∀ page, InRange hint length flags page → ¬SharesTable s mine theirs page.dir
  | .read v _ => ¬SharesPage s mine theirs v.toVPage

def Apart (x : Family) (a : Party × Action) : Prop :=
  Unshared x.state (x.dir a.1) (x.dir a.1.other) a.2

def Isolated (x : Family) : Prop :=
  ∀ p v, userLoad x.state (x.dir p) v = x.expected p v

variable {s s' : State} {own : Owners}

theorem Owned.userLoad_eq (h : Owned s own) {q : DirPtr} (member : q ∈ s.dirs) (v : VAddr) :
    userLoad s q v =
      if v.dir < USER_DIRS ∧ (pte s q v.toVPage).present = true then some (word s q v) else none := by
  have ok := h.dirs q member
  rw [userLoad, ← pde]
  cases table : (pde s q v.dir).present with
  | false => simp [pte_absent v.toVPage table, present_zero]
  | true =>
      by_cases below : v.dir < USER_DIRS
      · have user : (pde s q v.dir).user = true := ok.user v.dir below table
        simp only [user, ← pte_present v.toVPage table]
        cases present : (pte s q v.toVPage).present with
        | false => simp
        | true => simp [h.pte_user member below present, word, contents_present present, below]
      · have kernel : (pde s q v.dir).user = false :=
          ok.supervisor v.dir (by simpa [USER_DIRS] using below) table
        simp [kernel, below]

theorem userLoad_congr {own' : Owners} (h : Owned s own) (h' : Owned s' own') {q : DirPtr}
    (member : q ∈ s.dirs) (member' : q ∈ s'.dirs) {v : VAddr}
    (present : v.dir < USER_DIRS →
      (pte s' q v.toVPage).present = (pte s q v.toVPage).present)
    (same : v.dir < USER_DIRS → word s' q v = word s q v) : userLoad s' q v = userLoad s q v := by
  rw [h.userLoad_eq member, h'.userLoad_eq member']
  by_cases below : v.dir < USER_DIRS
  · rw [present below, same below]
  · simp [below]

/-- A store is seen by the process that makes it and by no one who does not have the page. -/
theorem Stored.views (h : Owned s own) {v : VAddr} {w : Word} (stored : Stored s own v w s')
    (below : v.dir < USER_DIRS) (present : (pte s s.active v.toVPage).present = true) (v' : VAddr) :
    userLoad s' s.active v' = (if v' = v then some w else userLoad s s.active v') ∧
      ∀ q ∈ s.dirs, ¬SharesPage s s.active q v.toVPage → userLoad s' q v' = userLoad s q v' := by
  rcases stored.owned with ⟨own', owned, _⟩
  have member {q : DirPtr} (old : q ∈ s.dirs) : q ∈ s'.dirs := stored.dirs.symm ▸ old
  constructor
  · by_cases here : v' = v
    · have present' : (pte s' s.active v.toVPage).present = true := by
        rw [stored.present _ h.active _ below, present]
      rw [if_pos here, owned.userLoad_eq (member h.active), here, if_pos ⟨below, present'⟩,
        stored.words _ h.active v below, if_pos ⟨rfl, present, rfl⟩]
    · rw [if_neg here]
      apply userLoad_congr h owned h.active (member h.active)
      · exact stored.present _ h.active _
      · intro user
        rw [stored.words _ h.active v' user, if_neg (fun all => here all.1)]
  · intro q old alone
    apply userLoad_congr h owned old (member old)
    · exact stored.present _ old _
    · intro user
      rw [stored.words _ old v' user, if_neg]
      intro all
      exact alone ⟨present, all.2.1, all.2.2.symm⟩

theorem Unseen.userLoad {own' : Owners} (h : Owned s own) (owned : Owned s' own') (u : Unseen s s')
    {q : DirPtr} (member : q ∈ s.dirs) (v : VAddr) : userLoad s' q v = userLoad s q v :=
  userLoad_congr h owned member (u.dirs.symm ▸ member) (u.present q member _) (u.words q member v)

/-- What one action of the active process does to both views. -/
structure Acted (s : State) (a : Action) (theirs : DirPtr) (atFork : Mem) (s' : State) : Prop where
  owned : ∃ own', Owned s' own'
  dirs : s'.dirs = s.dirs
  spared : Spared s s'
  mine : ∀ v, userLoad s' s.active v =
    expect atFork s' s.active (fun v => userLoad s s.active v) a v
  unseen : ∀ v, userLoad s' theirs v = userLoad s theirs v

theorem Stored.acted (h : Owned s own) {v : VAddr} {w : Word} (stored : Stored s own v w s')
    (below : v.dir < USER_DIRS) (present : (pte s s.active v.toVPage).present = true)
    {theirs : DirPtr} (member : theirs ∈ s.dirs)
    (alone : ¬SharesPage s s.active theirs v.toVPage) (atFork : Mem) :
    Acted s (.store v w) theirs atFork s' := by
  rcases stored.owned with ⟨own', owned, _⟩
  refine ⟨⟨own', owned⟩, stored.dirs, stored.spared, ?_, ?_⟩
  · intro v'
    exact (stored.views h below present v').1
  · intro v'
    exact (stored.views h below present v').2 theirs member alone

theorem store_acted (h : Owned s own) {v : VAddr} {w : Word} {theirs : DirPtr}
    (member : theirs ∈ s.dirs) (other : theirs ≠ s.active) (atFork : Mem)
    (ok : Unshared s s.active theirs (.store v w)) (taken : userStore s v w = some s') :
    Acted s (.store v w) theirs atFork s' := by
  rcases userStore_cases h taken with
    ⟨below, present, ⟨dir, page, stored⟩ | ⟨t, own', owned, _, split, stored⟩⟩
  · exact stored.acted h below present member ((ok dir).2 page) atFork
  · have alone : ¬SharesPage t t.active theirs v.toVPage := by
      rw [split.active]
      intro ⟨_, mapped, same⟩
      rcases split.shared theirs member other mapped same.symm with ⟨dir, table, frame⟩
      exact (ok dir).1 ⟨pte_pde present, table, frame.symm⟩
    have present' : (pte t t.active v.toVPage).present = true := by
      rw [split.active, split.present _ h.active _ below, present]
    have acted := stored.acted owned below present' (split.dirs ▸ member) alone atFork
    refine ⟨acted.owned, acted.dirs.trans split.dirs, split.spared.trans acted.spared, ?_, ?_⟩
    · intro v'
      rw [← split.active, acted.mine v', split.active]
      simp only [expect, split.toUnseen.userLoad h owned h.active]
    · intro v'
      rw [acted.unseen v', split.toUnseen.userLoad h owned member]

theorem mmap_acted (h : Owned s own) {hint length : BitVec 32} {flags : BitVec 8}
    {theirs : DirPtr} (member : theirs ∈ s.dirs) (other : theirs ≠ s.active) {atFork : Mem}
    (spare : ∀ f, used s.bitmap f = false → s.mem f = atFork f)
    (ok : Unshared s s.active theirs (.mmap hint length flags))
    (taken : mmap s hint length flags = some s') :
    Acted s (.mmap hint length flags) theirs atFork s' := by
  rcases mmap_remapped h ok.1 taken with ⟨⟨own', owned, _⟩, remapped, fresh⟩
  have member' {q : DirPtr} (old : q ∈ s.dirs) : q ∈ s'.dirs := remapped.dirs.symm ▸ old
  refine ⟨⟨own', owned⟩, remapped.dirs, remapped.spared, ?_, ?_⟩
  · intro v
    simp only [expect]
    split
    · rename_i inside
      have below : v.dir < USER_DIRS := by
        rcases inside with ⟨i, small, page⟩
        rw [page]
        exact decode_below _ (ok.1 i small)
      rcases fresh v below inside with ⟨present, unused, content⟩
      rw [owned.userLoad_eq (member' h.active), if_pos ⟨below, present⟩, content, spare _ unused]
    · rename_i outside
      apply userLoad_congr h owned h.active (member' h.active)
      · intro below
        rw [remapped.ptes _ h.active _ below (fun inside => absurd inside outside)]
      · intro below
        exact remapped.words _ h.active v below (fun inside => absurd inside outside)
  · intro v
    apply userLoad_congr h owned member (member' member)
    · intro below
      rw [remapped.ptes _ member _ below (fun inside => ⟨other, ok.2 _ inside⟩)]
    · intro below
      exact remapped.words _ member v below (fun inside => ⟨other, ok.2 _ inside⟩)

theorem perform_acted (h : Owned s own) {a : Action} {theirs : DirPtr}
    (member : theirs ∈ s.dirs) (other : theirs ≠ s.active) {atFork : Mem}
    (spare : ∀ f, used s.bitmap f = false → s.mem f = atFork f)
    (ok : Unshared s s.active theirs a) (taken : perform s a = some s') :
    Acted s a theirs atFork s' := by
  cases a with
  | store v w => exact store_acted h member other atFork ok taken
  | mmap hint length flags => exact mmap_acted h member other spare ok taken
  | read v w =>
      rcases kernelStore_stored h taken with ⟨below, present, stored⟩
      have acted := stored.acted h below present member ok atFork
      exact { acted with }

structure Separate (x : Family) : Prop where
  owned : ∃ own, Owned x.state own
  member : ∀ p, x.dir p ∈ x.state.dirs
  distinct : ∀ p : Party, x.dir p.other ≠ x.dir p
  spare : ∀ f, used x.state.bitmap f = false → x.state.mem f = x.atFork f
  isolated : Isolated x

theorem act_separate {x y : Family} {a : Party × Action} (h : Separate x) (ok : Apart x a)
    (taken : x.act a = some y) : Separate y := by
  rcases a with ⟨p, a⟩
  simp only [Family.act, Option.bind_eq_bind, Option.bind_eq_some_iff, Option.pure_def,
    Option.some.injEq] at taken
  rcases taken with ⟨s, switched, s', performed, rfl⟩
  rcases h.owned with ⟨own, owned⟩
  rcases switch_owned owned (h.member p) switched with ⟨s_owned, rfl⟩
  have acted := perform_acted s_owned (h.member p.other) (h.distinct p) h.spare ok performed
  refine ⟨acted.owned, ?_, h.distinct, ?_, ?_⟩
  · intro q
    rw [acted.dirs]
    exact h.member q
  · intro f unused
    rcases acted.spared f unused with ⟨before, same⟩
    exact same.trans (h.spare f before)
  · intro q v
    by_cases mine : q = p
    · subst mine
      have view : (fun v => userLoad x.state (x.dir q) v) = x.expected q :=
        funext (h.isolated q)
      simp only [Function.update_self, ← view]
      exact acted.mine v
    · have theirs : q = p.other := by
        cases p <;> cases q <;> first | rfl | exact absurd rfl mine
      subst theirs
      simp only [Function.update_of_ne mine, ← h.isolated p.other v]
      exact acted.unseen v

theorem Forked.pte_child {k : Index} {t : State} {own' : Owners} (h : Owned s own)
    (f : Forked s k t own') {page : VPage} (below : page.dir < USER_DIRS) :
    pte t (.heap k) page = pte s s.active page := by
  have early : page.dir ≠ 1023#10 := by
    simp only [USER_DIRS] at below
    bv_omega
  have dir : pde t (.heap k) page.dir = pde t t.active page.dir &&& 0xFFFFFFFD#32 := by
    rw [f.background.pde_active h]
    exact f.copied page.dir early
  rw [← f.background.pte_active h below, pte, dir, pte]
  simp only [contents, dropWrite_present, dropWrite_frame]

theorem Forked.word_child {k : Index} {t : State} {own' : Owners} (h : Owned s own)
    (f : Forked s k t own') {v : VAddr} (below : v.dir < USER_DIRS) :
    word t (.heap k) v = word s s.active v := by
  rw [← f.background.words _ h.active v below, word, f.pte_child h below, word,
    f.background.ptes _ h.active _ below]

theorem fork_separate (h : Owned s own) {fds : VPage} (forked : fork s fds = some s')
    {child : DirPtr} (born : s'.dirs = s.dirs ++ [child]) : Separate (family s s' child) := by
  rcases fork_forked h forked with ⟨k, t, own', f, _, rfl⟩
  have linked := f.linked h
  have same : child = .heap k := by
    have dirs : t.dirs ++ [.heap k] = s.dirs ++ [child] := born
    rw [f.background.dirs] at dirs
    exact (List.singleton_inj.mp (List.append_cancel_left dirs)).symm
  subst same
  have active : s.active ∈ t.dirs ++ [.heap k] :=
    List.mem_append_left _ (f.background.dirs.symm ▸ h.active)
  have newborn : .heap k ∈ t.dirs ++ [.heap k] := List.mem_append_right _ (List.mem_singleton.mpr rfl)
  have apart : DirPtr.heap k ≠ s.active := by
    intro equal
    exact f.apart (f.background.dirs.symm ▸ equal ▸ h.active)
  refine ⟨⟨own', linked⟩, ?_, ?_, fun _ _ => rfl, ?_⟩
  · intro p
    cases p with
    | parent => exact active
    | child => exact newborn
  · intro p
    cases p with
    | parent => exact apart
    | child => exact apart.symm
  · intro p v
    cases p with
    | parent =>
        apply userLoad_congr h linked h.active active
        · intro below
          exact congrArg Word.present (f.background.ptes _ h.active _ below)
        · exact f.background.words _ h.active v
    | child =>
        simp only [family]
        rw [h.userLoad_eq h.active, linked.userLoad_eq newborn]
        by_cases below : v.dir < USER_DIRS
        · rw [← f.pte_child h below, ← f.word_child h below]
          rfl
        · simp [below]

def sampleBoot : State :=
  { initVmm (fun _ _ => 0#32) with bitmap := fun i => if i < 64 then 0xFFFFFFFF#32 else 0#32 }

theorem initVmm_sample : initVmm (fun _ _ => 0#32) = sampleBoot := by
  simp only [sampleBoot, initVmm, initPfBitmap_eq]

def sampleAddr : VAddr := ⟨⟨64#10, 0#10⟩, 0#10⟩

/-- The registers of the NVMe controller, two pages at the top of the physical addresses, as
`init_nvme` maps them before there is any process. -/
def bootDevices : List Operation := [.device 0xFEBF0000#32, .device 0xFEBF1000#32]

/-- A descriptor table and one page of user memory. -/
def sampleParent : List Operation :=
  bootDevices ++ [.memory .kmalloc, .memory (.mmap 0#32 4096#32 0#8)]

/-- Then a fork, and a store by `p`. -/
def sampleStore (p : Party) : Option (State × State × Family) := do
  let s ← runList operate sampleBoot sampleParent
  let s' ← fork s (heapPage 2#10)
  let x ← (family s s' (.heap 5#10)).act (p, .store sampleAddr 7#32)
  return (s, s', x)

theorem bootDevices_orderly : ∀ op ∈ bootDevices, ∀ s, Orderly s op := by
  simp [bootDevices, Orderly]

theorem sampleParent_orderly : ∀ op ∈ sampleParent, ∀ s, Orderly s op := by
  have range : UserRange 0#32 4096#32 0#8 := by
    rw [UserRange]
    decide
  intro op member
  rcases List.mem_append.mp member with device | memory
  · exact bootDevices_orderly op device
  · simp only [List.mem_cons, List.not_mem_nil, or_false] at memory
    rcases memory with rfl | rfl
    · simp [Orderly, Reserved]
    · exact fun _ => range

theorem sampleStore_run {p : Party} {s s' : State} {x : Family}
    (sample : sampleStore p = some (s, s', x)) :
    Run operate Orderly (initVmm fun _ _ => 0#32) s ∧ fork s (heapPage 2#10) = some s' ∧
      (family s s' (.heap 5#10)).act (p, .store sampleAddr 7#32) = some x := by
  simp only [sampleStore, Option.bind_eq_bind, Option.bind_eq_some_iff, Option.pure_def,
    Option.some.injEq, Prod.mk.injEq] at sample
  rcases sample with ⟨_, reached, _, forked, _, acted, rfl, rfl, rfl⟩
  rw [initVmm_sample]
  exact ⟨Run.of_runList _ sampleParent_orderly reached, forked, acted⟩

end TitorOS.Barrel.Vmm
