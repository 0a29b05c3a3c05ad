import TitorOS.Barrel.Malloc

/-! What `malloc` hands out lies inside the range `init_libc` mapped, and the block
list is doubly linked, both up to the slips of `init_libc` and of the split. -/

namespace TitorOS.Barrel.Malloc

open TitorOS.Lib

/-- The `n` bytes at `p` are in the mapped range, and the descriptor before `p`
records at least that many. -/
structure Contained (mem : Mem) (p n : UInt32) : Prop where
  low : heap.toNat ≤ p.toNat
  high : p.toNat + n.toNat ≤ heap.toNat + HEAP_SIZE.toNat
  size : n.toNat ≤ recorded mem (p - 12)

/-- The request does not wrap when it is rounded up. `init_libc` counts the first
descriptor into its own block, so the last block ends twelve bytes late: a request
that is served from it leaves these out. -/
structure Encloses (mem : Mem) (n : UInt32) : Prop where
  rounds : n.toNat ≤ 2 ^ 32 - 4
  last : ∀ block, firstFit mem (roundUp n) = some block → mem (block + 4) = 0 →
    n.toNat + 12 ≤ (mem block).toNat

theorem search_found (mem : Mem) (size : UInt32) (fuel : Nat) (a b : UInt32)
    (found : search mem size fuel a = some b) : ¬ (mem b &&& 0b1 = 1 ∨ mem b < size) := by
  induction fuel generalizing a with
  | zero => cases found
  | succ fuel ih =>
      rw [search] at found
      split at found
      · split at found
        · cases found
        · exact ih _ found
      · rename_i fit
        cases found
        exact fit

theorem le_roundUp (n : UInt32) (rounds : n.toNat ≤ 2 ^ 32 - 4) :
    n.toNat ≤ (roundUp n).toNat := by
  have rem : (n % 4).toNat = n.toNat % 4 := by rw [UInt32.toNat_mod]; rfl
  unfold roundUp
  by_cases zero : n % 4 = 0
  · simp [zero]
  · have nonzero : n.toNat % 4 ≠ 0 := fun h => zero (UInt32.toNat_inj.mp (rem.trans h))
    rw [if_neg zero, UInt32.toNat_add, UInt32.toNat_sub, rem]
    simp only [UInt32.reduceToNat]
    omega

theorem starts_end (mem : Mem) (blocks : Blocks) (a b : UInt32) (n : Nat) (used : Bool)
    (fits : a.toNat + extent blocks < 2 ^ 32) (holds : Holds mem a blocks)
    (member : (b, n, used) ∈ starts a blocks) :
    if mem (b + 4) = 0 then b.toNat + 12 + n = a.toNat + extent blocks
    else b.toNat + 12 + n + 12 ≤ a.toNat + extent blocks := by
  induction blocks generalizing a with
  | nil => cases member
  | cons block rest ih =>
      obtain ⟨m, u⟩ := block
      obtain ⟨_, _, link⟩ := holds
      rw [extent_cons] at fits ⊢
      have after := after_toNat a m (by omega)
      rcases List.mem_cons.mp member with same | later
      · cases same
        rcases link with ⟨rfl, last⟩ | ⟨next, holds⟩
        · rw [if_pos last, extent, List.map_nil, List.sum_nil]
          omega
        · cases rest with
          | nil => exact absurd holds id
          | cons second others =>
              have more : mem (b + 4) ≠ 0 := by
                rw [next]
                exact ne_of_toNat (by rw [after]; simp)
              rw [if_neg more, extent_cons]
              omega
      · rcases link with ⟨rfl, _⟩ | ⟨_, holds⟩
        · cases later
        · have position := ih _ (by omega) holds later
          split at position
          · rename_i last
            rw [if_pos last]
            omega
          · rename_i more
            rw [if_neg more]
            omega

theorem place_recorded (mem : Mem) (b size : UInt32) (aligned : (mem b).toNat % 4 = 0)
    (multiple : size.toNat % 4 = 0) (fits : b.toNat + 12 + (mem b).toNat < 2 ^ 32)
    (room : size < mem b / 2 → size.toNat + 12 ≤ (mem b).toNat) :
    recorded (place mem b size) b = if size < mem b / 2 then size.toNat else (mem b).toNat := by
  rw [recorded_eq]
  by_cases split : size < mem b / 2
  · obtain ⟨word, _⟩ :=
      splitBlock_words mem b size _ rfl aligned multiple (room split) fits
    have placed : place mem b size b = size ||| 1 := by
      simp only [place, if_pos split, write, if_true, word]
    rw [placed, if_pos split, toNat_or_one size (by omega)]
    omega
  · have placed : place mem b size b = mem b ||| 1 := by
      simp only [place, if_neg split, write, if_true]
    rw [placed, if_neg split, toNat_or_one (mem b) (by omega)]
    omega

/-- In every state reached while each split block has room for the second
descriptor, what `malloc` returns is contained in the heap exactly when the request
does not wrap and leaves the last twelve bytes of the last block out. -/
theorem malloc_contained_iff (mem : Mem) (s : State) (run : Run step SplitFits (initial mem) s)
    (n : UInt32) (room : SplitFits s (.malloc n)) (mem' : Mem) (p : UInt32)
    (returned : malloc s.mem n = some (mem', p)) : Contained mem' p n ↔ Encloses s.mem n := by
  obtain ⟨blocks, inv, whole⟩ := run_tiled run
  obtain ⟨b, found, pair⟩ := Option.map_eq_some_iff.mp returned
  cases pair
  have multiple := roundUp_aligned n
  obtain ⟨_, _, ⟨m, target⟩, _⟩ :=
    holds_place s.mem (roundUp n) multiple blocks _ heap b inv.fits inv.holds found (room b found)
  obtain ⟨word, aligned⟩ := holds_word s.mem blocks heap b m false inv.holds target
  rw [Bool.toNat_false, Nat.add_zero] at word
  have bounds := starts_bounds blocks heap b m false inv.fits target
  have position := starts_end s.mem blocks heap b m false inv.fits inv.holds target
  have fit := search_found s.mem (roundUp n) _ heap b found
  rw [not_or, UInt32.not_lt, UInt32.le_iff_toNat_le] at fit
  have fits := inv.fits
  have start : (b + 12).toNat = b.toNat + 12 :=
    toNat_add_of_lt b 12 (by simp only [UInt32.reduceToNat]; omega)
  have total : HEAP_SIZE.toNat = 40960 := rfl
  have back : b + 12 - 12 = b := UInt32.add_sub_cancel b 12
  have record := place_recorded s.mem b (roundUp n) (by omega) multiple (by omega) (room b found)
  constructor
  · intro contained
    have high := contained.high
    refine ⟨?_, ?_⟩
    · have base : heap.toNat = 0x10000000 := rfl
      omega
    · intro block stops last
      obtain rfl : b = block := Option.some.inj (found.symm.trans stops)
      rw [if_pos last] at position
      omega
  · intro encloses
    have rounded := le_roundUp n encloses.rounds
    refine ⟨by omega, ?_, ?_⟩
    · by_cases last : s.mem (b + 4) = 0
      · have spare := encloses.last b found last
        rw [if_pos last] at position
        omega
      · rw [if_neg last] at position
        omega
    · rw [back, record]
      split <;> omega

theorem malloc_hundred_contained :
    ∃ mem p, malloc (initial fun _ => 0).mem 100 = some (mem, p) ∧ Contained mem p 100 := by
  have found : firstFit (initial fun _ => 0).mem (roundUp 100) = some heap := by rfl
  have room : SplitFits (initial fun _ => 0) (.malloc 100) := by
    intro block stops _
    rw [found] at stops
    cases stops
    decide
  have encloses : Encloses (initial fun _ => 0).mem 100 := by
    refine ⟨by decide, ?_⟩
    intro block stops _
    rw [found] at stops
    cases stops
    decide
  have returned : malloc (initial fun _ => 0).mem 100 =
      some (place (initial fun _ => 0).mem heap (roundUp 100), heap + 12) := by
    rw [malloc, found]
    rfl
  exact ⟨_, _, returned,
    (malloc_contained_iff (fun _ => 0) _ .refl 100 room _ _ returned).mpr encloses⟩

theorem malloc_heap_size_escapes :
    ¬ ∀ (mem : Mem) (s : State), Run step anyStep (initial mem) s →
      ∀ (n : UInt32) (mem' : Mem) (p : UInt32), malloc s.mem n = some (mem', p) →
        Contained mem' p n := by
  intro claim
  have returned : malloc (initial fun _ => 0).mem 40960 =
      some (place (initial fun _ => 0).mem heap 40960, heap + 12) := by rfl
  have contained := claim (fun _ => 0) _ .refl 40960 _ _ returned
  exact absurd contained.high (by decide)

/-! The list itself. -/

/-- Following `fd` from `b` to NULL passes these blocks. -/
inductive Visits (mem : Mem) : UInt32 → List UInt32 → Prop
  | last {b : UInt32} : mem (b + 4) = 0 → Visits mem b [b]
  | more {b : UInt32} {rest : List UInt32} :
      mem (b + 4) ≠ 0 → Visits mem (mem (b + 4)) rest → Visits mem b (b :: rest)

structure DoublyLinked (mem : Mem) (list : List UInt32) : Prop where
  ends : Visits mem heap list
  ordered : list.Pairwise (· < ·)
  back : ∀ b ∈ list, mem (b + 4) ≠ 0 → mem (mem (b + 4) + 8) = b

/-- A block that is split is the last of the list, whose `fd` is NULL: nothing then
points back at it from behind. -/
def SplitsLast (s : State) : Act → Prop
  | .malloc size => ∀ block, firstFit s.mem (roundUp size) = some block →
      roundUp size < s.mem block / 2 → s.mem (block + 4) = 0
  | .free _ => True

def LinkSafe (s : State) (a : Act) : Prop := SplitFits s a ∧ SplitsLast s a

/-- Each descriptor from `a` on points back at the one before it. -/
def Backed (mem : Mem) : UInt32 → UInt32 → Blocks → Prop
  | _, _, [] => True
  | before, a, (n, _) :: rest =>
      mem (a + 8) = before ∧ Backed mem a (a + 12 + UInt32.ofNat n) rest

theorem backed_congr (mem mem' : Mem) (blocks : Blocks) (before a : UInt32)
    (same : ∀ b n used, (b, n, used) ∈ starts a blocks → mem' (b + 8) = mem (b + 8))
    (backed : Backed mem before a blocks) : Backed mem' before a blocks := by
  induction blocks generalizing before a with
  | nil => trivial
  | cons block rest ih =>
      obtain ⟨n, used⟩ := block
      refine ⟨?_, ih a _ ?_ backed.2⟩
      · rw [same a n used List.mem_cons_self]
        exact backed.1
      · intro b m u member
        exact same b m u (List.mem_cons_of_mem _ member)

theorem backed_release (mem : Mem) (target : UInt32) (blocks : Blocks) (before a : UInt32)
    (backed : Backed mem before a blocks) : Backed mem before a (release target a blocks) := by
  induction blocks generalizing before a with
  | nil => trivial
  | cons block rest ih =>
      rw [release]
      split
      · exact backed
      · exact ⟨backed.1, ih _ _ backed.2⟩

theorem starts_bk_ne (blocks : Blocks) (a b target : UInt32) (n m : Nat) (u v : Bool)
    (fits : a.toNat + extent blocks < 2 ^ 32) (member : (b, n, u) ∈ starts a blocks)
    (listed : (target, m, v) ∈ starts a blocks) : b + 8 ≠ target := by
  have bounds := starts_bounds blocks a b n u fits member
  have bk : (b + 8).toNat = b.toNat + 8 := toNat_add_of_lt b 8 (by simp; omega)
  by_cases own : b = target
  · subst own
    exact ne_of_toNat (by omega)
  · have apart := starts_separate blocks a b target n m u v fits member listed own
    unfold Apart at apart
    exact ne_of_toNat (by omega)

theorem free_backed {s : State} {ptr : UInt32} {blocks : Blocks} (inv : Tiled s blocks)
    (member : ptr ∈ s.live) (backed : Backed s.mem 0 heap blocks) :
    Backed (free s.mem ptr) 0 heap (release (ptr - 12) heap blocks) := by
  obtain ⟨n, target⟩ := inv.live ptr member
  apply backed_release
  refine backed_congr s.mem _ blocks 0 heap ?_ backed
  intro b m u listed
  rw [free, write, if_neg (starts_bk_ne blocks heap b _ m n u true inv.fits listed target)]

theorem splitBlock_bks (mem : Mem) (a size : UInt32) (n : Nat) (room : size.toNat + 12 ≤ n)
    (fits : a.toNat + 12 + n < 2 ^ 32) :
    splitBlock mem a size (a + 8) = mem (a + 8) ∧ splitBlock mem a size (a + 12 + size + 8) = a := by
  obtain ⟨a4, c, c4, c8⟩ := split_toNat a size n room fits
  have a8 : (a + 8).toNat = a.toNat + 8 := toNat_add_of_lt a 8 (by simp; omega)
  have own1 : a + 8 ≠ a := ne_of_toNat (by omega)
  have own2 : a + 8 ≠ a + 4 := ne_of_toNat (by omega)
  have own3 : a + 8 ≠ a + 12 + size := ne_of_toNat (by omega)
  have own4 : a + 8 ≠ a + 12 + size + 4 := ne_of_toNat (by omega)
  have own5 : a + 8 ≠ a + 12 + size + 8 := ne_of_toNat (by omega)
  have second1 : a + 12 + size + 8 ≠ a + 4 := ne_of_toNat (by omega)
  have second2 : a + 12 + size + 8 ≠ a + 12 + size + 4 := ne_of_toNat (by omega)
  constructor
  · simp only [splitBlock, write, own1, own2, own3, own4, own5, if_false]
  · simp only [splitBlock, write, second1, second2, if_false, if_true]

theorem backed_place_head (mem : Mem) (a size before : UInt32) (n : Nat) (rest : Blocks)
    (holds : Holds mem a ((n, false) :: rest))
    (room : size < mem a / 2 → size.toNat + 12 ≤ (mem a).toNat)
    (last : size < mem a / 2 → mem (a + 4) = 0)
    (fits : a.toNat + extent ((n, false) :: rest) < 2 ^ 32)
    (backed : Backed mem before a ((n, false) :: rest)) :
    Backed (place mem a size) before a
      (if size.toNat < n / 2 then (size.toNat, true) :: (n - size.toNat - 12, false) :: rest
        else (n, true) :: rest) := by
  have whole := fits
  rw [extent_cons] at fits
  obtain ⟨word, _, link⟩ := holds
  rw [Bool.toNat_false, Nat.add_zero] at word
  have half := lt_half size (mem a)
  rw [word] at half room
  by_cases split : size.toNat < n / 2
  · -- the old next block would keep pointing at `a`, but there is none
    have alone : rest = [] := by
      rcases link with ⟨alone, _⟩ | ⟨next, _⟩
      · exact alone
      · have after := after_toNat a n (by omega)
        rw [← next, last (half.mpr split), UInt32.toNat_zero] at after
        omega
    have enough := room (half.mpr split)
    obtain ⟨_, c, _, c8⟩ := split_toNat a size n enough (by omega)
    obtain ⟨own, second⟩ := splitBlock_bks mem a size n enough (by omega)
    have a8 : (a + 8).toNat = a.toNat + 8 := toNat_add_of_lt a 8 (by simp; omega)
    have placed : place mem a size = write (splitBlock mem a size) a
        (splitBlock mem a size a ||| 1) := by
      simp [place, half.mpr split]
    rw [if_pos split, alone, placed]
    refine ⟨?_, ?_, trivial⟩
    · rw [write, if_neg (ne_of_toNat (by omega)), own]
      exact backed.1
    · rw [UInt32.ofNat_toNat, write, if_neg (ne_of_toNat (by omega)), second]
  · have placed : place mem a size = write mem a (mem a ||| 1) := by
      simp [place, mt half.mp split]
    rw [if_neg split, placed]
    refine backed_congr mem _ ((n, true) :: rest) before a ?_ backed
    intro b m u member
    rw [write, if_neg (starts_bk_ne ((n, true) :: rest) a b a m n u true whole member
      List.mem_cons_self)]

/-- First fit keeps the back links, as long as a block that is split has no
successor. -/
theorem backed_place (mem : Mem) (size : UInt32) (multiple : size.toNat % 4 = 0) (blocks : Blocks)
    (fuel : Nat) (before a b : UInt32) (fits : a.toNat + extent blocks < 2 ^ 32)
    (holds : Holds mem a blocks) (found : search mem size fuel a = some b)
    (room : size < mem b / 2 → size.toNat + 12 ≤ (mem b).toNat)
    (last : size < mem b / 2 → mem (b + 4) = 0) (backed : Backed mem before a blocks) :
    Backed (place mem b size) before a (allocate size.toNat blocks) := by
  induction blocks generalizing before a fuel with
  | nil => exact absurd holds id
  | cons block rest ih =>
      obtain ⟨n, used⟩ := block
      cases fuel with
      | zero => cases found
      | succ fuel =>
          have holdsAll := holds
          have fitsAll := fits
          obtain ⟨word, aligned, link⟩ := holds
          rw [extent_cons] at fits
          have skip := skips_iff mem a size n used word aligned
          rw [search] at found
          rw [allocate]
          by_cases busy : used = true ∨ n < size.toNat
          · rw [if_pos (skip.mpr busy)] at found
            rw [if_pos busy]
            split at found
            · cases found
            rename_i more
            rcases link with ⟨rfl, ends⟩ | ⟨next, holds⟩
            · exact absurd ends more
            rw [next] at found
            have after := after_toNat a n (by omega)
            obtain ⟨_, _, ⟨m, target⟩, _⟩ :=
              holds_place mem size multiple rest fuel _ b (by omega) holds found room
            have bounds := starts_bounds rest _ b m false (by omega) target
            obtain ⟨targetWord, _⟩ := holds_word mem rest _ b m false holds target
            rw [Bool.toNat_false, Nat.add_zero] at targetWord
            have a8 : (a + 8).toNat = a.toNat + 8 := toNat_add_of_lt a 8 (by simp; omega)
            refine ⟨?_, ih fuel a _ (by omega) holds found backed.2⟩
            rw [place_frame mem b size _ room (by omega) (.inl (by omega))]
            exact backed.1
          · rw [if_neg (fun h => busy (skip.mp h))] at found
            obtain rfl : a = b := Option.some.inj found
            rw [if_neg busy]
            simp only [not_or, Bool.not_eq_true, not_lt] at busy
            obtain ⟨rfl, _⟩ := busy
            exact backed_place_head mem a size before n rest holdsAll room last fitsAll backed

theorem holds_visits (mem : Mem) (blocks : Blocks) (a : UInt32)
    (fits : a.toNat + extent blocks < 2 ^ 32) (holds : Holds mem a blocks) :
    Visits mem a ((starts a blocks).map Prod.fst) := by
  induction blocks generalizing a with
  | nil => exact absurd holds id
  | cons block rest ih =>
      obtain ⟨n, used⟩ := block
      obtain ⟨_, _, link⟩ := holds
      rw [extent_cons] at fits
      rcases link with ⟨rfl, last⟩ | ⟨next, holds⟩
      · exact .last last
      · have after := after_toNat a n (by omega)
        refine .more ?_ ?_
        · rw [next]
          exact ne_of_toNat (by rw [after]; simp)
        · rw [next]
          exact ih _ (by omega) holds

theorem starts_ordered (blocks : Blocks) (a : UInt32) (fits : a.toNat + extent blocks < 2 ^ 32) :
    ((starts a blocks).map Prod.fst).Pairwise (· < ·) := by
  induction blocks generalizing a with
  | nil => exact List.Pairwise.nil
  | cons block rest ih =>
      obtain ⟨n, used⟩ := block
      rw [extent_cons] at fits
      have after := after_toNat a n (by omega)
      refine List.pairwise_cons.mpr ⟨?_, ih _ (by omega)⟩
      intro b listed
      obtain ⟨⟨c, m, u⟩, member, rfl⟩ := List.mem_map.mp listed
      have bounds := starts_bounds rest _ c m u (by omega) member
      simp only [UInt32.lt_iff_toNat_lt]
      omega

theorem backed_next (mem : Mem) (blocks : Blocks) (before a b : UInt32) (n : Nat) (used : Bool)
    (holds : Holds mem a blocks) (backed : Backed mem before a blocks)
    (member : (b, n, used) ∈ starts a blocks) (more : mem (b + 4) ≠ 0) :
    mem (mem (b + 4) + 8) = b := by
  induction blocks generalizing before a with
  | nil => cases member
  | cons block rest ih =>
      obtain ⟨m, u⟩ := block
      obtain ⟨_, _, link⟩ := holds
      rcases link with ⟨rfl, last⟩ | ⟨next, holds⟩
      · rcases List.mem_cons.mp member with same | later
        · cases same
          exact absurd last more
        · cases later
      · rcases List.mem_cons.mp member with same | later
        · cases same
          cases rest with
          | nil => exact absurd holds id
          | cons second others =>
              rw [next]
              exact backed.2.1
        · exact ih _ _ holds backed.2 later

theorem backed_doublyLinked (s : State) (blocks : Blocks) (inv : Tiled s blocks)
    (backed : Backed s.mem 0 heap blocks) :
    DoublyLinked s.mem ((starts heap blocks).map Prod.fst) where
  ends := holds_visits s.mem blocks heap inv.fits inv.holds
  ordered := starts_ordered blocks heap inv.fits
  back := by
    intro b listed more
    obtain ⟨⟨_, n, used⟩, member, rfl⟩ := List.mem_map.mp listed
    exact backed_next s.mem blocks 0 heap _ n used inv.holds backed member more

theorem step_backed (s : State) (a : Act) (t : State)
    (inv : ∃ blocks, Tiled s blocks ∧ Backed s.mem 0 heap blocks) (safe : LinkSafe s a)
    (taken : step s a = some t) : ∃ blocks, Tiled t blocks ∧ Backed t.mem 0 heap blocks := by
  obtain ⟨blocks, inv, backed⟩ := inv
  cases a with
  | malloc size =>
      obtain ⟨b, found, rfl⟩ := malloc_eq taken
      refine ⟨_, (place_tiled inv safe.1 found).1, ?_⟩
      exact backed_place s.mem (roundUp size) (roundUp_aligned size) blocks _ 0 heap b inv.fits
        inv.holds found (safe.1 b found) (safe.2 b found) backed
  | free ptr =>
      obtain ⟨member, rfl⟩ := free_eq taken
      exact ⟨_, free_tiled inv member, free_backed inv member backed⟩

/-- In every state reached while only the last block is split, and only where it has
room for the second descriptor, the list is doubly linked. -/
theorem linkSafe_run_doublyLinked (mem : Mem) (s : State)
    (run : Run step LinkSafe (initial mem) s) : ∃ list, DoublyLinked s.mem list := by
  obtain ⟨blocks, inv, backed⟩ :=
    run.invariant (fun t => ∃ blocks, Tiled t blocks ∧ Backed t.mem 0 heap blocks)
      ⟨_, initial_tiled mem, rfl, trivial⟩ step_backed
  exact ⟨_, backed_doublyLinked s blocks inv backed⟩

theorem malloc_hundred_linked :
    ∃ s, Run step LinkSafe (initial fun _ => 0) s ∧ s.mem (heap + 4) = heap + 112 ∧
      ∃ list, DoublyLinked s.mem list := by
  have found : firstFit (initial fun _ => 0).mem (roundUp 100) = some heap := by rfl
  have safe : LinkSafe (initial fun _ => 0) (.malloc 100) := by
    constructor
    · intro block stops _
      rw [found] at stops
      cases stops
      decide
    · intro block stops _
      rw [found] at stops
      cases stops
      decide
  have run : Run step LinkSafe (initial fun _ => 0) _ := Run.refl.next (.malloc 100) safe rfl
  exact ⟨_, run, rfl, linkSafe_run_doublyLinked (fun _ => 0) _ run⟩

/-- `malloc(100)`, `malloc(4)`, `free` of the first, `malloc(4)`: the freed block is
split, and the block of the second call still points back at its first half. -/
theorem reused_split_unlinked :
    ¬ ∀ (mem : Mem) (s : State), Run step anyStep (initial mem) s →
      ∃ list, DoublyLinked s.mem list := by
  intro claim
  have result : ∃ s, runList step (initial fun _ => 0)
      [.malloc 100, .malloc 4, .free (heap + 12), .malloc 4] = some s ∧
      s.mem (heap + 4) = heap + 16 ∧ s.mem (heap + 20) = heap + 112 ∧
      s.mem (heap + 120) = heap := by
    refine ⟨_, (Option.some_get (by rfl)).symm, ?_, ?_, ?_⟩ <;> rfl
  obtain ⟨s, reached, first, second, behind⟩ := result
  obtain ⟨list, linked⟩ := claim _ s (Run.of_runList _ (fun _ _ _ => trivial) reached)
  have half : heap + 16 ∈ list := by
    cases linked.ends with
    | last ends => exact absurd (first.symm.trans ends) (by decide)
    | more _ onward =>
        rw [first] at onward
        cases onward with
        | last _ => simp
        | more _ _ => simp
  have back := linked.back (heap + 16) half
  rw [show heap + 16 + 4 = heap + 20 from rfl, second, show heap + 112 + 8 = heap + 120 from rfl,
    behind] at back
  exact absurd (back (by decide)) (by decide)

end TitorOS.Barrel.Malloc
