import TitorOS.Lib.Run
import TitorOS.Lib.Word

/-! The heap of `libc/stdlib.c` and `libc/init_libc.c`. Memory is read and written
in words; every address used is a multiple of four. A block descriptor holds its
size (bit 0 marks it used), `fd` and `bk` in three consecutive words.
`none` stands for a search that never ends. -/

namespace TitorOS.Barrel.Malloc

open TitorOS.Lib

abbrev Mem := UInt32 → UInt32

def write (mem : Mem) (a value : UInt32) : Mem := fun x => if x = a then value else mem x

def HEAP_SIZE : UInt32 := 40960

/-- What `mmap(NULL, HEAP_SIZE, NOT_LITERAL)` returns: the kernel's `USER_HEAP_BASE`. -/
def heap : UInt32 := 0x10000000

def initLibc (mem : Mem) : Mem :=
  write (write (write mem heap HEAP_SIZE) (heap + 4) 0) (heap + 8) 0

def roundUp (size : UInt32) : UInt32 :=
  size + if size % 4 = 0 then 0 else 4 - size % 4

/-- The search loop. It visits a block at most once unless the list is cyclic, and
then it never ends; `2^32` visits are therefore as good as any number. -/
def search (mem : Mem) (size : UInt32) : Nat → UInt32 → Option UInt32
  | 0, _ => none
  | fuel + 1, block =>
      if mem block &&& 0b1 = 1 ∨ mem block < size then
        if mem (block + 4) = 0 then none else search mem size fuel (mem (block + 4))
      else some block

def firstFit (mem : Mem) (size : UInt32) : Option UInt32 := search mem size (2 ^ 32) heap

/-- The six stores of the split, in their order. -/
def splitBlock (mem : Mem) (block size : UInt32) : Mem :=
  let split := block + 12 + size
  let mem := write mem split (mem block - size - 12)
  let mem := write mem split (mem split &&& 0xFFFFFFFC)
  let mem := write mem block size
  let mem := write mem (split + 8) block
  let mem := write mem (split + 4) (mem (block + 4))
  write mem (block + 4) split

def place (mem : Mem) (block size : UInt32) : Mem :=
  let mem := if size < mem block / 2 then splitBlock mem block size else mem
  write mem block (mem block ||| 1)

def malloc (mem : Mem) (size : UInt32) : Option (Mem × UInt32) :=
  (firstFit mem (roundUp size)).map fun block => (place mem block (roundUp size), block + 12)

def free (mem : Mem) (ptr : UInt32) : Mem :=
  write mem (ptr - 12) (mem (ptr - 12) &&& 0xFFFFFFFE)

/-- `live` lists the pointers returned and not yet freed. -/
structure State where
  mem : Mem
  live : List UInt32

inductive Act where
  | malloc (size : UInt32)
  | free (ptr : UInt32)

def step (s : State) : Act → Option State
  | .malloc size => (malloc s.mem size).map fun r => ⟨r.1, r.2 :: s.live⟩
  | .free ptr => if ptr ∈ s.live then some ⟨free s.mem ptr, s.live.erase ptr⟩ else none

def initial (mem : Mem) : State := ⟨initLibc mem, []⟩

inductive OnList (mem : Mem) : UInt32 → Prop
  | head : OnList mem heap
  | next {b : UInt32} : OnList mem b → mem (b + 4) ≠ 0 → OnList mem (mem (b + 4))

/-- The size a descriptor records, less the used bit. -/
def recorded (mem : Mem) (b : UInt32) : Nat := (mem b &&& 0xFFFFFFFE).toNat

/-- The ranges of `n` bytes at `a` and `m` bytes at `b` do not overlap. -/
def Apart (a n b m : Nat) : Prop := a + n ≤ b ∨ b + m ≤ a

structure HeapDisjoint (s : State) : Prop where
  blocks : ∀ b c, OnList s.mem b → OnList s.mem c → b ≠ c →
    Apart b.toNat (12 + recorded s.mem b) c.toNat (12 + recorded s.mem c)
  payloads : s.live.Pairwise fun p q =>
    Apart p.toNat (recorded s.mem (p - 12)) q.toNat (recorded s.mem (q - 12))
  headers : ∀ p ∈ s.live, ∀ b, OnList s.mem b →
    Apart p.toNat (recorded s.mem (p - 12)) b.toNat 12

/-- If the block the search stops at is going to be split, it has room for the
second descriptor. -/
def SplitFits (s : State) : Act → Prop
  | .malloc size => ∀ block, firstFit s.mem (roundUp size) = some block →
      roundUp size < s.mem block / 2 → (roundUp size).toNat + 12 ≤ (s.mem block).toNat
  | .free _ => True

/-! The abstract heap: consecutive blocks from one address on, each with its size
and whether it is used. -/

abbrev Blocks := List (Nat × Bool)

def extent (blocks : Blocks) : Nat := (blocks.map fun b => 12 + b.1).sum

def starts : UInt32 → Blocks → List (UInt32 × Nat × Bool)
  | _, [] => []
  | a, (n, used) :: rest => (a, n, used) :: starts (a + 12 + UInt32.ofNat n) rest

/-- The words from `a` on hold the descriptors of these blocks, linked by `fd`. -/
def Holds (mem : Mem) : UInt32 → Blocks → Prop
  | _, [] => False
  | a, (n, used) :: rest =>
      (mem a).toNat = n + used.toNat ∧ n % 4 = 0 ∧
        ((rest = [] ∧ mem (a + 4) = 0) ∨
          (mem (a + 4) = a + 12 + UInt32.ofNat n ∧ Holds mem (a + 12 + UInt32.ofNat n) rest))

/-- First fit on the abstract heap. -/
def allocate (size : Nat) : Blocks → Blocks
  | [] => []
  | (n, used) :: rest =>
      if used = true ∨ n < size then (n, used) :: allocate size rest
      else if size < n / 2 then (size, true) :: (n - size - 12, false) :: rest
      else (n, true) :: rest

def release (target : UInt32) : UInt32 → Blocks → Blocks
  | _, [] => []
  | a, (n, used) :: rest =>
      if a = target then (n, false) :: rest
      else (n, used) :: release target (a + 12 + UInt32.ofNat n) rest

theorem extent_cons (n : Nat) (used : Bool) (rest : Blocks) :
    extent ((n, used) :: rest) = 12 + n + extent rest := by
  simp [extent]

theorem after_toNat (a : UInt32) (n : Nat) (bound : a.toNat + 12 + n < 2 ^ 32) :
    (a + 12 + UInt32.ofNat n).toNat = a.toNat + 12 + n := by
  have size : (UInt32.ofNat n).toNat = n := UInt32.toNat_ofNat_of_lt' (by simp [UInt32.size]; omega)
  have first : (a + 12).toNat = a.toNat + 12 := toNat_add_of_lt a 12 (by simp; omega)
  rw [toNat_add_of_lt _ _ (by omega), first, size]

theorem holds_congr (mem mem' : Mem) (blocks : Blocks) (a : UInt32)
    (fits : a.toNat + extent blocks < 2 ^ 32)
    (same : ∀ x : UInt32, a.toNat ≤ x.toNat → x.toNat < a.toNat + extent blocks → mem' x = mem x)
    (holds : Holds mem a blocks) : Holds mem' a blocks := by
  induction blocks generalizing a with
  | nil => exact holds
  | cons block rest ih =>
      obtain ⟨n, used⟩ := block
      rw [extent_cons] at fits same
      have fd : (a + 4).toNat = a.toNat + 4 := toNat_add_of_lt a 4 (by simp; omega)
      obtain ⟨size, aligned, link⟩ := holds
      refine ⟨?_, aligned, ?_⟩
      · rw [same a (by omega) (by omega), size]
      · rw [same (a + 4) (by omega) (by omega)]
        rcases link with last | ⟨next, holds⟩
        · exact .inl last
        · have after := after_toNat a n (by omega)
          refine .inr ⟨next, ih _ (by omega) ?_ holds⟩
          intro x low high
          exact same x (by omega) (by omega)

theorem recorded_eq (mem : Mem) (b : UInt32) : recorded mem b = (mem b).toNat / 2 * 2 :=
  toNat_and_high (mem b) 0xFFFFFFFE 1 (by decide) rfl

theorem roundUp_aligned (size : UInt32) : (roundUp size).toNat % 4 = 0 := by
  have bound := size.toNat_lt
  have rem : (size % 4).toNat = size.toNat % 4 := by rw [UInt32.toNat_mod]; rfl
  unfold roundUp
  by_cases zero : size % 4 = 0
  · have : size.toNat % 4 = 0 := by rw [← rem, zero]; rfl
    simp [zero, this]
  · have nonzero : size.toNat % 4 ≠ 0 := fun h => zero (UInt32.toNat_inj.mp (rem.trans h))
    rw [if_neg zero, UInt32.toNat_add, UInt32.toNat_sub, rem]
    simp only [UInt32.reduceToNat]
    omega

theorem ne_of_toNat {x y : UInt32} (apart : x.toNat ≠ y.toNat) : x ≠ y :=
  fun same => apart (by rw [same])

/-- Where the words of a block of `n` bytes and of its second half lie. -/
theorem split_toNat (a size : UInt32) (n : Nat) (room : size.toNat + 12 ≤ n)
    (fits : a.toNat + 12 + n < 2 ^ 32) :
    (a + 4).toNat = a.toNat + 4 ∧ (a + 12 + size).toNat = a.toNat + 12 + size.toNat ∧
      (a + 12 + size + 4).toNat = a.toNat + 12 + size.toNat + 4 ∧
      (a + 12 + size + 8).toNat = a.toNat + 12 + size.toNat + 8 := by
  have a12 : (a + 12).toNat = a.toNat + 12 := toNat_add_of_lt a 12 (by simp; omega)
  have c : (a + 12 + size).toNat = a.toNat + 12 + size.toNat := by
    rw [toNat_add_of_lt _ _ (by omega), a12]
  refine ⟨toNat_add_of_lt a 4 (by simp; omega), c, ?_, ?_⟩
  · rw [toNat_add_of_lt _ _ (by rw [c]; simp; omega), c]
    rfl
  · rw [toNat_add_of_lt _ _ (by rw [c]; simp; omega), c]
    rfl

/-- The values a split leaves in the words of the two descriptors. -/
theorem splitBlock_words (mem : Mem) (a size : UInt32) (n : Nat) (word : (mem a).toNat = n)
    (aligned : n % 4 = 0) (multiple : size.toNat % 4 = 0) (room : size.toNat + 12 ≤ n)
    (fits : a.toNat + 12 + n < 2 ^ 32) :
    splitBlock mem a size a = size ∧ splitBlock mem a size (a + 4) = a + 12 + size ∧
      (splitBlock mem a size (a + 12 + size)).toNat = n - size.toNat - 12 ∧
      splitBlock mem a size (a + 12 + size + 4) = mem (a + 4) := by
  obtain ⟨a4, c, c4, c8⟩ := split_toNat a size n room fits
  have left : (mem a - size - 12).toNat = n - size.toNat - 12 := by
    have first : (mem a - size).toNat = n - size.toNat := by
      rw [toNat_sub_of_le _ _ (by omega), word]
    rw [toNat_sub_of_le _ _ (by rw [first]; simp; omega), first]
    rfl
  have masked : ((mem a - size - 12) &&& 0xFFFFFFFC).toNat = n - size.toNat - 12 := by
    rw [toNat_and_high _ 0xFFFFFFFC 2 (by decide) rfl, left]
    omega
  have apart1 : a + 12 + size ≠ a := ne_of_toNat (by omega)
  have apart2 : a + 12 + size ≠ a + 4 := ne_of_toNat (by omega)
  have apart3 : a + 12 + size + 4 ≠ a := ne_of_toNat (by omega)
  have apart4 : a + 12 + size + 8 ≠ a := ne_of_toNat (by omega)
  have apart5 : a + 12 + size + 8 ≠ a + 4 := ne_of_toNat (by omega)
  have apart6 : a + 4 ≠ a := ne_of_toNat (by omega)
  have apart7 : a + 12 + size + 4 ≠ a + 4 := ne_of_toNat (by omega)
  have apart8 : a + 12 + size ≠ a + 12 + size + 4 := ne_of_toNat (by omega)
  have apart9 : a + 12 + size ≠ a + 12 + size + 8 := ne_of_toNat (by omega)
  refine ⟨?_, ?_, ?_, ?_⟩
  · simp [splitBlock, write, apart3.symm, apart4.symm, apart6.symm]
  · simp [splitBlock, write]
  · simp only [splitBlock, write, apart1, apart2, apart8, apart9, if_false, if_true]
    exact masked
  · simp only [splitBlock, write, apart7, apart5.symm, apart6, apart2.symm, if_false, if_true]

theorem splitBlock_frame (mem : Mem) (a size x : UInt32) (n : Nat) (room : size.toNat + 12 ≤ n)
    (fits : a.toNat + 12 + n < 2 ^ 32)
    (outside : x.toNat < a.toNat ∨ a.toNat + 12 + n ≤ x.toNat) :
    splitBlock mem a size x = mem x := by
  obtain ⟨a4, c, c4, c8⟩ := split_toNat a size n room fits
  have apart1 : x ≠ a := ne_of_toNat (by omega)
  have apart2 : x ≠ a + 4 := ne_of_toNat (by omega)
  have apart3 : x ≠ a + 12 + size := ne_of_toNat (by omega)
  have apart4 : x ≠ a + 12 + size + 4 := ne_of_toNat (by omega)
  have apart5 : x ≠ a + 12 + size + 8 := ne_of_toNat (by omega)
  simp only [splitBlock, write, apart1, apart2, apart3, apart4, apart5, if_false]

theorem lt_half (size word : UInt32) : size < word / 2 ↔ size.toNat < word.toNat / 2 := by
  rw [UInt32.lt_iff_toNat_lt, UInt32.toNat_div]
  rfl

theorem place_frame (mem : Mem) (a size x : UInt32)
    (room : size < mem a / 2 → size.toNat + 12 ≤ (mem a).toNat)
    (fits : a.toNat + 12 + (mem a).toNat < 2 ^ 32)
    (outside : x.toNat < a.toNat ∨ a.toNat + 12 + (mem a).toNat ≤ x.toNat) :
    place mem a size x = mem x := by
  have apart : x ≠ a := ne_of_toNat (by omega)
  unfold place
  by_cases split : size < mem a / 2
  · rw [if_pos split, write, if_neg apart]
    exact splitBlock_frame mem a size x _ (room split) fits outside
  · simp [if_neg split, write, apart]

/-- Placing a request in a free block edits the abstract heap at its head. -/
theorem holds_place_head (mem : Mem) (a size : UInt32) (n : Nat) (rest : Blocks)
    (holds : Holds mem a ((n, false) :: rest)) (multiple : size.toNat % 4 = 0)
    (room : size < mem a / 2 → size.toNat + 12 ≤ (mem a).toNat)
    (fits : a.toNat + extent ((n, false) :: rest) < 2 ^ 32) :
    Holds (place mem a size) a
      (if size.toNat < n / 2 then (size.toNat, true) :: (n - size.toNat - 12, false) :: rest
        else (n, true) :: rest) := by
  rw [extent_cons] at fits
  obtain ⟨word, aligned, link⟩ := holds
  simp only [Bool.toNat_false, Nat.add_zero] at word
  have half := lt_half size (mem a)
  rw [word] at half room
  have tail : (a + 12 + UInt32.ofNat n).toNat = a.toNat + 12 + n := after_toNat a n (by omega)
  have keep (holds : Holds mem (a + 12 + UInt32.ofNat n) rest) :
      Holds (place mem a size) (a + 12 + UInt32.ofNat n) rest := by
    refine holds_congr mem _ rest _ (by omega) ?_ holds
    intro x low high
    exact place_frame mem a size x (by rwa [word]) (by omega) (.inr (by omega))
  have a4 : (a + 4).toNat = a.toNat + 4 := toNat_add_of_lt a 4 (by simp; omega)
  have fdApart : a + 4 ≠ a := ne_of_toNat (by omega)
  by_cases split : size.toNat < n / 2
  · have enough := room (half.mpr split)
    obtain ⟨_, c, c4, _⟩ := split_toNat a size n enough (by omega)
    obtain ⟨size', fd', left', fdLeft'⟩ :=
      splitBlock_words mem a size n word aligned multiple enough (by omega)
    have second : a + 12 + size ≠ a := ne_of_toNat (by omega)
    have secondFd : a + 12 + size + 4 ≠ a := ne_of_toNat (by omega)
    have sizeWord : UInt32.ofNat size.toNat = size := UInt32.ofNat_toNat
    have onward : a + 12 + size + 12 + UInt32.ofNat (n - size.toNat - 12) =
        a + 12 + UInt32.ofNat n := by
      apply UInt32.toNat_inj.mp
      rw [tail, after_toNat (a + 12 + size) _ (by omega)]
      omega
    rw [if_pos split]
    have placed : place mem a size = write (splitBlock mem a size) a
        (splitBlock mem a size a ||| 1) := by
      simp [place, half.mpr split]
    rw [placed] at keep ⊢
    refine ⟨?_, multiple, .inr ⟨?_, ?_, by omega, ?_⟩⟩
    · rw [write, if_pos rfl, size', toNat_or_one size (by omega)]
      rfl
    · rw [write, if_neg fdApart, fd', sizeWord]
    · rw [sizeWord, write, if_neg second, left']
      rfl
    · rw [sizeWord, write, if_neg secondFd, fdLeft', onward]
      rcases link with last | ⟨next, holds⟩
      · exact .inl last
      · exact .inr ⟨next, keep holds⟩
  · have whole : ¬ size < mem a / 2 := fun h => split (half.mp h)
    rw [if_neg split]
    have placed : place mem a size = write mem a (mem a ||| 1) := by simp [place, whole]
    rw [placed] at keep ⊢
    refine ⟨?_, aligned, ?_⟩
    · rw [write, if_pos rfl, toNat_or_one (mem a) (by omega), word]
      rfl
    · rw [write, if_neg fdApart]
      rcases link with last | ⟨next, holds⟩
      · exact .inl last
      · exact .inr ⟨next, keep holds⟩

theorem starts_bounds (blocks : Blocks) (a b : UInt32) (n : Nat) (used : Bool)
    (fits : a.toNat + extent blocks < 2 ^ 32) (member : (b, n, used) ∈ starts a blocks) :
    a.toNat ≤ b.toNat ∧ b.toNat + 12 + n ≤ a.toNat + extent blocks := by
  induction blocks generalizing a with
  | nil => cases member
  | cons block rest ih =>
      obtain ⟨m, u⟩ := block
      rw [extent_cons] at fits ⊢
      rcases List.mem_cons.mp member with same | later
      · cases same
        omega
      · have after := after_toNat a m (by omega)
        have bounds := ih _ (by omega) later
        omega

theorem starts_separate (blocks : Blocks) (a b c : UInt32) (n m : Nat) (u v : Bool)
    (fits : a.toNat + extent blocks < 2 ^ 32) (first : (b, n, u) ∈ starts a blocks)
    (second : (c, m, v) ∈ starts a blocks) (other : b ≠ c) :
    Apart b.toNat (12 + n) c.toNat (12 + m) := by
  induction blocks generalizing a with
  | nil => cases first
  | cons block rest ih =>
      obtain ⟨k, w⟩ := block
      rw [extent_cons] at fits
      have after := after_toNat a k (by omega)
      rcases List.mem_cons.mp first with same | later
      · rcases List.mem_cons.mp second with again | later
        · cases same
          cases again
          exact absurd rfl other
        · cases same
          have bounds := starts_bounds rest _ c m v (by omega) later
          exact .inl (by omega)
      · rcases List.mem_cons.mp second with same | later'
        · cases same
          have bounds := starts_bounds rest _ b n u (by omega) later
          exact .inr (by omega)
        · exact ih _ (by omega) later later'

theorem holds_word (mem : Mem) (blocks : Blocks) (a b : UInt32) (n : Nat) (used : Bool)
    (holds : Holds mem a blocks) (member : (b, n, used) ∈ starts a blocks) :
    (mem b).toNat = n + used.toNat ∧ n % 4 = 0 := by
  induction blocks generalizing a with
  | nil => cases member
  | cons block rest ih =>
      obtain ⟨m, u⟩ := block
      obtain ⟨word, aligned, link⟩ := holds
      rcases List.mem_cons.mp member with same | later
      · cases same
        exact ⟨word, aligned⟩
      · rcases link with ⟨rfl, _⟩ | ⟨_, holds⟩
        · cases later
        · exact ih _ holds later

theorem holds_next (mem : Mem) (blocks : Blocks) (a b : UInt32) (n : Nat) (used : Bool)
    (holds : Holds mem a blocks) (member : (b, n, used) ∈ starts a blocks)
    (more : mem (b + 4) ≠ 0) : ∃ m u, (mem (b + 4), m, u) ∈ starts a blocks := by
  induction blocks generalizing a with
  | nil => cases member
  | cons block rest ih =>
      obtain ⟨m, u⟩ := block
      obtain ⟨word, aligned, link⟩ := holds
      rcases link with ⟨rfl, last⟩ | ⟨next, holds⟩
      · rcases List.mem_cons.mp member with same | later
        · cases same
          exact absurd last more
        · cases later
      · rcases List.mem_cons.mp member with same | later
        · cases same
          cases rest with
          | nil => exact absurd holds id
          | cons second others =>
              refine ⟨second.1, second.2, List.mem_cons_of_mem _ ?_⟩
              rw [next]
              exact List.mem_cons_self
        · obtain ⟨k, v, found⟩ := ih _ holds later
          exact ⟨k, v, List.mem_cons_of_mem _ found⟩

theorem onList_starts (mem : Mem) (blocks : Blocks) (holds : Holds mem heap blocks) (b : UInt32)
    (listed : OnList mem b) : ∃ n used, (b, n, used) ∈ starts heap blocks := by
  induction listed with
  | head =>
      cases blocks with
      | nil => exact absurd holds id
      | cons block rest => exact ⟨block.1, block.2, List.mem_cons_self⟩
  | next _ more ih =>
      obtain ⟨n, used, found⟩ := ih
      exact holds_next mem blocks heap _ n used holds found more

/-- The first free block of `size` bytes, if it is to be split, has room for the
second descriptor. -/
def Roomy (size : Nat) : Blocks → Prop
  | [] => True
  | (n, used) :: rest =>
      if used = true ∨ n < size then Roomy size rest else size < n / 2 → size + 12 ≤ n

theorem extent_allocate (size : Nat) (blocks : Blocks) (roomy : Roomy size blocks) :
    extent (allocate size blocks) = extent blocks := by
  induction blocks with
  | nil => rfl
  | cons block rest ih =>
      obtain ⟨n, used⟩ := block
      rw [Roomy] at roomy
      rw [allocate]
      split at roomy
      · rename_i busy
        rw [if_pos busy, extent_cons, extent_cons, ih roomy]
      · rename_i free
        rw [if_neg free]
        split
        · rename_i halved
          have enough := roomy halved
          rw [extent_cons, extent_cons, extent_cons]
          omega
        · rw [extent_cons, extent_cons]

theorem allocate_keeps_used (size : Nat) (blocks : Blocks) (a x : UInt32) (n : Nat)
    (fits : a.toNat + extent blocks < 2 ^ 32) (roomy : Roomy size blocks)
    (member : (x, n, true) ∈ starts a blocks) : (x, n, true) ∈ starts a (allocate size blocks) := by
  induction blocks generalizing a with
  | nil => cases member
  | cons block rest ih =>
      obtain ⟨m, used⟩ := block
      rw [extent_cons] at fits
      rw [Roomy] at roomy
      rw [allocate]
      have after := after_toNat a m (by omega)
      split at roomy
      · rename_i busy
        rw [if_pos busy]
        rcases List.mem_cons.mp member with same | later
        · rw [same]
          exact List.mem_cons_self
        · exact List.mem_cons_of_mem _ (ih _ (by omega) roomy later)
      · rename_i free
        rw [if_neg free]
        rcases List.mem_cons.mp member with same | later
        · cases same
          exact absurd (Or.inl rfl) free
        · split
          · rename_i halved
            have enough := roomy halved
            have middle := after_toNat a size (by omega)
            have onward : a + 12 + UInt32.ofNat size + 12 + UInt32.ofNat (m - size - 12) =
                a + 12 + UInt32.ofNat m := by
              apply UInt32.toNat_inj.mp
              rw [after, after_toNat _ _ (by omega), middle]
              omega
            refine List.mem_cons_of_mem _ (List.mem_cons_of_mem _ ?_)
            rw [onward]
            exact later
          · exact List.mem_cons_of_mem _ later

/-- The search passes by exactly the blocks that are used or too small: the used bit
in the size does not change the comparison. -/
theorem skips_iff (mem : Mem) (a size : UInt32) (n : Nat) (used : Bool)
    (word : (mem a).toNat = n + used.toNat) (aligned : n % 4 = 0) :
    (mem a &&& 0b1 = 1 ∨ mem a < size) ↔ used = true ∨ n < size.toNat := by
  rw [and_one_eq_one, UInt32.lt_iff_toNat_lt, word]
  cases used <;> simp <;> omega

/-- The search stops at a free block, and placing the request there is first fit on
the abstract heap. -/
theorem holds_place (mem : Mem) (size : UInt32) (multiple : size.toNat % 4 = 0) (blocks : Blocks)
    (fuel : Nat) (a b : UInt32) (fits : a.toNat + extent blocks < 2 ^ 32)
    (holds : Holds mem a blocks) (found : search mem size fuel a = some b)
    (room : size < mem b / 2 → size.toNat + 12 ≤ (mem b).toNat) :
    Holds (place mem b size) a (allocate size.toNat blocks) ∧ Roomy size.toNat blocks ∧
      (∃ n, (b, n, false) ∈ starts a blocks) ∧
      ∃ n, (b, n, true) ∈ starts a (allocate size.toNat blocks) := by
  induction blocks generalizing a fuel with
  | nil => exact absurd holds id
  | cons block rest ih =>
      obtain ⟨n, used⟩ := block
      cases fuel with
      | zero => cases found
      | succ fuel =>
          have holdsAll := holds
          have fitsAll := fits
          obtain ⟨word, aligned, link⟩ := holds
          rw [extent_cons] at fits
          have skip := skips_iff mem a size n used word aligned
          rw [search] at found
          rw [allocate, Roomy]
          by_cases busy : used = true ∨ n < size.toNat
          · rw [if_pos (skip.mpr busy)] at found
            rw [if_pos busy, if_pos busy]
            split at found
            · cases found
            rename_i more
            rcases link with ⟨rfl, last⟩ | ⟨next, holds⟩
            · exact absurd last more
            rw [next] at found
            have after := after_toNat a n (by omega)
            obtain ⟨placed, roomy, ⟨m, target⟩, k, taken⟩ := ih fuel _ (by omega) holds found
            have bounds := starts_bounds rest _ b m false (by omega) target
            obtain ⟨targetWord, _⟩ := holds_word mem rest _ b m false holds target
            simp only [Bool.toNat_false, Nat.add_zero] at targetWord
            -- the block lies beyond the head, whose descriptor is not touched
            have frame (x : UInt32) (below : x.toNat < a.toNat + 12 + n) :
                place mem b size x = mem x :=
              place_frame mem b size x room (by omega) (.inl (by omega))
            have a4 : (a + 4).toNat = a.toNat + 4 := toNat_add_of_lt a 4 (by simp; omega)
            refine ⟨⟨?_, aligned, .inr ⟨?_, placed⟩⟩, roomy, ⟨m, List.mem_cons_of_mem _ target⟩,
              ⟨k, List.mem_cons_of_mem _ taken⟩⟩
            · rw [frame a (by omega), word]
            · rw [frame (a + 4) (by omega), next]
          · rw [if_neg (fun h => busy (skip.mp h))] at found
            have same : a = b := Option.some.inj found
            subst same
            rw [if_neg busy, if_neg busy]
            simp only [not_or, Bool.not_eq_true, not_lt] at busy
            obtain ⟨rfl, large⟩ := busy
            simp only [Bool.toNat_false, Nat.add_zero] at word
            refine ⟨holds_place_head mem a size n rest holdsAll multiple room fitsAll, ?_,
              ⟨n, List.mem_cons_self⟩, ?_⟩
            · intro halved
              have enough := room ((lt_half size (mem a)).mpr (by rwa [word]))
              omega
            · split
              · exact ⟨size.toNat, List.mem_cons_self⟩
              · exact ⟨n, List.mem_cons_self⟩

theorem extent_release (target a : UInt32) (blocks : Blocks) :
    extent (release target a blocks) = extent blocks := by
  induction blocks generalizing a with
  | nil => rfl
  | cons block rest ih =>
      rw [release]
      split
      · rw [extent_cons, extent_cons]
      · rw [extent_cons, extent_cons, ih]

theorem release_keeps_used (target : UInt32) (blocks : Blocks) (a x : UInt32) (n : Nat)
    (other : x ≠ target) (member : (x, n, true) ∈ starts a blocks) :
    (x, n, true) ∈ starts a (release target a blocks) := by
  induction blocks generalizing a with
  | nil => cases member
  | cons block rest ih =>
      obtain ⟨m, u⟩ := block
      rw [release]
      rcases List.mem_cons.mp member with same | later
      · cases same
        rw [if_neg other]
        exact List.mem_cons_self
      · split
        · exact List.mem_cons_of_mem _ later
        · exact List.mem_cons_of_mem _ (ih _ later)

theorem holds_release (mem : Mem) (target : UInt32) (blocks : Blocks) (a : UInt32) (n : Nat)
    (used : Bool) (fits : a.toNat + extent blocks < 2 ^ 32) (holds : Holds mem a blocks)
    (member : (target, n, used) ∈ starts a blocks) :
    Holds (write mem target (mem target &&& 0xFFFFFFFE)) a (release target a blocks) := by
  induction blocks generalizing a with
  | nil => cases member
  | cons block rest ih =>
      obtain ⟨m, u⟩ := block
      obtain ⟨word, aligned, link⟩ := holds
      rw [extent_cons] at fits
      have after := after_toNat a m (by omega)
      have a4 : (a + 4).toNat = a.toNat + 4 := toNat_add_of_lt a 4 (by simp; omega)
      rw [release]
      by_cases here : a = target
      · subst here
        have fdApart : a + 4 ≠ a := ne_of_toNat (by omega)
        rw [if_pos rfl]
        refine ⟨?_, aligned, ?_⟩
        · rw [write, if_pos rfl, toNat_and_high _ 0xFFFFFFFE 1 (by decide) rfl, word]
          have bit := u.toNat_le
          simp only [Bool.toNat_false]
          omega
        · rw [write, if_neg fdApart]
          rcases link with last | ⟨next, holds⟩
          · exact .inl last
          · refine .inr ⟨next, holds_congr mem _ rest _ (by omega) ?_ holds⟩
            intro x low _
            rw [write, if_neg (ne_of_toNat (by omega))]
      · rw [if_neg here]
        rcases List.mem_cons.mp member with same | later
        · cases same
          exact absurd rfl here
        rcases link with ⟨rfl, _⟩ | ⟨next, holds⟩
        · cases later
        have bounds := starts_bounds rest _ target n used (by omega) later
        refine ⟨?_, aligned, .inr ⟨?_, ih _ (by omega) holds later⟩⟩
        · rw [write, if_neg here, word]
        · rw [write, if_neg (ne_of_toNat (by omega)), next]

/-- The heap tiles its range with blocks, and every live pointer is the payload of
a used one. -/
structure Tiled (s : State) (blocks : Blocks) : Prop where
  holds : Holds s.mem heap blocks
  fits : heap.toNat + extent blocks < 2 ^ 32
  nodup : s.live.Nodup
  live : ∀ p ∈ s.live, ∃ n, (p - 12, n, true) ∈ starts heap blocks

theorem initial_tiled (mem : Mem) : Tiled (initial mem) [(40960, false)] where
  holds := ⟨rfl, rfl, .inl ⟨rfl, rfl⟩⟩
  fits := by decide
  nodup := List.nodup_nil
  live := by
    intro p member
    cases member

theorem malloc_eq {s t : State} {size : UInt32} (taken : step s (.malloc size) = some t) :
    ∃ b, firstFit s.mem (roundUp size) = some b ∧
      t = ⟨place s.mem b (roundUp size), (b + 12) :: s.live⟩ := by
  obtain ⟨⟨mem, ptr⟩, allocated, rfl⟩ := Option.map_eq_some_iff.mp taken
  obtain ⟨b, found, pair⟩ := Option.map_eq_some_iff.mp allocated
  cases pair
  exact ⟨b, found, rfl⟩

theorem place_tiled {s : State} {size b : UInt32} {blocks : Blocks} (inv : Tiled s blocks)
    (room : SplitFits s (.malloc size)) (found : firstFit s.mem (roundUp size) = some b) :
    Tiled ⟨place s.mem b (roundUp size), (b + 12) :: s.live⟩
        (allocate (roundUp size).toNat blocks) ∧
      extent (allocate (roundUp size).toNat blocks) = extent blocks := by
  obtain ⟨placed, roomy, ⟨n, target⟩, m, now⟩ :=
    holds_place s.mem (roundUp size) (roundUp_aligned size) blocks _ heap b inv.fits inv.holds
      found (room b found)
  have back : b + 12 - 12 = b := UInt32.add_sub_cancel b 12
  have whole := extent_allocate _ _ roomy
  refine ⟨⟨placed, ?_, ?_, ?_⟩, whole⟩
  · rw [whole]
    exact inv.fits
  · refine List.nodup_cons.mpr ⟨?_, inv.nodup⟩
    intro already
    obtain ⟨k, used⟩ := inv.live _ already
    rw [back] at used
    have free := (holds_word s.mem blocks heap b n false inv.holds target)
    have taken := (holds_word s.mem blocks heap b k true inv.holds used)
    simp only [Bool.toNat_false, Bool.toNat_true] at free taken
    omega
  · intro p member
    rcases List.mem_cons.mp member with rfl | earlier
    · exact ⟨m, by rw [back]; exact now⟩
    · obtain ⟨k, used⟩ := inv.live p earlier
      exact ⟨k, allocate_keeps_used _ blocks heap _ k inv.fits roomy used⟩

theorem free_eq {s t : State} {ptr : UInt32} (taken : step s (.free ptr) = some t) :
    ptr ∈ s.live ∧ t = ⟨free s.mem ptr, s.live.erase ptr⟩ := by
  simp only [step] at taken
  split at taken
  · rename_i member
    exact ⟨member, (Option.some.inj taken).symm⟩
  · cases taken

theorem free_tiled {s : State} {ptr : UInt32} {blocks : Blocks} (inv : Tiled s blocks)
    (member : ptr ∈ s.live) :
    Tiled ⟨free s.mem ptr, s.live.erase ptr⟩ (release (ptr - 12) heap blocks) := by
  obtain ⟨n, used⟩ := inv.live ptr member
  refine ⟨holds_release s.mem (ptr - 12) blocks heap n true inv.fits inv.holds used, ?_,
    inv.nodup.erase ptr, ?_⟩
  · rw [extent_release]
    exact inv.fits
  · intro p stays
    have kept := (inv.nodup.mem_erase_iff).mp stays
    obtain ⟨k, still⟩ := inv.live p kept.2
    refine ⟨k, release_keeps_used _ blocks heap _ k ?_ still⟩
    intro same
    exact kept.1 ((UInt32.sub_left_inj 12).mp same)

theorem step_tiled {whole : Nat} (s : State) (a : Act) (t : State)
    (inv : ∃ blocks, Tiled s blocks ∧ extent blocks = whole) (room : SplitFits s a)
    (taken : step s a = some t) : ∃ blocks, Tiled t blocks ∧ extent blocks = whole := by
  obtain ⟨blocks, inv, same⟩ := inv
  cases a with
  | malloc size =>
      obtain ⟨b, found, rfl⟩ := malloc_eq taken
      have placed := place_tiled inv room found
      exact ⟨_, placed.1, placed.2.trans same⟩
  | free ptr =>
      obtain ⟨member, rfl⟩ := free_eq taken
      exact ⟨_, free_tiled inv member, (extent_release ..).trans same⟩

theorem run_tiled {mem : Mem} {s : State} (run : Run step SplitFits (initial mem) s) :
    ∃ blocks, Tiled s blocks ∧ extent blocks = 12 + 40960 :=
  run.invariant (fun t => ∃ blocks, Tiled t blocks ∧ extent blocks = 12 + 40960)
    ⟨_, initial_tiled mem, rfl⟩ step_tiled

theorem payload_toNat (blocks : Blocks) (p : UInt32) (n : Nat)
    (fits : heap.toNat + extent blocks < 2 ^ 32) (member : (p - 12, n, true) ∈ starts heap blocks) :
    p.toNat = (p - 12).toNat + 12 := by
  have bounds := starts_bounds blocks heap (p - 12) n true fits member
  have back : p - 12 + 12 = p := UInt32.sub_add_cancel p 12
  calc
    p.toNat = (p - 12 + 12).toNat := by rw [back]
    _ = (p - 12).toNat + 12 := toNat_add_of_lt _ _ (by simp only [UInt32.reduceToNat]; omega)

theorem tiled_disjoint (s : State) (blocks : Blocks) (inv : Tiled s blocks) : HeapDisjoint s := by
  have size (b : UInt32) (n : Nat) (used : Bool) (member : (b, n, used) ∈ starts heap blocks) :
      recorded s.mem b = n := by
    obtain ⟨word, aligned⟩ := holds_word s.mem blocks heap b n used inv.holds member
    have bit := used.toNat_le
    rw [recorded_eq, word]
    omega
  refine ⟨?_, ?_, ?_⟩
  · intro b c listedB listedC other
    obtain ⟨n, u, first⟩ := onList_starts s.mem blocks inv.holds b listedB
    obtain ⟨m, v, second⟩ := onList_starts s.mem blocks inv.holds c listedC
    rw [size b n u first, size c m v second]
    exact starts_separate blocks heap b c n m u v inv.fits first second other
  · refine inv.nodup.imp_of_mem ?_
    intro p q memberP memberQ other
    obtain ⟨n, first⟩ := inv.live p memberP
    obtain ⟨m, second⟩ := inv.live q memberQ
    have blocksApart := starts_separate blocks heap _ _ n m true true inv.fits first second
      (fun same => other ((UInt32.sub_left_inj 12).mp same))
    rw [size _ n true first, size _ m true second]
    have startP := payload_toNat blocks p n inv.fits first
    have startQ := payload_toNat blocks q m inv.fits second
    unfold Apart at blocksApart ⊢
    omega
  · intro p member b listed
    obtain ⟨n, first⟩ := inv.live p member
    obtain ⟨m, v, second⟩ := onList_starts s.mem blocks inv.holds b listed
    have startP := payload_toNat blocks p n inv.fits first
    rw [size _ n true first]
    by_cases own : p - 12 = b
    · exact .inr (by rw [← own]; omega)
    · have blocksApart := starts_separate blocks heap _ _ n m true v inv.fits first second own
      unfold Apart at blocksApart ⊢
      omega

/-- From the heap `init_libc` builds, as long as every block that is split has room
for the second descriptor, blocks and payloads stay disjoint. -/
theorem splitFits_run_disjoint (mem : Mem) (s : State)
    (run : Run step SplitFits (initial mem) s) : HeapDisjoint s := by
  obtain ⟨blocks, inv, _⟩ := run_tiled run
  exact tiled_disjoint s blocks inv

theorem malloc_hundred_disjoint :
    ∃ s, Run step SplitFits (initial fun _ => 0) s ∧ s.live = [heap + 12] ∧ HeapDisjoint s := by
  have found : firstFit (initial fun _ => 0).mem (roundUp 100) = some heap := by rfl
  have room : SplitFits (initial fun _ => 0) (.malloc 100) := by
    intro block result _
    rw [found] at result
    cases result
    decide
  have run : Run step SplitFits (initial fun _ => 0) _ := Run.refl.next (.malloc 100) room rfl
  exact ⟨_, run, rfl, splitFits_run_disjoint (fun _ => 0) _ run⟩

/-- `malloc(4)`, `free` of it, `malloc(0)`: the freed four bytes are split, and the
second descriptor, of size `-8`, lands on the next block's. -/
theorem small_split_overlaps :
    ¬ ∀ (mem : Mem) (s : State), Run step anyStep (initial mem) s → HeapDisjoint s := by
  intro claim
  have result : ∃ s, runList step (initial fun _ => 0) [.malloc 4, .free (heap + 12), .malloc 0] =
      some s ∧ s.mem (heap + 4) = heap + 12 ∧ s.mem (heap + 16) = heap + 16 ∧
      s.mem (heap + 12) = 0xFFFFFFF8 := by
    refine ⟨_, (Option.some_get (by rfl)).symm, ?_, ?_, ?_⟩ <;> rfl
  obtain ⟨s, reached, first, second, size⟩ := result
  have disjoint := claim _ s (Run.of_runList _ (fun _ _ _ => trivial) reached)
  have b : OnList s.mem (heap + 12) := first ▸ OnList.head.next (by rw [first]; decide)
  have c : OnList s.mem (heap + 16) := by
    have link : s.mem (heap + 12 + 4) = heap + 16 := second
    exact link ▸ b.next (by rw [link]; decide)
  have apart := disjoint.blocks _ _ b c (by decide)
  have large : recorded s.mem (heap + 12) = 0xFFFFFFF8 := by
    rw [recorded, size]
    rfl
  rw [large] at apart
  have low : (heap + 12).toNat = 0x1000000c := by decide
  have high : (heap + 16).toNat = 0x10000010 := by decide
  rw [Apart, low, high] at apart
  omega

end TitorOS.Barrel.Malloc
