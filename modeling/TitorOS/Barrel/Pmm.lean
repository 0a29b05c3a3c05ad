import TitorOS.Lib.PageWord
import TitorOS.Lib.Search
import Mathlib.Order.Bounds.Basic

/-! The page frame bitmap of `kernel/pmm.c`. -/

namespace TitorOS.Barrel.Pmm

open TitorOS.Lib

/-- `pf_bitmap`, by word index. -/
abbrev Bitmap := Nat → Word

def BITMAP_WORDS : Nat := 0x8000

def puse (bitmap : Bitmap) (f : Frame) : Bitmap :=
  let shift := f.toNat % 32
  let index := f.toNat / 32
  Function.update bitmap index (bitmap index ||| 0x1#32 <<< shift)

def pfree (bitmap : Bitmap) (f : Frame) : Bitmap :=
  let shift := f.toNat % 32
  let index := f.toNat / 32
  Function.update bitmap index (bitmap index &&& ~~~(0x1#32 <<< shift))

/-- `none` is "Out of memory!". -/
def pmalloc (bitmap : Bitmap) : Option (Frame × Bitmap) := do
  let i ← firstFrom (fun i => bitmap i != 0xFFFFFFFF#32) BITMAP_WORDS 0
  let shift ← firstFrom (fun shift => (~~~(bitmap i) >>> shift) &&& 0x1#32 == 0x1#32) 32 0
  let page : Frame := BitVec.ofNat 20 (i * 32 + shift)
  return (page, puse bitmap page)

/-- The first 8 MiB are in use. -/
def initPfBitmap : Bitmap :=
  (List.range 0x800).foldl (fun bitmap page => puse bitmap (BitVec.ofNat 20 page)) fun _ => 0#32

def used (bitmap : Bitmap) (f : Frame) : Bool := (bitmap (f.toNat / 32)).getLsbD (f.toNat % 32)

theorem oneBit_getLsbD (shift i : Nat) (bound : i < 32) :
    (0x1#32 <<< shift).getLsbD i = decide (i = shift) := by
  rw [BitVec.getLsbD_shiftLeft, BitVec.getLsbD_one]
  by_cases same : i = shift
  · simp [same, same ▸ bound]
  · by_cases below : i < shift
    · simp [same, below]
    · have apart : i - shift ≠ 0 := by omega
      simp [same, apart]

theorem index_eq (f g : Frame) :
    g = f ↔ g.toNat / 32 = f.toNat / 32 ∧ g.toNat % 32 = f.toNat % 32 := by
  rw [← BitVec.toNat_inj]
  omega

theorem used_puse (bitmap : Bitmap) (f g : Frame) :
    used (puse bitmap f) g = (decide (g = f) || used bitmap g) := by
  by_cases same : g.toNat / 32 = f.toNat / 32
  · simp only [used, puse, same, Function.update_self, BitVec.getLsbD_or,
      oneBit_getLsbD _ _ (Nat.mod_lt _ (by decide : 0 < 32)), index_eq, true_and]
    exact Bool.or_comm ..
  · have other : g ≠ f := fun equal => same (by rw [equal])
    simp [used, puse, Function.update_of_ne same, other]

theorem used_pfree (bitmap : Bitmap) (f g : Frame) :
    used (pfree bitmap f) g = (decide (g ≠ f) && used bitmap g) := by
  by_cases same : g.toNat / 32 = f.toNat / 32
  · have bound := Nat.mod_lt g.toNat (by decide : 0 < 32)
    simp only [used, pfree, same, Function.update_self, BitVec.getLsbD_and, BitVec.getLsbD_not,
      oneBit_getLsbD _ _ bound, bound, decide_true, Bool.true_and, ne_eq, index_eq, true_and,
      decide_not]
    exact Bool.and_comm ..
  · have other : g ≠ f := fun equal => same (by rw [equal])
    simp [used, pfree, Function.update_of_ne same, other]

theorem bit_test (w : Word) (shift : Nat) (small : shift < 32) :
    ((~~~w >>> shift) &&& 0x1#32 == 0x1#32) = !w.getLsbD shift := by
  rw [BitVec.and_one_eq_setWidth_ofBool_getLsbD, BitVec.getLsbD_ushiftRight, BitVec.getLsbD_not,
    Nat.add_zero]
  cases w.getLsbD shift
  · simp [small]
  · simp [small]

theorem exists_clear_bit (w : Word) (room : w ≠ 0xFFFFFFFF#32) : ∃ i < 32, w.getLsbD i = false := by
  by_contra full
  apply room
  apply BitVec.eq_of_getLsbD_eq
  intro i bound
  have set : w.getLsbD i = true := by
    by_contra clear
    exact full ⟨i, bound, by simpa using clear⟩
  have ones : (0xFFFFFFFF#32).getLsbD i = true := by
    interval_cases i <;> rfl
  rw [set, ones]

/-- The loop over the bits of a word with a clear bit stops within the word, however far
its counter could run. -/
theorem bit_search_stops (w : Word) (room : w ≠ 0xFFFFFFFF#32) (fuel : Nat) (enough : 32 ≤ fuel) :
    ∃ shift ≤ 31, w.getLsbD shift = false ∧
      (∀ earlier < shift, w.getLsbD earlier = true) ∧
      firstFrom (fun shift => (~~~w >>> shift) &&& 0x1#32 == 0x1#32) fuel 0 = some shift := by
  rcases exists_clear_bit w room with ⟨i, inside, clear⟩
  cases search : firstFrom (fun shift => (~~~w >>> shift) &&& 0x1#32 == 0x1#32) fuel 0 with
  | none =>
      have fails := firstFrom_none _ _ _ search i (by omega) (by omega)
      simp [bit_test w i inside, clear] at fails
  | some shift =>
      rcases firstFrom_some _ _ _ _ search with ⟨_, _, passes, earlier⟩
      have small : shift ≤ i := by
        by_contra later
        have fails := earlier i (by omega) (by omega)
        simp [bit_test w i inside, clear] at fails
      have bits : ∀ j < shift, w.getLsbD j = true := by
        intro j before
        have fails := earlier j (by omega) before
        simpa [bit_test w j (by omega)] using fails
      rw [bit_test w shift (by omega)] at passes
      exact ⟨shift, by omega, by simpa using passes, bits, rfl⟩

theorem used_full (bitmap : Bitmap) (f : Frame) (full : bitmap (f.toNat / 32) = 0xFFFFFFFF#32) :
    used bitmap f = true := by
  have ones : ∀ i < 32, (0xFFFFFFFF#32).getLsbD i = true := by decide
  rw [used, full, ones _ (Nat.mod_lt _ (by decide))]

theorem pmalloc_lowest (bitmap bitmap' : Bitmap) (f : Frame)
    (taken : pmalloc bitmap = some (f, bitmap')) :
    used bitmap f = false ∧ (∀ g, used bitmap g = false → f ≤ g) ∧ bitmap' = puse bitmap f := by
  simp only [pmalloc, Option.bind_eq_bind, Option.bind_eq_some_iff, Option.pure_def,
    Option.some.injEq, Prod.mk.injEq] at taken
  rcases taken with ⟨i, word, shift, bit, page, rfl⟩
  rcases firstFrom_some _ _ _ _ word with ⟨_, high, passes, full⟩
  rcases bit_search_stops (bitmap i) (by simpa using passes) 32 (Nat.le_refl _) with
    ⟨stop, small, clear, earlier, search⟩
  cases search.symm.trans bit
  simp only [BITMAP_WORDS] at high
  have number : f.toNat = i * 32 + shift := by
    rw [← page, BitVec.toNat_ofNat]
    exact Nat.mod_eq_of_lt (by omega)
  refine ⟨?_, ?_, by rw [page]⟩
  · rw [used, number, show (i * 32 + shift) / 32 = i by omega,
      show (i * 32 + shift) % 32 = shift by omega, clear]
  · intro g free
    rw [BitVec.le_def, number]
    by_contra lower
    by_cases word_before : g.toNat / 32 < i
    · have whole := full (g.toNat / 32) (by omega) word_before
      rw [used_full bitmap g (by simpa using whole)] at free
      cases free
    · have here : g.toNat / 32 = i := by omega
      rw [used, here, earlier (g.toNat % 32) (by omega)] at free
      cases free

theorem pmalloc_spec (bitmap bitmap' : Bitmap) (f : Frame)
    (taken : pmalloc bitmap = some (f, bitmap')) :
    used bitmap f = false ∧ bitmap' = puse bitmap f := by
  rcases pmalloc_lowest bitmap bitmap' f taken with ⟨free, _, marked⟩
  exact ⟨free, marked⟩

/-- Memory runs out only when every frame is in use. -/
theorem pmalloc_isSome (bitmap : Bitmap) (f : Frame) (free : used bitmap f = false) :
    (pmalloc bitmap).isSome = true := by
  have bound := f.isLt
  have room : bitmap (f.toNat / 32) ≠ 0xFFFFFFFF#32 := by
    intro full
    rw [used_full bitmap f full] at free
    cases free
  cases word : firstFrom (fun i => bitmap i != 0xFFFFFFFF#32) BITMAP_WORDS 0 with
  | none =>
      have full := firstFrom_none _ _ _ word (f.toNat / 32) (by omega)
        (by simp only [BITMAP_WORDS]; omega)
      simp [room] at full
  | some i =>
      rcases firstFrom_some _ _ _ _ word with ⟨_, _, passes, _⟩
      rcases bit_search_stops (bitmap i) (by simpa using passes) 32 (Nat.le_refl _) with
        ⟨shift, _, _, _, bit⟩
      simp [pmalloc, word, bit]

theorem puse_getLsbD (bitmap : Bitmap) (f : Frame) (i j : Nat) (bound : j < 32) :
    (puse bitmap f i).getLsbD j = (decide (i * 32 + j = f.toNat) || (bitmap i).getLsbD j) := by
  by_cases here : i = f.toNat / 32
  · rw [puse, here, Function.update_self, BitVec.getLsbD_or, oneBit_getLsbD _ _ bound, Bool.or_comm]
    congr 2
    simp only [eq_iff_iff]
    omega
  · have other : i * 32 + j ≠ f.toNat := by omega
    rw [puse, Function.update_of_ne here, decide_eq_false other, Bool.false_or]

theorem foldl_puse_getLsbD (pages : List Nat) (bitmap : Bitmap) (small : ∀ page ∈ pages, page < 2 ^ 20)
    (i j : Nat) (bound : j < 32) :
    (pages.foldl (fun bitmap page => puse bitmap (BitVec.ofNat 20 page)) bitmap i).getLsbD j =
      (decide (i * 32 + j ∈ pages) || (bitmap i).getLsbD j) := by
  induction pages generalizing bitmap with
  | nil => simp
  | cons page rest ih =>
      rw [List.foldl_cons, ih _ fun p member => small p (List.mem_cons_of_mem page member),
        puse_getLsbD _ _ _ _ bound, BitVec.toNat_ofNat,
        Nat.mod_eq_of_lt (small page List.mem_cons_self)]
      simp only [List.mem_cons]
      by_cases first : i * 32 + j = page
      · simp [first]
      · simp [first]

theorem initPfBitmap_getLsbD (i j : Nat) (bound : j < 32) :
    (initPfBitmap i).getLsbD j = decide (i * 32 + j < 0x800) := by
  rw [initPfBitmap, foldl_puse_getLsbD _ _ _ i j bound]
  · simp
  · intro page member
    have := List.mem_range.mp member
    omega

theorem used_init (f : Frame) : used initPfBitmap f = decide (f.toNat < 0x800) := by
  rw [used, initPfBitmap_getLsbD _ _ (Nat.mod_lt _ (by decide))]
  congr 1
  simp only [eq_iff_iff]
  omega

theorem initPfBitmap_eq : initPfBitmap = fun i => if i < 64 then 0xFFFFFFFF#32 else 0#32 := by
  funext i
  apply BitVec.eq_of_getLsbD_eq
  intro j bound
  rw [initPfBitmap_getLsbD i j bound]
  split
  · have ones : ∀ j < 32, (0xFFFFFFFF#32).getLsbD j = true := by decide
    rw [ones j bound]
    exact decide_eq_true (by omega)
  · rw [BitVec.getLsbD_zero]
    exact decide_eq_false (by omega)

/-- A call on the allocator, with the addresses its callers pass. -/
inductive Call where
  | puse (paddr : Word)
  | pfree (paddr : Word)
  | pmalloc

/-- The address `pmalloc` returns, and the bitmap after the call. -/
def call (bitmap : Bitmap) : Call → Option (Option Word × Bitmap)
  | .puse paddr => some (none, puse bitmap paddr.frame)
  | .pfree paddr => some (none, pfree bitmap paddr.frame)
  | .pmalloc => (pmalloc bitmap).map fun taken => (some (Word.address taken.1), taken.2)

def runCalls : Bitmap → List Call → Option (List (Option Word) × Bitmap)
  | bitmap, [] => some ([], bitmap)
  | bitmap, c :: rest => do
      let (answer, bitmap) ← call bitmap c
      let (answers, bitmap) ← runCalls bitmap rest
      return (answer :: answers, bitmap)

/-- What the allocator is for: a set of frames in use, and a supply of the lowest frame
outside it. -/
inductive FrameCall (frames : Set Frame) : Call → Option Word → Set Frame → Prop
  | puse (paddr : Word) : FrameCall frames (.puse paddr) none (insert paddr.frame frames)
  | pfree (paddr : Word) : FrameCall frames (.pfree paddr) none (frames \ {paddr.frame})
  | pmalloc (f : Frame) (lowest : IsLeast framesᶜ f) :
      FrameCall frames .pmalloc (some (Word.address f)) (insert f frames)

inductive FrameRun : Set Frame → List Call → List (Option Word) → Set Frame → Prop
  | nil (frames : Set Frame) : FrameRun frames [] [] frames
  | cons {frames next last : Set Frame} {c : Call} {rest : List Call} {answer : Option Word}
      {answers : List (Option Word)} (first : FrameCall frames c answer next)
      (onward : FrameRun next rest answers last) :
      FrameRun frames (c :: rest) (answer :: answers) last

/-- The set a bitmap stands for. -/
def represented (bitmap : Bitmap) : Set Frame := {f | used bitmap f = true}

theorem represented_init : represented initPfBitmap = {f | (Word.address f).toNat < 0x800000} := by
  ext f
  simp only [represented, used_init, Word.toNat_address, Set.mem_ofPred_eq, decide_eq_true_eq]
  omega

theorem represented_puse (bitmap : Bitmap) (f : Frame) :
    represented (puse bitmap f) = insert f (represented bitmap) := by
  ext g
  simp [represented, used_puse]

theorem represented_pfree (bitmap : Bitmap) (f : Frame) :
    represented (pfree bitmap f) = represented bitmap \ {f} := by
  ext g
  simp [represented, used_pfree, and_comm]

theorem pmalloc_isLeast (bitmap bitmap' : Bitmap) (f : Frame)
    (taken : pmalloc bitmap = some (f, bitmap')) : IsLeast (represented bitmap)ᶜ f := by
  rcases pmalloc_lowest bitmap bitmap' f taken with ⟨free, lowest, _⟩
  constructor
  · simp [represented, free]
  · intro g outside
    exact lowest g (by simpa [represented] using outside)

theorem pmalloc_none_iff (bitmap : Bitmap) :
    pmalloc bitmap = none ↔ represented bitmap = Set.univ := by
  constructor
  · intro out
    ext f
    by_contra free
    have goes := pmalloc_isSome bitmap f (by simpa [represented] using free)
    simp [out] at goes
  · intro full
    cases taken : pmalloc bitmap with
    | none => rfl
    | some result =>
        have lowest := pmalloc_isLeast bitmap result.2 result.1 taken
        simpa [full] using lowest.1

theorem call_frames (bitmap bitmap' : Bitmap) (c : Call) (answer : Option Word)
    (goes : call bitmap c = some (answer, bitmap')) :
    FrameCall (represented bitmap) c answer (represented bitmap') := by
  cases c with
  | puse paddr =>
      cases goes
      rw [represented_puse]
      exact .puse paddr
  | pfree paddr =>
      cases goes
      rw [represented_pfree]
      exact .pfree paddr
  | pmalloc =>
      rw [call, Option.map_eq_some_iff] at goes
      rcases goes with ⟨⟨f, after⟩, taken, equal⟩
      cases equal
      have marked := (pmalloc_spec bitmap after f taken).2
      rw [marked, represented_puse]
      exact .pmalloc f (pmalloc_isLeast bitmap after f taken)

theorem runCalls_frames (calls : List Call) (bitmap bitmap' : Bitmap) (answers : List (Option Word))
    (ran : runCalls bitmap calls = some (answers, bitmap')) :
    FrameRun (represented bitmap) calls answers (represented bitmap') := by
  induction calls generalizing bitmap answers with
  | nil =>
      cases ran
      exact .nil _
  | cons c rest ih =>
      simp only [runCalls, Option.bind_eq_bind, Option.bind_eq_some_iff, Option.pure_def,
        Option.some.injEq, Prod.mk.injEq, Prod.exists] at ran
      rcases ran with ⟨answer, next, goes, onward, last, rest_ran, rfl, rfl⟩
      exact .cons (call_frames bitmap next c answer goes) (ih next onward rest_ran)

/-- For every sequence of calls the bitmap stands for the set of frames in use; a call on
it that does not return is a `pmalloc` with every frame in use. -/
theorem bitmap_refines (calls : List Call) (bitmap : Bitmap) (answers : List (Option Word))
    (ran : runCalls initPfBitmap calls = some (answers, bitmap)) :
    FrameRun {f | (Word.address f).toNat < 0x800000} calls answers (represented bitmap) ∧
      (∀ c, call bitmap c = none ↔ c = .pmalloc ∧ represented bitmap = Set.univ) ∧
      ∀ i, firstFrom (fun i => bitmap i != 0xFFFFFFFF#32) BITMAP_WORDS 0 = some i →
        ∀ fuel, 32 ≤ fuel → ∃ shift ≤ 31,
          firstFrom (fun shift => (~~~(bitmap i) >>> shift) &&& 0x1#32 == 0x1#32) fuel 0 =
            some shift := by
  refine ⟨?_, ?_, ?_⟩
  · rw [← represented_init]
    exact runCalls_frames calls initPfBitmap bitmap answers ran
  · intro c
    cases c with
    | puse paddr => simp [call]
    | pfree paddr => simp [call]
    | pmalloc => simp [call, pmalloc_none_iff]
  · intro i word fuel enough
    have passes := (firstFrom_some _ _ _ _ word).2.2.1
    rcases bit_search_stops (bitmap i) (by simpa using passes) fuel enough with
      ⟨shift, small, _, _, search⟩
    exact ⟨shift, small, search⟩

/-- The frame at 8 MiB is the first one out, and again after it is given back. -/
theorem bitmap_refines_first : ∃ bitmap,
    FrameRun {f | (Word.address f).toNat < 0x800000}
      [.pmalloc, .puse 0xFFFFF000#32, .pmalloc, .pfree 0x800000#32, .pmalloc]
      [some 0x800000#32, none, some 0x801000#32, none, some 0x800000#32] (represented bitmap) := by
  have ran : (runCalls initPfBitmap
      [.pmalloc, .puse 0xFFFFF000#32, .pmalloc, .pfree 0x800000#32, .pmalloc]).map (·.1) =
        some [some 0x800000#32, none, some 0x801000#32, none, some 0x800000#32] := by
    rw [initPfBitmap_eq]
    decide +kernel
  rcases Option.map_eq_some_iff.mp ran with ⟨⟨answers, bitmap⟩, result, rfl⟩
  exact ⟨bitmap, (bitmap_refines _ bitmap _ result).1⟩

end TitorOS.Barrel.Pmm
