import TitorOS.Lib.Slots
import TitorOS.Barrel.Mmap

/-! `mmap` at an address in user memory, with the page faults its stores take: when it runs
through, what it maps, and what it leaves alone. -/

namespace TitorOS.Barrel.Vmm

open TitorOS.Lib TitorOS.Lib.Word TitorOS.Barrel.Pmm

/-- A store by the kernel while faults are allowed, with the number of faults it takes. On a page
that is not present `page_fault` takes a frame, stores its entry, which may fault in turn, and
clears the page; then the store is done again. -/
def faultingStore : Nat → State → VAddr → Word → Option (State × Nat)
  | 0, _, _, _ => none
  | depth + 1, s, v, w =>
      match pageFrame s v.toVPage with
      | some f => some (s.write f v.word w, 0)
      | none => do
          let (f, bitmap) ← pmalloc s.bitmap
          let (s, inner) ← faultingStore depth { s with bitmap := bitmap } (pageEntry v.toVPage)
            (address f + 0b100000000111#32)
          let cleared ← pageFrame s v.toVPage
          let (s, again) ← faultingStore depth (s.writeFrame cleared fun _ => 0#32) v w
          return (s, inner + 1 + again)

/-- One round of the loop in `mmap`. -/
def mapPageFaults (depth : Nat) (s : State) (page : VPage) : Option (State × Nat) := do
  let (f, bitmap) ← pmalloc s.bitmap
  faultingStore depth { s with bitmap := bitmap } (pageEntry page) (address f ||| 0b100000000111#32)

/-- The faults of each round, the last one first. -/
def mapPagesFaults (depth : Nat) (base : BitVec 32) : Nat → Nat → State → List Nat →
    Option (State × List Nat)
  | 0, _, s, faults => some (s, faults)
  | count + 1, i, s, faults => do
      let (s, n) ← mapPageFaults depth s (decode (base + 0x1000#32 * BitVec.ofNat 32 i)).toVPage
      mapPagesFaults depth base count (i + 1) s (n :: faults)

def mmapFaults (depth : Nat) (s : State) (hint length : BitVec 32) (flags : BitVec 8) :
    Option (State × List Nat) :=
  mapPagesFaults depth (mmapBase hint flags) (noPages length) 0 s []

/-- A directory that maps itself, each of its tables in a frame of its own that is marked. -/
structure Tables (s : State) : Prop where
  self : (s.mem s.cr3 1023#10).present = true ∧ (s.mem s.cr3 1023#10).frame = s.cr3
  marked : ∀ i, (s.mem s.cr3 i).present = true → used s.bitmap (s.mem s.cr3 i).frame = true
  apart : ∀ i j, (s.mem s.cr3 i).present = true → (s.mem s.cr3 j).present = true →
    (s.mem s.cr3 i).frame = (s.mem s.cr3 j).frame → i = j

theorem Space.tables {s : State} (space : Space s) : Tables s :=
  ⟨space.self, space.marked, space.apart⟩

theorem Tables.cr3_marked {s : State} (tables : Tables s) : used s.bitmap s.cr3 = true := by
  rw [← tables.self.2]
  exact tables.marked _ tables.self.1

theorem Tables.frame_ne {s : State} (tables : Tables s) {i : Index}
    (present : (s.mem s.cr3 i).present = true) (early : i ≠ 1023#10) :
    (s.mem s.cr3 i).frame ≠ s.cr3 := by
  intro equal
  exact early (tables.apart i 1023#10 present tables.self.1 (equal.trans tables.self.2.symm))

theorem Tables.claim {s : State} (tables : Tables s) {bitmap : Bitmap}
    (grows : ∀ f, used s.bitmap f = true → used bitmap f = true) :
    Tables { s with bitmap := bitmap } :=
  ⟨tables.self, fun i present => grows _ (tables.marked i present), tables.apart⟩

section Frames

def usedNumber (bitmap : Bitmap) (i : Nat) : Bool := used bitmap (BitVec.ofNat 20 i)

/-- How many frames are not in use. -/
def freeFrames (bitmap : Bitmap) : Nat := freeSlots (2 ^ 20) (usedNumber bitmap)

theorem used_puse_number (bitmap : Bitmap) (f : Frame) (i : Nat) (small : i < 2 ^ 20) :
    usedNumber (puse bitmap f) i = Function.update (usedNumber bitmap) f.toNat true i := by
  have same : BitVec.ofNat 20 i = f ↔ i = f.toNat := by
    rw [← BitVec.toNat_inj, BitVec.toNat_ofNat, Nat.mod_eq_of_lt small]
  rw [usedNumber, used_puse, Function.update_apply, usedNumber]
  by_cases here : i = f.toNat
  · simp [here]
  · simp [here, mt same.mp here]

theorem freeFrames_puse (bitmap : Bitmap) (f : Frame) (free : used bitmap f = false) :
    freeFrames (puse bitmap f) + 1 = freeFrames bitmap := by
  have number : usedNumber bitmap f.toNat = false := by
    rw [usedNumber, BitVec.ofNat_toNat, BitVec.setWidth_eq, free]
  have taken := freeSlots_take f.isLt number
  rw [freeFrames, freeFrames, ← taken, freeSlots_congr (used_puse_number bitmap f)]

theorem pmalloc_room (bitmap : Bitmap) (room : 0 < freeFrames bitmap) :
    ∃ f, pmalloc bitmap = some (f, puse bitmap f) ∧ used bitmap f = false ∧
      freeFrames (puse bitmap f) + 1 = freeFrames bitmap := by
  rcases exists_free room with ⟨i, _, free⟩
  have goes := pmalloc_isSome bitmap _ free
  rcases Option.isSome_iff_exists.mp goes with ⟨⟨f, bitmap'⟩, taken⟩
  rcases pmalloc_spec bitmap bitmap' f taken with ⟨unmarked, rfl⟩
  exact ⟨f, taken, unmarked, freeFrames_puse bitmap f unmarked⟩

end Frames

section Invariant

variable {s₀ s : State} {pages : VPage → Prop} {made : Index → Prop} {taken : Frame → Prop}

/-- The entry of a page, in the table its directory entry points to. -/
def entryAt (s : State) (p : VPage) : Word := s.mem (s.mem s.cr3 p.dir).frame p.table

def USER_ENTRY : Word := 0b100000000111#32

/-- In the middle of the loop: `pages` are set, the tables of `made` are there, and the frames
of the pages are among `taken`. -/
structure Demand (s₀ : State) (pages : VPage → Prop) (made : Index → Prop) (taken : Frame → Prop)
    (s : State) : Prop where
  start : Tables s₀
  tables : Tables s
  cr3 : s.cr3 = s₀.cr3
  marks : ∀ f, used s₀.bitmap f = true → used s.bitmap f = true
  taken_marks : ∀ f, taken f → used s.bitmap f = true
  old : ∀ i, (s₀.mem s₀.cr3 i).present = true → s.mem s.cr3 i = s₀.mem s₀.cr3 i
  idle : ∀ i, (s₀.mem s₀.cr3 i).present = false → ¬made i → s.mem s.cr3 i = s₀.mem s₀.cr3 i
  new : ∀ i, (s₀.mem s₀.cr3 i).present = false → made i →
    (s.mem s.cr3 i).present = true ∧ (s.mem s.cr3 i).user = true ∧ (s.mem s.cr3 i).writable = true ∧
      ∀ j, ¬pages ⟨i, j⟩ → entryAt s ⟨i, j⟩ = 0#32
  set : ∀ p, pages p → (s.mem s.cr3 p.dir).present = true ∧ p.dir ≠ 1023#10 ∧
    ∃ f, entryAt s p = address f ||| USER_ENTRY ∧ used s₀.bitmap f = false ∧ taken f
  distinct : ∀ p q, pages p → pages q → (entryAt s p).frame = (entryAt s q).frame → p = q
  kept : ∀ p, (s₀.mem s₀.cr3 p.dir).present = true → p.dir ≠ 1023#10 → ¬pages p →
    entryAt s p = entryAt s₀ p

theorem Tables.demand (tables : Tables s₀) :
    Demand s₀ (fun _ => False) (fun _ => False) (fun _ => False) s₀ where
  start := tables
  tables := tables
  cr3 := rfl
  marks := fun _ => id
  taken_marks := fun _ => False.elim
  old := fun _ _ => rfl
  idle := fun _ _ _ => rfl
  new := fun _ _ => False.elim
  set := fun _ => False.elim
  distinct := fun _ _ none => none.elim
  kept := fun _ _ _ _ => rfl

theorem Demand.claim (x : Demand s₀ pages made taken s) {bitmap : Bitmap}
    (grows : ∀ f, used s.bitmap f = true → used bitmap f = true) :
    Demand s₀ pages made taken { s with bitmap := bitmap } :=
  { x with
    tables := x.tables.claim grows
    marks := fun f old => grows f (x.marks f old)
    taken_marks := fun f old => grows f (x.taken_marks f old) }

theorem userEntry_frame (f : Frame) : (address f ||| USER_ENTRY).frame = f :=
  frame_address_or f _ (by decide)

section NewTable

variable {i : Index} {g : Frame} {w : Word} {t : State}

/-- The other entries of the directory are as they were. -/
theorem NewTable.row_same (added : NewTable s s.cr3 i g w t) (absent : (s.mem s.cr3 i).present = false)
    {k : Index} (present : (s.mem s.cr3 k).present = true) : t.mem t.cr3 k = s.mem s.cr3 k := by
  rw [added.cr3, added.row, if_neg]
  intro equal
  rw [equal, absent] at present
  cases present

theorem NewTable.row_here (added : NewTable s s.cr3 i g w t) : t.mem t.cr3 i = w := by
  rw [added.cr3, added.row, if_pos rfl]

theorem NewTable.entry_same (added : NewTable s s.cr3 i g w t) (tables : Tables s)
    (absent : (s.mem s.cr3 i).present = false) (unmarked : used s.bitmap g = false) {p : VPage}
    (present : (s.mem s.cr3 p.dir).present = true) (early : p.dir ≠ 1023#10) :
    entryAt t p = entryAt s p := by
  have other := marked_ne (tables.marked _ present) unmarked
  rw [entryAt, added.row_same absent present, entryAt,
    added.others _ other (tables.frame_ne present early)]

theorem NewTable.tables (added : NewTable s s.cr3 i g w t) (tables : Tables s)
    (absent : (s.mem s.cr3 i).present = false) (unmarked : used s.bitmap g = false)
    (grows : ∀ f, used s.bitmap f = true → used t.bitmap f = true)
    (claimed : used t.bitmap g = true) (frame : w.frame = g) : Tables t := by
  constructor
  case self =>
    rw [added.row_same absent tables.self.1, added.cr3]
    exact tables.self
  case marked =>
    rw [added.cr3]
    exact added.marked tables.marked grows claimed frame
  case apart =>
    rw [added.cr3]
    exact added.apart tables.marked tables.apart unmarked frame

/-- Nothing is set in the new table yet. -/
theorem NewTable.new (added : NewTable s s.cr3 i g (address g + USER_ENTRY) t)
    (x : Demand s₀ pages made taken s) (absent : (s.mem s.cr3 i).present = false)
    (unmarked : used s.bitmap g = false) (k : Index) (before : (s₀.mem s₀.cr3 k).present = false)
    (either : k = i ∨ made k) :
    (t.mem t.cr3 k).present = true ∧ (t.mem t.cr3 k).user = true ∧
      (t.mem t.cr3 k).writable = true ∧ ∀ j, ¬pages ⟨k, j⟩ → entryAt t ⟨k, j⟩ = 0#32 := by
  by_cases here : k = i
  · rw [here, added.row_here]
    refine ⟨entry_getLsbD g _ (by decide) 0 (by decide), entry_getLsbD g _ (by decide) 2 (by decide),
      entry_getLsbD g _ (by decide) 1 (by decide), ?_⟩
    intro j _
    rw [entryAt, added.row_here, entry_frame g _ (by decide), added.blank]
  · rcases x.new k before (either.resolve_left here) with ⟨present, user, writable, zero⟩
    rw [added.row_same absent present]
    refine ⟨present, user, writable, ?_⟩
    intro j unset
    rw [added.entry_same x.tables absent unmarked present ?_, zero j unset]
    rintro rfl
    rw [x.start.self.1] at before
    cases before

end NewTable

theorem Demand.newTable (x : Demand s₀ pages made taken s) {i : Index}
    (absent : (s.mem s.cr3 i).present = false) {g : Frame} (unmarked : used s.bitmap g = false)
    {bitmap : Bitmap} (grows : ∀ f, used s.bitmap f = true → used bitmap f = true)
    (claimed : used bitmap g = true) :
    Demand s₀ pages (fun k => k = i ∨ made k) taken
      (State.write { s.writeFrame g (fun _ => 0#32) with bitmap := bitmap } s.cr3 i
        (address g + USER_ENTRY)) := by
  have other : s.cr3 ≠ g := marked_ne x.tables.cr3_marked unmarked
  have added := newTable_write s bitmap i (address g + USER_ENTRY) other
  have t_bitmap : (State.write { s.writeFrame g (fun _ => 0#32) with bitmap := bitmap } s.cr3
    i (address g + USER_ENTRY)).bitmap = bitmap := rfl
  generalize State.write { s.writeFrame g (fun _ => 0#32) with bitmap := bitmap } s.cr3 i
    (address g + USER_ENTRY) = t at *
  rw [← t_bitmap] at grows claimed
  have stays {p : VPage} (inside : pages p) : entryAt t p = entryAt s p :=
    added.entry_same x.tables absent unmarked (x.set p inside).1 (x.set p inside).2.1
  constructor
  case start => exact x.start
  case tables =>
    exact added.tables x.tables absent unmarked grows claimed (entry_frame g _ (by decide))
  case cr3 => exact added.cr3.trans x.cr3
  case marks =>
    intro f before
    exact grows f (x.marks f before)
  case taken_marks =>
    intro f before
    exact grows f (x.taken_marks f before)
  case old =>
    intro k before
    rw [added.row_same absent ((x.old k before).symm ▸ before)]
    exact x.old k before
  case idle =>
    intro k before unmade
    rw [not_or] at unmade
    rw [added.cr3, added.row, if_neg unmade.1]
    exact x.idle k before unmade.2
  case new => exact added.new x absent unmarked
  case set =>
    intro p inside
    rcases x.set p inside with ⟨present, early, f, entry, unused, member⟩
    rw [added.row_same absent present, stays inside]
    exact ⟨present, early, f, entry, unused, member⟩
  case distinct =>
    intro p q first second
    rw [stays first, stays second]
    exact x.distinct p q first second
  case kept =>
    intro p before early unset
    rw [added.entry_same x.tables absent unmarked ((x.old p.dir before).symm ▸ before) early]
    exact x.kept p before early unset

/-- The entry of a page set in a table that is not the directory. -/
structure PageStored (s : State) (q : VPage) (w : Word) (t : State) : Prop where
  cr3 : t.cr3 = s.cr3
  bitmap : t.bitmap = s.bitmap
  row : ∀ k, t.mem t.cr3 k = s.mem s.cr3 k
  here : entryAt t q = w
  same : ∀ p, (s.mem s.cr3 p.dir).present = true → p ≠ q → entryAt t p = entryAt s p

section PageStored

variable {q : VPage} {f : Frame} {w : Word} {t : State}

theorem Tables.stored (tables : Tables s) (early : q.dir ≠ 1023#10)
    (present : (s.mem s.cr3 q.dir).present = true) (w : Word) :
    PageStored s q w (s.write (s.mem s.cr3 q.dir).frame q.table w) := by
  generalize result : s.write (s.mem s.cr3 q.dir).frame q.table w = t
  have cr3 : t.cr3 = s.cr3 := by rw [← result]; rfl
  have row (k : Index) : t.mem t.cr3 k = s.mem s.cr3 k := by
    rw [cr3, ← result, State.write_mem_ne _ _ _ (tables.frame_ne present early).symm]
  constructor
  case cr3 => exact cr3
  case bitmap => rw [← result]; rfl
  case row => exact row
  case here => rw [entryAt, row, ← result, State.write_mem_self, Function.update_self]
  case same =>
    intro p there other
    rw [entryAt, row, entryAt, ← result]
    apply write_others
    intro table entry
    exact other (VPage.eq (tables.apart _ _ there present table) entry)

theorem PageStored.tables (stored : PageStored s q w t) (tables : Tables s) : Tables t := by
  constructor
  case self =>
    rw [stored.row, stored.cr3]
    exact tables.self
  case marked =>
    intro k
    rw [stored.row, stored.bitmap]
    exact tables.marked k
  case apart =>
    intro k l
    rw [stored.row, stored.row]
    exact tables.apart k l

theorem PageStored.stays (stored : PageStored s q w t) (x : Demand s₀ pages made taken s)
    (unset : ¬pages q) {p : VPage} (inside : pages p) : entryAt t p = entryAt s p := by
  refine stored.same p (x.set p inside).1 ?_
  rintro rfl
  exact unset inside

theorem PageStored.new (stored : PageStored s q w t) (x : Demand s₀ pages made taken s) (k : Index)
    (before : (s₀.mem s₀.cr3 k).present = false) (member : made k) :
    (t.mem t.cr3 k).present = true ∧ (t.mem t.cr3 k).user = true ∧
      (t.mem t.cr3 k).writable = true ∧
        ∀ j, ¬((⟨k, j⟩ : VPage) = q ∨ pages ⟨k, j⟩) → entryAt t ⟨k, j⟩ = 0#32 := by
  rcases x.new k before member with ⟨there, user, writable, zero⟩
  rw [stored.row]
  refine ⟨there, user, writable, ?_⟩
  intro j outside
  rw [not_or] at outside
  rw [stored.same _ there outside.1]
  exact zero j outside.2

theorem PageStored.set (stored : PageStored s q (address f ||| USER_ENTRY) t)
    (x : Demand s₀ pages made taken s) (unset : ¬pages q) (early : q.dir ≠ 1023#10)
    (present : (s.mem s.cr3 q.dir).present = true) (fresh : used s₀.bitmap f = false) (p : VPage)
    (either : p = q ∨ pages p) : (t.mem t.cr3 p.dir).present = true ∧ p.dir ≠ 1023#10 ∧
      ∃ g, entryAt t p = address g ||| USER_ENTRY ∧ used s₀.bitmap g = false ∧
        (g = f ∨ taken g) := by
  rw [stored.row]
  rcases either with rfl | inside
  · exact ⟨present, early, f, stored.here, fresh, .inl rfl⟩
  · rcases x.set p inside with ⟨there, last, g, entry, unused, member⟩
    rw [stored.stays x unset inside]
    exact ⟨there, last, g, entry, unused, .inr member⟩

/-- The new frame is none of those that the pages have. -/
theorem PageStored.apart (stored : PageStored s q (address f ||| USER_ENTRY) t)
    (x : Demand s₀ pages made taken s) (unset : ¬pages q) (untaken : ¬taken f) {p : VPage}
    (inside : pages p) : (entryAt t p).frame ≠ (entryAt t q).frame := by
  rcases x.set p inside with ⟨_, _, g, entry, _, member⟩
  rw [stored.stays x unset inside, stored.here, entry, userEntry_frame, userEntry_frame]
  rintro rfl
  exact untaken member

theorem PageStored.distinct (stored : PageStored s q (address f ||| USER_ENTRY) t)
    (x : Demand s₀ pages made taken s) (unset : ¬pages q) (untaken : ¬taken f) (p r : VPage)
    (first : p = q ∨ pages p) (second : r = q ∨ pages r) :
    (entryAt t p).frame = (entryAt t r).frame → p = r := by
  rcases first with rfl | first
  · rcases second with rfl | second
    · exact fun _ => rfl
    · exact fun equal => absurd equal.symm (stored.apart x unset untaken second)
  · rcases second with rfl | second
    · exact fun equal => absurd equal (stored.apart x unset untaken first)
    · rw [stored.stays x unset first, stored.stays x unset second]
      exact x.distinct p r first second

end PageStored

theorem Demand.setEntry (x : Demand s₀ pages made taken s) {q : VPage} (unset : ¬pages q)
    (early : q.dir ≠ 1023#10) (present : (s.mem s.cr3 q.dir).present = true) {f : Frame}
    (fresh : used s₀.bitmap f = false) (untaken : ¬taken f) (marked : used s.bitmap f = true) :
    Demand s₀ (fun p => p = q ∨ pages p) made (fun h => h = f ∨ taken h)
      (s.write (s.mem s.cr3 q.dir).frame q.table (address f ||| USER_ENTRY)) := by
  have stored := x.tables.stored early present (address f ||| USER_ENTRY)
  generalize s.write (s.mem s.cr3 q.dir).frame q.table (address f ||| USER_ENTRY) = t at stored ⊢
  constructor
  case start => exact x.start
  case tables => exact stored.tables x.tables
  case cr3 => exact stored.cr3.trans x.cr3
  case marks =>
    rw [stored.bitmap]
    exact x.marks
  case taken_marks =>
    intro h either
    rw [stored.bitmap]
    rcases either with rfl | member
    · exact marked
    · exact x.taken_marks h member
  case old =>
    intro k before
    rw [stored.row]
    exact x.old k before
  case idle =>
    intro k before unmade
    rw [stored.row]
    exact x.idle k before unmade
  case new => exact stored.new x
  case set => exact stored.set x unset early present fresh
  case distinct => exact stored.distinct x unset untaken
  case kept =>
    intro p before last outside
    rw [not_or] at outside
    rw [stored.same p ((x.old p.dir before).symm ▸ before) outside.1]
    exact x.kept p before last outside.2

theorem Demand.widen (x : Demand s₀ pages made taken s) {i : Index}
    (present : (s.mem s.cr3 i).present = true) :
    Demand s₀ pages (fun k => k = i ∨ made k) taken s := by
  refine { x with idle := ?_, new := ?_ }
  · intro k before unmade
    exact x.idle k before fun member => unmade (.inr member)
  · intro k before either
    apply x.new k before
    by_contra unmade
    rcases either with rfl | member
    · rw [x.idle k before unmade, before] at present
      cases present
    · exact unmade member

end Invariant

section Rounds

variable {s₀ s : State} {pages : VPage → Prop} {made : Index → Prop} {taken : Frame → Prop}

theorem faultingStore_mapped (depth : Nat) {s : State} {v : VAddr} {f : Frame}
    (walk : pageFrame s v.toVPage = some f) (w : Word) :
    faultingStore (depth + 1) s v w = some (s.write f v.word w, 0) := by
  rw [faultingStore, walk]

theorem faultingStore_missing (depth : Nat) {s : State} {v : VAddr} {f g : Frame} {bitmap : Bitmap}
    (absent : pageFrame s v.toVPage = none) (allocated : pmalloc s.bitmap = some (g, bitmap))
    (entry : pageFrame { s with bitmap := bitmap } (pageEntry v.toVPage).toVPage = some f) (w : Word) :
    faultingStore (depth + 2) s v w =
      (demandPage s v.toVPage).bind fun t =>
        (faultingStore (depth + 1) t v w).map fun (u, again) => (u, 1 + again) := by
  rw [faultingStore, absent]
  simp only [allocated, faultingStore_mapped depth entry, demandPage, store, entry,
    Option.bind_eq_bind, Option.bind_some, Option.pure_def, Option.bind_assoc, Nat.zero_add,
    Option.map_eq_bind]
  rfl

theorem pageFrame_entry (tables : Tables s) (page : VPage) :
    pageFrame s (pageEntry page).toVPage =
      if (s.mem s.cr3 page.dir).present then some (s.mem s.cr3 page.dir).frame else none :=
  pageFrame_self tables.self page.dir

theorem Demand.fresh (x : Demand s₀ pages made taken s) {f : Frame}
    (unmarked : used s.bitmap f = false) : used s₀.bitmap f = false ∧ ¬taken f := by
  constructor
  · by_contra old
    rw [x.marks f (by simpa using old)] at unmarked
    cases unmarked
  · intro member
    rw [x.taken_marks f member] at unmarked
    cases unmarked

theorem used_puse_self (bitmap : Bitmap) (f : Frame) : used (puse bitmap f) f = true := by
  rw [used_puse]
  simp

theorem Demand.roundPresent (x : Demand s₀ pages made taken s) {q : VPage} (unset : ¬pages q)
    (early : q.dir ≠ 1023#10) (present : (s.mem s.cr3 q.dir).present = true)
    (room : 1 ≤ freeFrames s.bitmap) :
    ∃ s' taken', mapPage s q = some s' ∧
      (∀ depth, mapPageFaults (depth + 2) s q = some (s', 0)) ∧
      Demand s₀ (fun p => p = q ∨ pages p) (fun k => k = q.dir ∨ made k) taken' s' ∧
      freeFrames s'.bitmap + 1 = freeFrames s.bitmap ∧ s'.mem s'.cr3 = s.mem s.cr3 := by
  rcases pmalloc_room s.bitmap room with ⟨f, allocated, unmarked, count⟩
  have claimed := x.claim fun g => puse_grows s.bitmap f (g := g)
  rcases x.fresh unmarked with ⟨fresh, untaken⟩
  have walk := pageFrame_entry claimed.tables q
  rw [if_pos (show _ = true from present)] at walk
  have row := State.write_mem_ne { s with bitmap := puse s.bitmap f } q.table
    (address f ||| USER_ENTRY) (x.tables.frame_ne present early).symm
  have set := claimed.setEntry unset early present fresh untaken (used_puse_self _ f)
  refine ⟨_, _, ?_, ?_, set.widen ?_, count, row⟩
  · simp only [mapPage, allocated, walk, store, Option.bind_eq_bind, Option.bind_some,
      Option.isSome_some, if_true, Option.map_some]
    rfl
  · intro depth
    simp only [mapPageFaults, allocated, Option.bind_eq_bind, Option.bind_some]
    exact faultingStore_mapped (depth + 1) walk _
  · exact (congrArg Word.present (congrFun row q.dir)).trans present

theorem Demand.roundAbsent (x : Demand s₀ pages made taken s) {q : VPage} (unset : ¬pages q)
    (early : q.dir ≠ 1023#10) (absent : (s.mem s.cr3 q.dir).present = false)
    (room : 2 ≤ freeFrames s.bitmap) :
    ∃ s' taken', mapPage s q = some s' ∧
      (∀ depth, mapPageFaults (depth + 2) s q = some (s', 1)) ∧
      Demand s₀ (fun p => p = q ∨ pages p) (fun k => k = q.dir ∨ made k) taken' s' ∧
      freeFrames s'.bitmap + 2 = freeFrames s.bitmap ∧
      ∃ w : Word, w.present = true ∧ s'.mem s'.cr3 = Function.update (s.mem s.cr3) q.dir w := by
  rcases pmalloc_room s.bitmap (by omega) with ⟨f, allocated, unmarked, count⟩
  rcases pmalloc_room (puse s.bitmap f) (by omega) with ⟨g, again, unmarked_g, count_g⟩
  have claimed := x.claim fun g => puse_grows s.bitmap f (g := g)
  rcases x.fresh unmarked with ⟨fresh, untaken⟩
  rcases demandPage_run (s := { s with bitmap := puse s.bitmap f }) claimed.tables.self
    claimed.tables.cr3_marked early again with ⟨dir_ne, demanded⟩
  have table := claimed.newTable absent unmarked_g (fun h => puse_grows _ g) (used_puse_self _ g)
  have w_present : (address g + USER_ENTRY).present = true :=
    entry_getLsbD g _ (by decide) 0 (by decide)
  have missing := pageFrame_entry claimed.tables q
  rw [if_neg (by rw [Bool.not_eq_true]; exact absent)] at missing
  have inner : pageFrame { s with bitmap := puse (puse s.bitmap f) g }
      (pageEntry (pageEntry q).toVPage).toVPage = some s.cr3 := by
    have twice := claimed.claim fun h => puse_grows (puse s.bitmap f) g (g := h)
    have walk := pageFrame_entry twice.tables ⟨1023#10, q.dir⟩
    rw [if_pos (show _ = true from x.tables.self.1)] at walk
    exact walk.trans (congrArg some x.tables.self.2)
  change demandPage _ (pageEntry q).toVPage = some (State.write _ s.cr3 q.dir
    (address g + USER_ENTRY)) at demanded
  generalize result : State.write { State.writeFrame { s with bitmap := puse s.bitmap f } g
    (fun _ => 0#32) with bitmap := puse (puse s.bitmap f) g } s.cr3 q.dir (address g + USER_ENTRY) = t
    at *
  have t_bitmap : t.bitmap = puse (puse s.bitmap f) g := by rw [← result]; rfl
  have row : t.mem t.cr3 = Function.update (s.mem s.cr3) q.dir (address g + USER_ENTRY) := by
    have t_cr3 : t.cr3 = s.cr3 := by rw [← result]; rfl
    rw [t_cr3, ← result, State.write_mem_self]
    exact congrArg (Function.update · q.dir _) (s.writeFrame_mem_ne _ dir_ne.symm)
  have t_present : (t.mem t.cr3 q.dir).present = true := by
    rw [row, Function.update_self, w_present]
  have walk := pageFrame_entry table.tables q
  rw [if_pos t_present] at walk
  have marked : used t.bitmap f = true := by
    rw [t_bitmap]
    exact puse_grows _ g (used_puse_self _ f)
  have set := table.setEntry unset early t_present fresh untaken marked
  have kept := State.write_mem_ne t q.table (address f ||| USER_ENTRY)
    (table.tables.frame_ne t_present early).symm
  refine ⟨_, _, ?_, ?_, set, ?_, _, w_present, ?_⟩
  · simp only [mapPage, allocated, missing, demanded, walk, store, Option.bind_eq_bind,
      Option.bind_some, Option.isSome_none, Bool.false_eq_true, if_false, Option.map_some]
    rfl
  · intro depth
    simp only [mapPageFaults, allocated, Option.bind_eq_bind, Option.bind_some]
    rw [faultingStore_missing depth missing again inner, demanded, Option.bind_some,
      faultingStore_mapped depth walk]
    rfl
  · change freeFrames t.bitmap + 2 = _
    rw [t_bitmap]
    omega
  · exact kept.trans row

/-- The tables that a range of pages needs and a directory does not have. -/
def missingTables (row : Index → Word) (first count : Nat) : Finset Nat :=
  ((Finset.Ico first (first + count)).image (· / 1024)).filter fun d =>
    (row (BitVec.ofNat 10 d)).present = false

theorem mem_missingTables {row : Index → Word} {first count d : Nat} :
    d ∈ missingTables row first count ↔
      (∃ n, first ≤ n ∧ n < first + count ∧ n / 1024 = d) ∧
        (row (BitVec.ofNat 10 d)).present = false := by
  simp only [missingTables, Finset.mem_filter, Finset.mem_image, Finset.mem_Ico, and_assoc]

theorem missingTables_mono (row : Index → Word) (first count : Nat) :
    missingTables row (first + 1) count ⊆ missingTables row first (count + 1) := by
  intro d member
  rcases mem_missingTables.mp member with ⟨⟨n, low, high, rfl⟩, absent⟩
  exact mem_missingTables.mpr ⟨⟨n, by omega, by omega, rfl⟩, absent⟩

theorem missingTables_update (row : Index → Word) (first count : Nat) {w : Word}
    (present : w.present = true) (absent : (row (BitVec.ofNat 10 (first / 1024))).present = false) :
    (missingTables (Function.update row (BitVec.ofNat 10 (first / 1024)) w) (first + 1) count).card
      + 1 ≤ (missingTables row first (count + 1)).card := by
  have here : first / 1024 ∈ missingTables row first (count + 1) :=
    mem_missingTables.mpr ⟨⟨first, le_rfl, by omega, rfl⟩, absent⟩
  rw [← Finset.card_erase_add_one here]
  apply Nat.succ_le_succ
  apply Finset.card_le_card
  intro d member
  rcases mem_missingTables.mp member with ⟨⟨n, low, high, rfl⟩, missing⟩
  have other : BitVec.ofNat 10 (n / 1024) ≠ BitVec.ofNat 10 (first / 1024) := by
    intro equal
    rw [equal, Function.update_self, present] at missing
    cases missing
  rw [Function.update_of_ne other] at missing
  refine Finset.mem_erase.mpr ⟨fun equal => other (by rw [equal]), ?_⟩
  exact mem_missingTables.mpr ⟨⟨n, by omega, by omega, rfl⟩, missing⟩

/-- The directory entries that a range of pages goes through. -/
def TouchedDir (first count : Nat) (i : Index) : Prop := ∃ p, Visited first count p ∧ p.dir = i

theorem touchedDir_next {first count : Nat} {q : VPage} (next : q.number = first + count)
    {i : Index} : TouchedDir first (count + 1) i ↔ i = q.dir ∨ TouchedDir first count i := by
  simp only [TouchedDir, visited_next next]
  constructor
  · rintro ⟨p, rfl | inside, rfl⟩
    · exact .inl rfl
    · exact .inr ⟨p, inside, rfl⟩
  · rintro (rfl | ⟨p, inside, rfl⟩)
    · exact ⟨q, .inl rfl, rfl⟩
    · exact ⟨p, .inr inside, rfl⟩

theorem Demand.next {first count : Nat} {q : VPage} (next : q.number = first + count)
    (x : Demand s₀ (fun p => p = q ∨ Visited first count p)
      (fun k => k = q.dir ∨ TouchedDir first count k) taken s) :
    Demand s₀ (Visited first (count + 1)) (TouchedDir first (count + 1)) taken s := by
  have pages : (fun p => p = q ∨ Visited first count p) = Visited first (count + 1) :=
    funext fun p => propext (visited_next next).symm
  have dirs : (fun k => k = q.dir ∨ TouchedDir first count k) = TouchedDir first (count + 1) :=
    funext fun k => propext (touchedDir_next next).symm
  rw [pages, dirs] at x
  exact x

theorem Demand.round {first count rounds : Nat} {q : VPage} (next : q.number = first + count)
    (user : first + count < 768 * 1024)
    (x : Demand s₀ (Visited first count) (TouchedDir first count) taken s)
    (enough : rounds + 1 + (missingTables (s.mem s.cr3) (first + count) (rounds + 1)).card ≤
      freeFrames s.bitmap) :
    ∃ s' taken' faults, mapPage s q = some s' ∧ faults ≤ 1 ∧
      (∀ depth, mapPageFaults (depth + 2) s q = some (s', faults)) ∧
      Demand s₀ (Visited first (count + 1)) (TouchedDir first (count + 1)) taken' s' ∧
      rounds + (missingTables (s'.mem s'.cr3) (first + (count + 1)) rounds).card ≤
        freeFrames s'.bitmap := by
  have dir : q.dir.toNat = (first + count) / 1024 := by
    have table := q.table.isLt
    rw [VPage.number] at next
    omega
  have dir_eq : BitVec.ofNat 10 ((first + count) / 1024) = q.dir := by
    rw [← dir, BitVec.ofNat_toNat, BitVec.setWidth_eq]
  have early : q.dir ≠ 1023#10 := by
    intro last
    rw [last, BitVec.toNat_ofNat] at dir
    omega
  have unset : ¬Visited first count q := by
    intro visited
    have high := visited.2
    omega
  cases table : (s.mem s.cr3 q.dir).present with
  | true =>
      rcases x.roundPresent unset early table (by omega) with ⟨s', taken', run, faults, set, free, row⟩
      refine ⟨s', taken', 0, run, Nat.zero_le 1, faults, set.next next, ?_⟩
      have fewer := Finset.card_le_card (missingTables_mono (s.mem s.cr3) (first + count) rounds)
      rw [row, ← Nat.add_assoc]
      omega
  | false =>
      have fewer (w : Word) (present : w.present = true) :=
        missingTables_update (s.mem s.cr3) (first + count) rounds present (by rw [dir_eq, table])
      rw [dir_eq] at fewer
      have one := fewer 1#32 rfl
      rcases x.roundAbsent unset early table (by omega) with
        ⟨s', taken', run, faults, set, free, w, present, row⟩
      refine ⟨s', taken', 1, run, le_rfl, faults, set.next next, ?_⟩
      have missing := fewer w present
      rw [row, ← Nat.add_assoc]
      omega

theorem Demand.mapPages (rounds : Nat) {base : BitVec 32} {count : Nat}
    (x : Demand s₀ (Visited (base.toNat / 4096) count) (TouchedDir (base.toNat / 4096) count) taken s)
    (user : base.toNat / 4096 + (count + rounds) ≤ 768 * 1024)
    (enough : rounds + (missingTables (s.mem s.cr3) (base.toNat / 4096 + count) rounds).card ≤
      freeFrames s.bitmap) (before : List Nat) :
    ∃ s' taken' faults, mapPages base rounds count s = some s' ∧
      (∀ depth, mapPagesFaults (depth + 2) base rounds count s before =
        some (s', faults ++ before)) ∧
      faults.length = rounds ∧ (∀ n ∈ faults, n ≤ 1) ∧
      Demand s₀ (Visited (base.toNat / 4096) (count + rounds))
        (TouchedDir (base.toNat / 4096) (count + rounds)) taken' s' := by
  induction rounds generalizing s taken count before with
  | zero => exact ⟨s, taken, [], rfl, fun _ => rfl, rfl, by simp, x⟩
  | succ rounds ih =>
      have number : (mmapPage base count).number = base.toNat / 4096 + count :=
        mmapPage_number base (by omega)
      rcases x.round number (by omega) enough with ⟨t, taken', n, run, once, faulted, y, left⟩
      rcases ih y (by omega) left (n :: before) with
        ⟨s', taken'', faults, onward, later, length, small, z⟩
      refine ⟨s', taken'', faults ++ [n], ?_, ?_, by simp [length], ?_, ?_⟩
      · rw [Vmm.mapPages]
        exact Option.bind_eq_some_iff.mpr ⟨t, run, onward⟩
      · intro depth
        rw [mapPagesFaults]
        refine Option.bind_eq_some_iff.mpr ⟨(t, n), faulted depth, ?_⟩
        rw [List.append_assoc]
        exact later depth
      · intro m member
        rcases List.mem_append.mp member with earlier | here
        · exact small m earlier
        · rw [List.mem_singleton.mp here]
          exact once
      · rw [show count + (rounds + 1) = count + 1 + rounds by omega]
        exact z

end Rounds

section Result

variable {s s' : State} {base length : BitVec 32}

/-- The pages of a range of addresses. -/
def PageIn (base length : BitVec 32) (p : VPage) : Prop :=
  base.toNat ≤ p.number * 4096 ∧ p.number * 4096 < base.toNat + length.toNat

/-- One frame for each page, and one for each table that is missing. -/
def neededFrames (s : State) (base length : BitVec 32) : Nat :=
  length.toNat / 4096 +
    (missingTables (s.mem s.cr3) (base.toNat / 4096) (length.toNat / 4096)).card

/-- User mode may write to the pages, each has a frame of its own that was not in use, the
tables made for them are otherwise empty, and every other entry is as before. -/
structure DemandMapped (s : State) (base length : BitVec 32) (s' : State) : Prop where
  cr3 : s'.cr3 = s.cr3
  pages : ∀ p, PageIn base length p →
    ∃ f, userWrite s' p = some (f, true) ∧ used s.bitmap f = false
  distinct : ∀ p q, PageIn base length p → PageIn base length q →
    pageFrame s' p = pageFrame s' q → p = q
  tables : ∀ p, (s.mem s.cr3 p.dir).present = false → (s'.mem s'.cr3 p.dir).present = true →
    ¬PageIn base length p → entryAt s' p = 0#32
  entries : ∀ p, (s.mem s.cr3 p.dir).present = true → p.dir ≠ 1023#10 → ¬PageIn base length p →
    entryAt s' p = entryAt s p
  dirs : ∀ i, ((s.mem s.cr3 i).present = true ∨ ∀ p, PageIn base length p → p.dir ≠ i) →
    s'.mem s'.cr3 i = s.mem s.cr3 i

/-- The tables that are there already allow user mode to write. -/
def UserTables (s : State) (base length : BitVec 32) : Prop :=
  ∀ p, PageIn base length p → (s.mem s.cr3 p.dir).present = true →
    (s.mem s.cr3 p.dir).user = true ∧ (s.mem s.cr3 p.dir).writable = true

theorem pageIn_iff (aligned : base.toNat % 4096 = 0) (whole : length.toNat % 4096 = 0) (p : VPage) :
    PageIn base length p ↔ Visited (base.toNat / 4096) (length.toNat / 4096) p := by
  rw [PageIn, Visited]
  omega

theorem userWrite_entry {p : VPage} (table : (s.mem s.cr3 p.dir).present = true) {f : Frame}
    (entry : entryAt s p = address f ||| USER_ENTRY) :
    userWrite s p =
      some (f, (s.mem s.cr3 p.dir).user && (s.mem s.cr3 p.dir).writable) := by
  have present : (address f ||| USER_ENTRY).present = true := address_or_getLsbD f _ 0 (by decide)
  have user : (address f ||| USER_ENTRY).user = true := address_or_getLsbD f _ 2 (by decide)
  have writable : (address f ||| USER_ENTRY).writable = true :=
    address_or_getLsbD f _ 1 (by decide)
  rw [entryAt] at entry
  simp only [userWrite, table, entry, present, user, writable, userEntry_frame, if_true,
    Bool.and_true]

theorem pageFrame_set {p : VPage} (table : (s.mem s.cr3 p.dir).present = true) {f : Frame}
    (entry : entryAt s p = address f ||| USER_ENTRY) : pageFrame s p = some f := by
  have present : (address f ||| USER_ENTRY).present = true := address_or_getLsbD f _ 0 (by decide)
  rw [entryAt] at entry
  simp only [pageFrame, table, entry, present, userEntry_frame, if_true]

theorem userWrite_allowed {p : VPage} {f : Frame} (allowed : userWrite s p = some (f, true)) :
    (s.mem s.cr3 p.dir).user = true ∧ (s.mem s.cr3 p.dir).writable = true := by
  simp only [userWrite] at allowed
  split at allowed
  · split at allowed
    · simp only [Option.some.injEq, Prod.mk.injEq, Bool.and_eq_true] at allowed
      exact ⟨allowed.2.1.1.1, allowed.2.1.2⟩
    · cases allowed
  · cases allowed

theorem Demand.mapped {taken : Frame → Prop}
    (x : Demand s (PageIn base length) (fun i => ∃ p, PageIn base length p ∧ p.dir = i) taken s')
    (open_ : UserTables s base length) : DemandMapped s base length s' where
  cr3 := x.cr3
  pages := by
    intro p inside
    rcases x.set p inside with ⟨table, _, f, entry, unused, _⟩
    refine ⟨f, ?_, unused⟩
    rw [userWrite_entry table entry]
    cases before : (s.mem s.cr3 p.dir).present with
    | true =>
        rcases open_ p inside before with ⟨user, writable⟩
        rw [x.old _ before, user, writable, Bool.and_true]
    | false =>
        rcases x.new _ before ⟨p, inside, rfl⟩ with ⟨_, user, writable, _⟩
        rw [user, writable, Bool.and_true]
  distinct := by
    intro p q first second same
    rcases x.set p first with ⟨table, _, f, entry, _, _⟩
    rcases x.set q second with ⟨table', _, f', entry', _, _⟩
    rw [pageFrame_set table entry, pageFrame_set table' entry', Option.some.injEq] at same
    apply x.distinct p q first second
    rw [entry, entry', userEntry_frame, userEntry_frame, same]
  tables := by
    intro p before after outside
    have touched : ∃ q, PageIn base length q ∧ q.dir = p.dir := by
      by_contra untouched
      rw [x.idle _ before untouched, before] at after
      cases after
    exact (x.new _ before touched).2.2.2 p.table outside
  entries := by
    intro p before early outside
    exact x.kept p before early outside
  dirs := by
    intro i either
    cases before : (s.mem s.cr3 i).present with
    | true => exact x.old i before
    | false =>
        apply x.idle i before
        rintro ⟨p, inside, dir⟩
        rcases either with present | none
        · rw [before] at present
          cases present
        · exact none p inside dir

/-- A range of user pages is mapped, with at most one fault for each entry stored, exactly when
user mode may write through the page tables that are already there. -/
theorem mmap_demand_iff (s : State) (base length : BitVec 32) (tables : Tables s)
    (aligned : base.toNat % 4096 = 0) (whole : length.toNat % 4096 = 0)
    (user : base.toNat + length.toNat ≤ 0xc0000000)
    (enough : neededFrames s base length ≤ freeFrames s.bitmap) :
    (∃ s' faults, mmap s base length 1#8 = some s' ∧
        (∀ depth, mmapFaults (depth + 2) s base length 1#8 = some (s', faults)) ∧
        faults.length = noPages length ∧ (∀ n ∈ faults, n ≤ 1) ∧
        DemandMapped s base length s') ↔
      UserTables s base length := by
  constructor
  · rintro ⟨s', _, _, _, _, _, mapped⟩ p inside present
    rcases mapped.pages p inside with ⟨f, allowed, _⟩
    have same := mapped.dirs p.dir (.inl present)
    rw [← same]
    exact userWrite_allowed allowed
  · intro open_
    have count : noPages length = length.toNat / 4096 := if_neg (not_not.mpr whole)
    have start : Demand s (Visited (base.toNat / 4096) 0) (TouchedDir (base.toNat / 4096) 0)
        (fun _ => False) s := by
      have pages : Visited (base.toNat / 4096) 0 = fun _ => False :=
        funext fun p => eq_false (not_visited_zero _ p)
      have dirs : TouchedDir (base.toNat / 4096) 0 = fun _ => False :=
        funext fun i => eq_false fun ⟨p, visited, _⟩ => not_visited_zero _ p visited
      rw [pages, dirs]
      exact tables.demand
    rcases start.mapPages (length.toNat / 4096) (by omega) enough [] with
      ⟨s', taken, faults, run, faulted, all, once, x⟩
    have pages : Visited (base.toNat / 4096) (0 + length.toNat / 4096) = PageIn base length := by
      rw [Nat.zero_add]
      exact funext fun p => propext (pageIn_iff aligned whole p).symm
    have dirs : TouchedDir (base.toNat / 4096) (0 + length.toNat / 4096) =
        fun i => ∃ p, PageIn base length p ∧ p.dir = i := by
      funext i
      rw [TouchedDir, pages]
    rw [pages, dirs] at x
    refine ⟨s', faults, ?_, ?_, all.trans count.symm, once, x.mapped open_⟩
    · rw [mmap, count]
      exact run
    · intro depth
      rw [mmapFaults, count]
      exact (faulted depth).trans (by rw [List.append_nil])

end Result

theorem freeFrames_boot (ram : Mem) : freeFrames (initVmm ram).bitmap = 2 ^ 20 - 0x800 := by
  rw [freeFrames, ← freeSlots_from]
  apply freeSlots_congr
  intro i inside
  have number : (BitVec.ofNat 20 i).toNat = i := by
    rw [BitVec.toNat_ofNat, Nat.mod_eq_of_lt inside]
  rw [usedNumber, initVmm, used_init, number]

theorem first_program_mapped :
    ∃ s s', Run step Reserved (initVmm fun _ _ => 0#32) s ∧ mmap s 0#32 4096#32 1#8 = some s' ∧
      DemandMapped s 0#32 4096#32 s' := by
  have absent : ((initVmm fun _ _ => 0#32).mem (initVmm fun _ _ => 0#32).cr3 0#10).present =
      false := by
    rw [initVmm_sample]
    decide +kernel
  have first (p : VPage) (inside : PageIn 0#32 4096#32 p) : p.dir = 0#10 := by
    have below : p.number * 4096 < 0 + 4096 := inside.2
    have number : p.number = p.dir.toNat * 1024 + p.table.toNat := rfl
    apply BitVec.eq_of_toNat_eq
    show p.dir.toNat = 0
    omega
  have open_ : UserTables (initVmm fun _ _ => 0#32) 0#32 4096#32 := by
    intro p inside present
    rw [first p inside, absent] at present
    cases present
  have enough : neededFrames (initVmm fun _ _ => 0#32) 0#32 4096#32 ≤
      freeFrames (initVmm fun _ _ => 0#32).bitmap := by
    rw [freeFrames_boot]
    have few : (missingTables ((initVmm fun _ _ => 0#32).mem (initVmm fun _ _ => 0#32).cr3)
        0 1).card ≤ 1 := Finset.card_filter_le _ _
    exact Nat.le_trans (Nat.add_le_add_left few 1) (by decide)
  rcases (mmap_demand_iff _ 0#32 4096#32 (initVmm_owned _).space.tables rfl rfl (by decide)
    enough).mpr open_ with ⟨s', _, done, _, _, _, mapped⟩
  exact ⟨_, s', .refl, done, mapped⟩

/-- A program at address zero, a fork, and a step to the child. -/
def sampleProgram : List Event :=
  [.kmalloc, .mmap 0#32 4096#32 1#8, .fork (heapPage 0#10), .scheduler (.heap 3#10)]

theorem child_program_protected :
    ∃ s s', Run step Reserved (initVmm fun _ _ => 0#32) s ∧ Tables s ∧
      neededFrames s 0#32 4096#32 ≤ freeFrames s.bitmap ∧ mmap s 0#32 4096#32 1#8 = some s' ∧
      (userWrite s' ⟨0#10, 0#10⟩).any (!·.2) = true ∧ ¬DemandMapped s 0#32 4096#32 s' := by
  have check : (runList step sampleBoot sampleProgram).any (fun s =>
      used s.bitmap 0x900#20 = false ∧ (missingTables (s.mem s.cr3) 0 1).card = 0 ∧
        (mmap s 0#32 4096#32 1#8).any
          (fun s' => (userWrite s' ⟨0#10, 0#10⟩).any (!·.2)) = true) = true := by
    decide +kernel
  rcases (Option.any_eq_true _ _).mp check with ⟨s, sample, facts⟩
  rcases of_decide_eq_true facts with ⟨free, none, rest⟩
  rcases (Option.any_eq_true _ _).mp rest with ⟨s', done, refused⟩
  have range : UserRange 0#32 4096#32 1#8 := by
    rw [UserRange]
    decide
  have run : Run step Reserved (initVmm fun _ _ => 0#32) s := by
    rw [initVmm_sample]
    exact Run.of_runList _ (by simp [sampleProgram, Reserved, range]) sample
  rcases reserved_owned _ run with ⟨own, h, _⟩
  have enough : neededFrames s 0#32 4096#32 ≤ freeFrames s.bitmap := by
    have one : neededFrames s 0#32 4096#32 = 1 := congrArg (1 + ·) none
    rw [one, ← freeFrames_puse _ _ free]
    exact Nat.le_add_left 1 _
  refine ⟨s, s', run, h.space.tables, enough, done, refused, ?_⟩
  intro mapped
  have inside : PageIn 0#32 4096#32 ⟨0#10, 0#10⟩ := ⟨Nat.zero_le _, by decide⟩
  rcases mapped.pages _ inside with ⟨f, allowed, _⟩
  rw [allowed] at refused
  cases refused

end TitorOS.Barrel.Vmm
