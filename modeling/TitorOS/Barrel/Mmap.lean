import TitorOS.Barrel.Isolation

/-! `mmap` with any arguments: which pages its loop sets, and when the pages that were mapped
before stay where they are. -/

namespace TitorOS.Barrel.Vmm

open TitorOS.Lib TitorOS.Lib.Word TitorOS.Barrel.Pmm

/-- A page directory in use: it maps itself, the kernel is mapped, and every table has a frame
of its own that is marked. -/
structure Space (s : State) : Prop where
  self : (s.mem s.cr3 1023#10).present = true ∧ (s.mem s.cr3 1023#10).frame = s.cr3
  kernel : (pageFrame s ⟨768#10, 0#10⟩).isSome = true
  marked : ∀ i, (s.mem s.cr3 i).present = true → used s.bitmap (s.mem s.cr3 i).frame = true
  apart : ∀ i j, (s.mem s.cr3 i).present = true → (s.mem s.cr3 j).present = true →
    (s.mem s.cr3 i).frame = (s.mem s.cr3 j).frame → i = j

def pageOf (vaddr : BitVec 32) : VPage := (decode vaddr).toVPage

/-- Every byte asked for is mapped, and so is what was mapped before, to the same frame. -/
structure Keeps (s : State) (base length : BitVec 32) (s' : State) : Prop where
  bytes : ∀ offset < length,
    (pageFrame s' (pageOf (base + offset))).isSome = true
  pages : ∀ p f, pageFrame s p = some f → pageFrame s' p = some f

/-- No page the loop sets was mapped before; a byte beyond those pages was. -/
structure Untaken (s : State) (hint length : BitVec 32) (flags : BitVec 8) : Prop where
  free : ∀ i < noPages length, pageFrame s (mmapPage (mmapBase hint flags) i) = none
  tail : ∀ offset < length,
    noPages length ≤ ((mmapBase hint flags).toNat % 4096 + offset.toNat) / 4096 →
      (pageFrame s (pageOf (mmapBase hint flags + offset))).isSome = true

def SELF_PAGE : VPage := ⟨1023#10, 1023#10⟩

/-- The loop overwrites the directory's entry for itself, with a frame nobody has cleared, or
the entry of a page whose frame `pmalloc` may hand out. -/
def Chance (s : State) (hint length : BitVec 32) (flags : BitVec 8) : Prop :=
  ∃ i < noPages length, mmapPage (mmapBase hint flags) i = SELF_PAGE ∨
    ∃ f, pageFrame s (mmapPage (mmapBase hint flags) i) = some f ∧ used s.bitmap f = false

section Number

def VPage.number (p : VPage) : Nat := p.dir.toNat * 1024 + p.table.toNat

theorem VPage.number_lt (p : VPage) : p.number < 2 ^ 20 := by
  have dir := p.dir.isLt
  have table := p.table.isLt
  rw [VPage.number]
  omega

theorem number_window (i : Index) : VPage.number ⟨1023#10, i⟩ = 1023 * 1024 + i.toNat := rfl

theorem VPage.eq {p q : VPage} (dir : p.dir = q.dir) (table : p.table = q.table) : p = q := by
  cases p
  cases q
  simp_all

theorem VPage.number_inj {p q : VPage} (same : p.number = q.number) : p = q := by
  have left := p.table.isLt
  have right := q.table.isLt
  rw [VPage.number, VPage.number] at same
  have dir : p.dir = q.dir := BitVec.eq_of_toNat_eq (by omega)
  have table : p.table = q.table := BitVec.eq_of_toNat_eq (by omega)
  exact VPage.eq dir table

theorem pageOf_number (vaddr : BitVec 32) : (pageOf vaddr).number = vaddr.toNat / 4096 := by
  have bound := vaddr.isLt
  simp only [VPage.number, pageOf, decode, BitVec.toNat_setWidth, BitVec.toNat_ushiftRight,
    Nat.shiftRight_eq_div_pow]
  omega

theorem le_noPages (length : BitVec 32) : length.toNat ≤ noPages length * 4096 := by
  rw [noPages]
  split
  · omega
  · omega

theorem mmapPage_number (base : BitVec 32) {i : Nat} (small : base.toNat / 4096 + i < 2 ^ 20) :
    (mmapPage base i).number = base.toNat / 4096 + i := by
  have bound := base.isLt
  rw [mmapPage, ← pageOf, pageOf_number, BitVec.toNat_add, BitVec.toNat_mul, BitVec.toNat_ofNat,
    BitVec.toNat_ofNat]
  omega

end Number

theorem pageFrame_isSome {s : State} {p : VPage} :
    (pageFrame s p).isSome = true ↔ (s.mem s.cr3 p.dir).present = true ∧
      (s.mem (s.mem s.cr3 p.dir).frame p.table).present = true := by
  simp only [pageFrame]
  split
  · rename_i table
    split
    · rename_i entry
      simp [table, entry]
    · rename_i entry
      simp [entry]
  · rename_i table
    simp [table]

theorem pageFrame_present {s : State} {p : VPage} (table : (s.mem s.cr3 p.dir).present = true)
    (entry : (s.mem (s.mem s.cr3 p.dir).frame p.table).present = true) :
    pageFrame s p = some (s.mem (s.mem s.cr3 p.dir).frame p.table).frame := by
  simp only [pageFrame, table, entry, if_true]

/-- The pages with the next `count` numbers from `first` on. -/
def Visited (first count : Nat) (p : VPage) : Prop :=
  first ≤ p.number ∧ p.number < first + count

def tableOf (s : State) (p : VPage) : Frame := (s.mem s.cr3 p.dir).frame

/-- After `count` rounds of the loop. `kept` and `moved` are about the entries of pages that were
mapped, wherever the walk may go by now; `idle` leaves out the tables made on the way and what
is behind a table set by the loop itself. -/
structure Progress (s₀ : State) (first count : Nat) (s : State) : Prop where
  cr3 : s.cr3 = s₀.cr3
  marks : ∀ f, used s₀.bitmap f = true → used s.bitmap f = true
  marked : ∀ i, (s.mem s₀.cr3 i).present = true → used s.bitmap (s.mem s₀.cr3 i).frame = true
  apart : ∀ i j, (s.mem s₀.cr3 i).present = true → (s.mem s₀.cr3 j).present = true →
    (s.mem s₀.cr3 i).frame = (s.mem s₀.cr3 j).frame → i = j
  dirs : ∀ i, (s.mem s₀.cr3 i).present = true →
    s.mem s₀.cr3 i = s₀.mem s₀.cr3 i ∨ used s₀.bitmap (s.mem s₀.cr3 i).frame = false
  kept : ∀ p, (pageFrame s₀ p).isSome = true → ¬Visited first count p →
    s.mem (tableOf s₀ p) p.table = s₀.mem (tableOf s₀ p) p.table
  moved : ∀ p, (pageFrame s₀ p).isSome = true → Visited first count p →
    (s.mem (tableOf s₀ p) p.table).present = true ∧
      used s₀.bitmap (s.mem (tableOf s₀ p) p.table).frame = false
  covered : ∀ p, Visited first count p → ¬Visited first count ⟨1023#10, p.dir⟩ →
    (pageFrame s p).isSome = true
  idle : ∀ p, pageFrame s₀ p = none → ¬Visited first count p →
    ¬Visited first count ⟨1023#10, p.dir⟩ →
    (p.dir = 1023#10 → ∀ q, Visited first (count + 1) q → q.dir ≠ p.table) →
      (pageFrame s p).isSome = false

section NewTable

/-- A table of zeros in `g` is entered in the directory. -/
structure NewTable (s : State) (dir : Frame) (i : Index) (g : Frame) (w : Word) (t : State) :
    Prop where
  cr3 : t.cr3 = s.cr3
  row : ∀ k, t.mem dir k = if k = i then w else s.mem dir k
  blank : ∀ j, t.mem g j = 0#32
  others : ∀ f, f ≠ g → f ≠ dir → t.mem f = s.mem f

variable {s t : State} {dir g : Frame} {i : Index} {w : Word}

theorem newTable_write (s : State) (bitmap : Bitmap) (i : Index) (w : Word) (other : dir ≠ g) :
    NewTable s dir i g w
      (State.write { s.writeFrame g (fun _ => 0#32) with bitmap := bitmap } dir i w) where
  cr3 := rfl
  row k := by
    rw [State.write_mem_self, Function.update_apply]
    exact congrArg (ite _ _) (congrFun (s.writeFrame_mem_ne _ other) k)
  blank j := by
    rw [State.write_mem_ne _ _ _ other.symm]
    exact congrFun (s.writeFrame_mem_self g _) j
  others f apart outside := by
    rw [State.write_mem_ne _ _ _ outside]
    exact s.writeFrame_mem_ne _ apart

theorem marked_ne {bitmap : Bitmap} {f g : Frame} (marked : used bitmap f = true)
    (unmarked : used bitmap g = false) : f ≠ g := by
  intro equal
  rw [equal, unmarked] at marked
  cases marked

theorem NewTable.marked (made : NewTable s dir i g w t)
    (marked : ∀ k, (s.mem dir k).present = true → used s.bitmap (s.mem dir k).frame = true)
    (grows : ∀ f, used s.bitmap f = true → used t.bitmap f = true)
    (claimed : used t.bitmap g = true) (frame : w.frame = g) :
    ∀ k, (t.mem dir k).present = true → used t.bitmap (t.mem dir k).frame = true := by
  intro k
  rw [made.row]
  split
  · exact fun _ => frame ▸ claimed
  · exact fun present => grows _ (marked k present)

theorem NewTable.apart (made : NewTable s dir i g w t)
    (marked : ∀ k, (s.mem dir k).present = true → used s.bitmap (s.mem dir k).frame = true)
    (apart : ∀ k l, (s.mem dir k).present = true → (s.mem dir l).present = true →
      (s.mem dir k).frame = (s.mem dir l).frame → k = l)
    (unmarked : used s.bitmap g = false) (frame : w.frame = g) :
    ∀ k l, (t.mem dir k).present = true → (t.mem dir l).present = true →
      (t.mem dir k).frame = (t.mem dir l).frame → k = l := by
  intro k l
  rw [made.row, made.row]
  split
  · rename_i left
    split
    · rename_i right
      exact fun _ _ _ => left.trans right.symm
    · intro _ present same
      exact absurd (same.symm.trans frame) (marked_ne (marked l present) unmarked)
  · split
    · intro present _ same
      exact absurd (same.trans frame) (marked_ne (marked k present) unmarked)
    · exact apart k l

end NewTable

section Progress

variable {s₀ s s' : State} {first count : Nat}

theorem Space.window (space : Space s₀) (i : Index) :
    (pageFrame s₀ ⟨1023#10, i⟩).isSome = (s₀.mem s₀.cr3 i).present := by
  rw [pageFrame_self space.self]
  cases (s₀.mem s₀.cr3 i).present <;> rfl

theorem Space.tableOf_window (space : Space s₀) (i : Index) : tableOf s₀ ⟨1023#10, i⟩ = s₀.cr3 :=
  space.self.2

theorem Space.tableOf_marked (space : Space s₀) {p : VPage}
    (mapped : (pageFrame s₀ p).isSome = true) : used s₀.bitmap (tableOf s₀ p) = true :=
  space.marked p.dir (pageFrame_isSome.mp mapped).1

theorem Space.cr3_marked (space : Space s₀) : used s₀.bitmap s₀.cr3 = true := by
  rw [← space.self.2]
  exact space.marked _ space.self.1

theorem not_visited_zero (first : Nat) (p : VPage) : ¬Visited first 0 p := by
  rw [Visited]
  omega

theorem Space.start (space : Space s₀) (first : Nat) : Progress s₀ first 0 s₀ := by
  constructor
  case cr3 =>
    rfl
  case marks => exact fun _ => id
  case marked => exact space.marked
  case apart => exact space.apart
  case dirs => exact fun _ _ => .inl rfl
  case kept => exact fun _ _ _ => rfl
  case moved => exact fun p _ visited => absurd visited (not_visited_zero first p)
  case covered => exact fun p visited => absurd visited (not_visited_zero first p)
  case idle =>
    intro p none _ _ _
    rw [none]
    rfl

/-- The entry of a page that was mapped is present all along. -/
theorem Progress.entry_present (x : Progress s₀ first count s) {p : VPage}
    (mapped : (pageFrame s₀ p).isSome = true) :
    (s.mem (tableOf s₀ p) p.table).present = true := by
  by_cases visited : Visited first count p
  · exact (x.moved p mapped visited).1
  · rw [x.kept p mapped visited]
    exact (pageFrame_isSome.mp mapped).2

/-- As long as the loop has not come to a directory entry, it is what it was. -/
theorem Progress.pde_kept (x : Progress s₀ first count s) (space : Space s₀) {i : Index}
    (present : (s₀.mem s₀.cr3 i).present = true) (unvisited : ¬Visited first count ⟨1023#10, i⟩) :
    s.mem s₀.cr3 i = s₀.mem s₀.cr3 i := by
  have kept := x.kept ⟨1023#10, i⟩ ((space.window i).trans present) unvisited
  rw [space.tableOf_window] at kept
  exact kept

theorem self_unvisited (small : first + count < 2 ^ 20) : ¬Visited first count SELF_PAGE := by
  rw [Visited, show SELF_PAGE.number = 2 ^ 20 - 1 from rfl]
  omega

theorem Progress.self (x : Progress s₀ first count s) (space : Space s₀)
    (small : first + count < 2 ^ 20) :
    (s.mem s.cr3 1023#10).present = true ∧ (s.mem s.cr3 1023#10).frame = s.cr3 := by
  rw [x.cr3, x.pde_kept space space.self.1 (self_unvisited small)]
  exact space.self

/-- The only entry whose table is the directory is its own. -/
theorem Progress.self_index (x : Progress s₀ first count s) (space : Space s₀)
    (small : first + count < 2 ^ 20) {i : Index} (present : (s.mem s₀.cr3 i).present = true)
    (frame : (s.mem s₀.cr3 i).frame = s₀.cr3) : i = 1023#10 := by
  have self := x.self space small
  rw [x.cr3] at self
  exact x.apart i 1023#10 present self.1 (frame.trans self.2.symm)

theorem Progress.claim (x : Progress s₀ first count s) {bitmap : Bitmap}
    (grows : ∀ f, used s.bitmap f = true → used bitmap f = true) :
    Progress s₀ first count { s with bitmap := bitmap } := by
  refine { x with marks := ?_, marked := ?_ }
  · exact fun f old => grows f (x.marks f old)
  · exact fun i present => grows _ (x.marked i present)

theorem Progress.unused (x : Progress s₀ first count s) {f : Frame}
    (unmarked : used s.bitmap f = false) : used s₀.bitmap f = false := by
  cases old : used s₀.bitmap f with
  | false => rfl
  | true =>
      rw [x.marks f old] at unmarked
      cases unmarked

/-- A table of zeros, in a frame that was not marked, for a directory entry that is absent. -/
theorem Progress.newTable (x : Progress s₀ first count s) (space : Space s₀)
    (small : first + count < 2 ^ 20) {q : VPage} (next : q.number = first + count)
    (absent : (s.mem s₀.cr3 q.dir).present = false) {g : Frame} (unmarked : used s.bitmap g = false)
    {bitmap : Bitmap} (grows : ∀ f, used s.bitmap f = true → used bitmap f = true)
    (claimed : used bitmap g = true) {w : Word} (w_frame : w.frame = g) :
    Progress s₀ first count
      (State.write { s.writeFrame g (fun _ => 0#32) with bitmap := bitmap } s₀.cr3 q.dir w) := by
  have unequal {f : Frame} (old : used s.bitmap f = true) : f ≠ g := marked_ne old unmarked
  have fresh := x.unused unmarked
  have made := newTable_write s bitmap q.dir w (unequal (x.marks _ space.cr3_marked))
  have t_bitmap : (State.write { s.writeFrame g (fun _ => 0#32) with bitmap := bitmap } s₀.cr3
    q.dir w).bitmap = bitmap := rfl
  generalize State.write { s.writeFrame g (fun _ => 0#32) with bitmap := bitmap } s₀.cr3 q.dir w =
    t at *
  have other {f : Frame} (apart : f ≠ g) {i : Index} (entry : f = s₀.cr3 → i ≠ q.dir) :
      t.mem f i = s.mem f i := by
    by_cases here : f = s₀.cr3
    · rw [here, made.row, if_neg (entry here)]
    · rw [made.others f apart here]
  have present_ne {i : Index} (present : (s.mem s₀.cr3 i).present = true) : i ≠ q.dir := by
    intro equal
    rw [equal, absent] at present
    cases present
  have same {p : VPage} (mapped : (pageFrame s₀ p).isSome = true) :
      t.mem (tableOf s₀ p) p.table = s.mem (tableOf s₀ p) p.table := by
    apply other (unequal (x.marks _ (space.tableOf_marked mapped)))
    intro here
    have present := x.entry_present mapped
    rw [here] at present
    exact present_ne present
  rw [← t_bitmap] at grows claimed
  constructor
  case cr3 => exact made.cr3.trans x.cr3
  case marks =>
    intro f old
    exact grows f (x.marks f old)
  case marked => exact made.marked x.marked grows claimed w_frame
  case apart => exact made.apart x.marked x.apart unmarked w_frame
  case dirs =>
    intro i
    rw [made.row]
    split
    · exact fun _ => .inr (w_frame ▸ fresh)
    · exact x.dirs i
  case kept =>
    intro p mapped unvisited
    rw [same mapped]
    exact x.kept p mapped unvisited
  case moved =>
    intro p mapped visited
    rw [same mapped]
    exact x.moved p mapped visited
  case covered =>
    intro p visited unvisited
    rcases pageFrame_isSome.mp (x.covered p visited unvisited) with ⟨table, entry⟩
    rw [x.cr3] at table entry
    rw [pageFrame_isSome, made.cr3, x.cr3, made.row, if_neg (present_ne table)]
    refine ⟨table, ?_⟩
    rw [other (unequal (x.marked _ table))]
    · exact entry
    · intro here
      rw [here] at entry
      exact present_ne entry
  case idle =>
    intro p none unvisited unset early
    have before := x.idle p none unvisited unset early
    rw [Bool.eq_false_iff, ne_eq, pageFrame_isSome, x.cr3] at before
    rw [Bool.eq_false_iff, ne_eq, pageFrame_isSome, made.cr3, x.cr3, made.row]
    split
    · rw [w_frame, made.blank]
      exact fun both => Bool.false_ne_true both.2
    · intro ⟨table, entry⟩
      apply before
      rw [other (unequal (x.marked _ table))] at entry
      · exact ⟨table, entry⟩
      · intro here
        have index := x.self_index space small table here
        exact (early index q ⟨by omega, by omega⟩).symm

theorem visited_next {q : VPage} (next : q.number = first + count) {p : VPage} :
    Visited first (count + 1) p ↔ p = q ∨ Visited first count p := by
  constructor
  · intro ⟨low, high⟩
    by_cases here : p.number = q.number
    · exact .inl (VPage.number_inj here)
    · exact .inr ⟨low, by omega⟩
  · intro either
    rcases either with rfl | ⟨low, high⟩
    · exact ⟨by omega, by omega⟩
    · exact ⟨low, by omega⟩

/-- The entry of a page set in its table: what becomes of the directory, and of the entries of
pages that were mapped. -/
structure EntrySet (s₀ s : State) (q : VPage) (w : Word) (t : State) : Prop where
  cr3 : t.cr3 = s.cr3
  bitmap : t.bitmap = s.bitmap
  here : t.mem (s.mem s₀.cr3 q.dir).frame q.table = w
  others : ∀ f i, (f = (s.mem s₀.cr3 q.dir).frame → i ≠ q.table) → t.mem f i = s.mem f i
  row : ∀ i, t.mem s₀.cr3 i = if q = ⟨1023#10, i⟩ then w else s.mem s₀.cr3 i
  same : ∀ p, (pageFrame s₀ p).isSome = true → p ≠ q →
    t.mem (tableOf s₀ p) p.table = s.mem (tableOf s₀ p) p.table

section EntrySet

variable {q : VPage} {w : Word} {t : State}

theorem write_others (s : State) (f : Frame) (j : Index) (w : Word) {g : Frame} {i : Index}
    (apart : g = f → i ≠ j) : (s.write f j w).mem g i = s.mem g i := by
  by_cases same : g = f
  · rw [same, State.write_mem_self, Function.update_of_ne (apart same)]
  · rw [State.write_mem_ne _ _ _ same]

/-- A directory entry is written to exactly when the page is one of the self-map. -/
theorem Progress.write_row (x : Progress s₀ first count s) (space : Space s₀)
    (small : first + count < 2 ^ 20) (table : (s.mem s₀.cr3 q.dir).present = true) (w : Word)
    (i : Index) : (s.write (s.mem s₀.cr3 q.dir).frame q.table w).mem s₀.cr3 i =
      if q = ⟨1023#10, i⟩ then w else s.mem s₀.cr3 i := by
  by_cases dir : s₀.cr3 = (s.mem s₀.cr3 q.dir).frame
  · have last := x.self_index space small table dir.symm
    rw [← dir, State.write_mem_self]
    by_cases equal : i = q.table
    · rw [if_pos (by rw [equal, ← last]), equal, Function.update_self]
    · rw [Function.update_of_ne equal, if_neg]
      intro page
      exact equal (congrArg VPage.table page).symm
  · rw [State.write_mem_ne _ _ _ dir, if_neg]
    intro page
    apply dir
    have self := x.self space small
    rw [x.cr3] at self
    rw [congrArg VPage.dir page, self.2]

theorem Progress.write_same (x : Progress s₀ first count s) (space : Space s₀)
    (table : (s.mem s₀.cr3 q.dir).present = true) (w : Word) {p : VPage}
    (mapped : (pageFrame s₀ p).isSome = true) (apart : p ≠ q) :
    (s.write (s.mem s₀.cr3 q.dir).frame q.table w).mem (tableOf s₀ p) p.table =
      s.mem (tableOf s₀ p) p.table := by
  apply write_others
  intro frame entry
  have dir : p.dir = q.dir := by
    rcases x.dirs q.dir table with old | unused
    · apply space.apart p.dir q.dir (pageFrame_isSome.mp mapped).1 (old ▸ table)
      rw [← old]
      exact frame
    · rw [← frame, space.tableOf_marked mapped] at unused
      cases unused
  exact apart (VPage.eq dir entry)

theorem Progress.entrySet (x : Progress s₀ first count s) (space : Space s₀)
    (small : first + count < 2 ^ 20) (table : (s.mem s₀.cr3 q.dir).present = true) (w : Word) :
    EntrySet s₀ s q w (s.write (s.mem s₀.cr3 q.dir).frame q.table w) where
  cr3 := rfl
  bitmap := rfl
  here := by rw [State.write_mem_self, Function.update_self]
  others _ _ := write_others s _ _ w
  row := x.write_row space small table w
  same _ := x.write_same space table w

theorem EntrySet.marked (set : EntrySet s₀ s q w t) (x : Progress s₀ first count s)
    (marked : used s.bitmap w.frame = true) (i : Index) (present : (t.mem s₀.cr3 i).present = true) :
    used t.bitmap (t.mem s₀.cr3 i).frame = true := by
  rw [set.row] at present ⊢
  rw [set.bitmap]
  split
  · exact marked
  · rename_i other
    rw [if_neg other] at present
    exact x.marked i present

/-- The frame put in is in no other directory entry. -/
theorem EntrySet.apart (set : EntrySet s₀ s q w t) (x : Progress s₀ first count s)
    (new : ∀ i, (s.mem s₀.cr3 i).present = true → (s.mem s₀.cr3 i).frame ≠ w.frame) (i j : Index) :
    (t.mem s₀.cr3 i).present = true → (t.mem s₀.cr3 j).present = true →
      (t.mem s₀.cr3 i).frame = (t.mem s₀.cr3 j).frame → i = j := by
  rw [set.row, set.row]
  split
  · rename_i left
    split
    · rename_i right
      exact fun _ _ _ => congrArg VPage.table (left.symm.trans right)
    · intro _ there frame
      exact absurd frame.symm (new j there)
  · split
    · intro there _ frame
      exact absurd frame (new i there)
    · exact x.apart i j

theorem EntrySet.dirs (set : EntrySet s₀ s q w t) (x : Progress s₀ first count s)
    (fresh : used s₀.bitmap w.frame = false) (i : Index) : (t.mem s₀.cr3 i).present = true →
      t.mem s₀.cr3 i = s₀.mem s₀.cr3 i ∨ used s₀.bitmap (t.mem s₀.cr3 i).frame = false := by
  rw [set.row]
  split
  · exact fun _ => .inr fresh
  · exact x.dirs i

theorem window_unvisited {q : VPage} (next : q.number = first + count) :
    ¬Visited first count ⟨1023#10, q.dir⟩ := by
  intro visited
  have high := visited.2
  have dir := q.dir.isLt
  have entry := q.table.isLt
  simp only [VPage.number, BitVec.toNat_ofNat] at high next
  omega

theorem EntrySet.moved (set : EntrySet s₀ s q w t) (x : Progress s₀ first count s)
    (space : Space s₀) (next : q.number = first + count) (present : w.present = true)
    (fresh : used s₀.bitmap w.frame = false) (p : VPage) (mapped : (pageFrame s₀ p).isSome = true)
    (visited : Visited first (count + 1) p) : (t.mem (tableOf s₀ p) p.table).present = true ∧
      used s₀.bitmap (t.mem (tableOf s₀ p) p.table).frame = false := by
  by_cases last : p = q
  · rw [last] at mapped ⊢
    have old := x.pde_kept space (pageFrame_isSome.mp mapped).1 (window_unvisited next)
    rw [tableOf, ← old, set.here]
    exact ⟨present, fresh⟩
  · rw [set.same p mapped last]
    exact x.moved p mapped (((visited_next next).mp visited).resolve_left last)

theorem EntrySet.covered (set : EntrySet s₀ s q w t) (x : Progress s₀ first count s)
    (next : q.number = first + count) (table : (s.mem s₀.cr3 q.dir).present = true)
    (present : w.present = true) (p : VPage) (visited : Visited first (count + 1) p)
    (unvisited : ¬Visited first (count + 1) ⟨1023#10, p.dir⟩) : (pageFrame t p).isSome = true := by
  rw [visited_next next, not_or] at unvisited
  rw [pageFrame_isSome, set.cr3, x.cr3, set.row, if_neg (Ne.symm unvisited.1)]
  by_cases last : p = q
  · rw [last, set.here]
    exact ⟨table, present⟩
  · have before := x.covered p (((visited_next next).mp visited).resolve_left last) unvisited.2
    rw [pageFrame_isSome, x.cr3] at before
    rw [set.others]
    · exact before
    · intro frame entry
      exact last (VPage.eq (x.apart p.dir q.dir before.1 table frame) entry)

theorem EntrySet.idle (set : EntrySet s₀ s q w t) (x : Progress s₀ first count s)
    (next : q.number = first + count) (table : (s.mem s₀.cr3 q.dir).present = true) (p : VPage)
    (nowhere : pageFrame s₀ p = none) (unvisited : ¬Visited first (count + 1) p)
    (unset : ¬Visited first (count + 1) ⟨1023#10, p.dir⟩)
    (early : p.dir = 1023#10 → ∀ q, Visited first (count + 1 + 1) q → q.dir ≠ p.table) :
    (pageFrame t p).isSome = false := by
  rw [visited_next next, not_or] at unvisited unset
  have before := x.idle p nowhere unvisited.2 unset.2 (fun last q' visited =>
    early last q' ⟨visited.1, by have := visited.2; omega⟩)
  rw [Bool.eq_false_iff, ne_eq, pageFrame_isSome, x.cr3] at before
  rw [Bool.eq_false_iff, ne_eq, pageFrame_isSome, set.cr3, x.cr3, set.row,
    if_neg (Ne.symm unset.1)]
  intro ⟨there, entry⟩
  apply before
  rw [set.others] at entry
  · exact ⟨there, entry⟩
  · intro frame equal
    exact unvisited.1 (VPage.eq (x.apart p.dir q.dir there table frame) equal)

end EntrySet

/-- The entry of the next page set in its table. -/
theorem Progress.setEntry (x : Progress s₀ first count s) (space : Space s₀) {q : VPage}
    (next : q.number = first + count) (small : first + count + 1 < 2 ^ 20)
    (table : (s.mem s₀.cr3 q.dir).present = true) {w : Word} (present : w.present = true)
    (fresh : used s₀.bitmap w.frame = false) (marked : used s.bitmap w.frame = true)
    (new : ∀ i, (s.mem s₀.cr3 i).present = true → (s.mem s₀.cr3 i).frame ≠ w.frame) :
    Progress s₀ first (count + 1) (s.write (s.mem s₀.cr3 q.dir).frame q.table w) := by
  have set := x.entrySet space (by omega) table w
  constructor
  case cr3 => exact set.cr3.trans x.cr3
  case marks => exact x.marks
  case marked => exact set.marked x marked
  case apart => exact set.apart x new
  case dirs => exact set.dirs x fresh
  case kept =>
    intro p mapped unvisited
    rw [visited_next next, not_or] at unvisited
    rw [set.same p mapped unvisited.1]
    exact x.kept p mapped unvisited.2
  case moved => exact set.moved x space next present fresh
  case covered => exact set.covered x next table present
  case idle => exact set.idle x next table

theorem puse_grows (bitmap : Bitmap) (f : Frame) {g : Frame} (old : used bitmap g = true) :
    used (puse bitmap f) g = true := by
  rw [used_puse, old, Bool.or_true]

theorem Progress.mapPage (x : Progress s₀ first count s) (space : Space s₀) {q : VPage}
    (next : q.number = first + count) (small : first + count + 1 < 2 ^ 20)
    (taken : mapPage s q = some s') : Progress s₀ first (count + 1) s' := by
  simp only [Vmm.mapPage, Option.bind_eq_bind, Option.bind_eq_some_iff] at taken
  rcases taken with ⟨⟨f, bitmap⟩, allocated, rest⟩
  rcases pmalloc_spec _ _ _ allocated with ⟨unmarked, rfl⟩
  have self := x.self space (by omega)
  have claimed := x.claim (fun g => puse_grows s.bitmap f)
  have frame : (address f ||| 0b100000000111#32).frame = f := frame_address_or f _ (by decide)
  have present : (address f ||| 0b100000000111#32).present = true :=
    address_or_getLsbD f _ 0 (by decide)
  have fresh := x.unused unmarked
  have marked : used (puse s.bitmap f) (address f ||| 0b100000000111#32).frame = true := by
    rw [frame, used_puse]
    simp
  have new {i : Index} (there : (s.mem s₀.cr3 i).present = true) :
      (s.mem s₀.cr3 i).frame ≠ f := marked_ne (x.marked i there) unmarked
  have window {t : State} (y : Progress s₀ first count t) : pageFrame t (pageEntry q).toVPage =
      if (t.mem s₀.cr3 q.dir).present then some (t.mem s₀.cr3 q.dir).frame else none := by
    rw [← y.cr3]
    exact pageFrame_self (y.self space (by omega)) q.dir
  rw [← frame] at fresh new
  generalize address f ||| 0b100000000111#32 = w at *
  cases table : (s.mem s₀.cr3 q.dir).present with
  | true =>
      have walk := window claimed
      simp only [table, if_true] at walk
      simp only [walk, Option.isSome_some, if_true, store, Option.bind_some, Option.map_some,
        Option.some.injEq] at rest
      rw [← rest]
      exact claimed.setEntry space next small table present fresh marked (fun _ => new)
  | false =>
      have walk := window claimed
      simp only [table, Bool.false_eq_true, if_false] at walk
      simp only [walk, Option.isSome_none, Bool.false_eq_true, if_false] at rest
      rcases Option.bind_eq_some_iff.mp rest with ⟨t, demanded, stored⟩
      have early : q.dir ≠ 1023#10 := by
        intro last
        rw [x.cr3] at self
        rw [last, self.1] at table
        cases table
      have cr3_marked : used (puse s.bitmap f) s.cr3 = true := by
        rw [x.cr3]
        exact puse_grows _ _ (x.marks _ space.cr3_marked)
      rcases demandPage_eq (s := { s with bitmap := puse s.bitmap f }) self cr3_marked early demanded
        with ⟨g, bitmap, again, dir_ne, result⟩
      rcases pmalloc_spec _ _ _ again with ⟨unmarked_g, rfl⟩
      have g_frame : (address g + 0b100000000111#32).frame = g := entry_frame g _ (by decide)
      have g_present : (address g + 0b100000000111#32).present = true :=
        entry_getLsbD g _ (by decide) 0 (by decide)
      have made : Progress s₀ first count t := by
        have filled := claimed.newTable space (by omega) next table unmarked_g
          (fun h => puse_grows _ g) (by rw [used_puse]; simp) g_frame
        rw [← x.cr3] at filled
        rw [result]
        exact filled
      have row (i : Index) : t.mem s₀.cr3 i =
          if i = q.dir then address g + 0b100000000111#32 else s.mem s₀.cr3 i := by
        rw [result, ← x.cr3, State.write_mem_self, Function.update_apply]
        exact congrArg (ite _ _) (congrFun (s.writeFrame_mem_ne _ dir_ne.symm) i)
      have t_table : (t.mem s₀.cr3 q.dir).present = true := by
        rw [row, if_pos rfl, g_present]
      have walk := window made
      simp only [t_table, if_true] at walk
      simp only [store, walk, Option.map_some, Option.some.injEq] at stored
      rw [← stored]
      apply made.setEntry space next small t_table present fresh
      · rw [result]
        exact puse_grows _ g marked
      · intro i
        rw [row]
        split
        · intro _ equal
          rw [g_frame, frame] at equal
          rw [frame] at marked
          rw [equal] at unmarked_g
          exact absurd (marked.symm.trans unmarked_g) (by decide)
        · exact new

theorem Progress.mapPages (space : Space s₀) {base : BitVec 32} (rounds : Nat)
    (x : Progress s₀ (base.toNat / 4096) count s)
    (small : base.toNat / 4096 + (count + rounds) < 2 ^ 20)
    (taken : mapPages base rounds count s = some s') :
    Progress s₀ (base.toNat / 4096) (count + rounds) s' := by
  induction rounds generalizing s count with
  | zero =>
      cases taken
      exact x
  | succ rounds ih =>
      rcases Option.bind_eq_some_iff.mp taken with ⟨t, mapped, rest⟩
      have number : (mmapPage base count).number = base.toNat / 4096 + count :=
        mmapPage_number base (by omega)
      have y := x.mapPage space number (by omega) mapped
      rw [show count + (rounds + 1) = count + 1 + rounds by omega]
      exact ih y (by omega) rest

end Progress

section Mmap

variable {s s' : State} {hint length : BitVec 32} {flags : BitVec 8}

def firstPage (hint : BitVec 32) (flags : BitVec 8) : Nat := (mmapBase hint flags).toNat / 4096

theorem visited_mmapPage {p : VPage} (small : firstPage hint flags + noPages length < 2 ^ 20) :
    Visited (firstPage hint flags) (noPages length) p ↔
      ∃ i < noPages length, mmapPage (mmapBase hint flags) i = p := by
  have number {i : Nat} (inside : i < noPages length) :
      (mmapPage (mmapBase hint flags) i).number = firstPage hint flags + i :=
    mmapPage_number _ (by rw [← firstPage]; omega)
  constructor
  · intro ⟨low, high⟩
    refine ⟨p.number - firstPage hint flags, by omega, VPage.number_inj ?_⟩
    rw [number (by omega)]
    omega
  · intro ⟨i, inside, same⟩
    rw [Visited, ← same, number inside]
    omega

/-- A loop that does not come to the directory's own page ends before the last address. -/
theorem short_of_last
    (avoids : ∀ i < noPages length, mmapPage (mmapBase hint flags) i ≠ SELF_PAGE) :
    firstPage hint flags + noPages length < 2 ^ 20 := by
  by_contra long
  have bound := (mmapBase hint flags).isLt
  have first : firstPage hint flags < 2 ^ 20 := by
    rw [firstPage]
    omega
  have number := mmapPage_number (mmapBase hint flags)
    (i := 2 ^ 20 - 1 - firstPage hint flags) (by rw [← firstPage]; omega)
  apply avoids (2 ^ 20 - 1 - firstPage hint flags) (by omega)
  apply VPage.number_inj
  rw [number, ← firstPage, show SELF_PAGE.number = 2 ^ 20 - 1 from rfl]
  omega

theorem Untaken.avoids (x : Untaken s hint length flags) (space : Space s) :
    ∀ i < noPages length, mmapPage (mmapBase hint flags) i ≠ SELF_PAGE := by
  intro i inside same
  have free := x.free i inside
  rw [same, SELF_PAGE, pageFrame_self space.self, if_pos space.self.1] at free
  cases free

/-- Between a page and the entry of its table in the self-map there is a page of the kernel. -/
theorem between (space : Space s) {first count : Nat} (small : first + count < 2 ^ 20)
    (free : ∀ p, Visited first count p → pageFrame s p = none) {p : VPage}
    (visited : Visited first count p) : ¬Visited first count ⟨1023#10, p.dir⟩ := by
  intro window
  have dir := p.dir.isLt
  have entry := p.table.isLt
  have low : first ≤ p.dir.toNat * 1024 + p.table.toNat := visited.1
  have high := window.2
  rw [number_window] at high
  by_cases user : p.dir.toNat < 768
  · have number : VPage.number ⟨768#10, 0#10⟩ = 786432 := by decide
    have kernel := free ⟨768#10, 0#10⟩ ⟨by omega, by omega⟩
    have mapped := space.kernel
    rw [kernel] at mapped
    cases mapped
  · have number : VPage.number ⟨1023#10, 768#10⟩ = 1048320 := by decide
    have kernel := free ⟨1023#10, 768#10⟩ ⟨by omega, by omega⟩
    have mapped := (space.window 768#10).trans (pageFrame_isSome.mp space.kernel).1
    rw [kernel] at mapped
    cases mapped

theorem offset_number (hint : BitVec 32) (flags : BitVec 8) {offset : BitVec 32} (inside : offset < length)
    (small : firstPage hint flags + noPages length < 2 ^ 20) :
    ((mmapBase hint flags).toNat % 4096 + offset.toNat) / 4096 ≤ noPages length ∧
      (pageOf (mmapBase hint flags + offset)).number =
        firstPage hint flags + ((mmapBase hint flags).toNat % 4096 + offset.toNat) / 4096 := by
  have low := BitVec.lt_def.mp inside
  have high := le_noPages length
  have last : ((mmapBase hint flags).toNat % 4096 + offset.toNat) / 4096 ≤ noPages length := by
    omega
  refine ⟨last, ?_⟩
  rw [firstPage] at small ⊢
  rw [pageOf_number, BitVec.toNat_add]
  omega

theorem mmap_progress (space : Space s) (small : firstPage hint flags + noPages length < 2 ^ 20)
    (taken : mmap s hint length flags = some s') :
    Progress s (firstPage hint flags) (noPages length) s' := by
  have progress := Progress.mapPages space (noPages length)
    (space.start (firstPage hint flags)) (by rw [← firstPage]; omega) taken
  rw [Nat.zero_add] at progress
  exact progress

theorem Untaken.keeps (x : Untaken s hint length flags) (space : Space s)
    (taken : mmap s hint length flags = some s') : Keeps s (mmapBase hint flags) length s' := by
  have small := short_of_last (x.avoids space)
  have progress := mmap_progress space small taken
  have free (p : VPage) (visited : Visited (firstPage hint flags) (noPages length) p) :
      pageFrame s p = none := by
    rcases (visited_mmapPage small).mp visited with ⟨i, inside, rfl⟩
    exact x.free i inside
  have unvisited {p : VPage} (mapped : (pageFrame s p).isSome = true) :
      ¬Visited (firstPage hint flags) (noPages length) p := by
    intro visited
    rw [free p visited] at mapped
    cases mapped
  have pages (p : VPage) (f : Frame) (mapped : pageFrame s p = some f) :
      pageFrame s' p = some f := by
    have there : (pageFrame s p).isSome = true := by rw [mapped]; rfl
    rcases pageFrame_isSome.mp there with ⟨table, entry⟩
    have dir := progress.pde_kept space table (unvisited ((space.window p.dir).trans table))
    have same := progress.kept p there (unvisited there)
    rw [pageFrame_present table entry] at mapped
    rw [pageFrame, progress.cr3]
    simp only [dir, table, if_true]
    rw [tableOf] at same
    simp only [same, entry, if_true, mapped]
  refine ⟨?_, pages⟩
  intro offset inside
  rcases offset_number hint flags inside small with ⟨_, number⟩
  by_cases beyond :
      noPages length ≤ ((mmapBase hint flags).toNat % 4096 + offset.toNat) / 4096
  · rcases Option.isSome_iff_exists.mp (x.tail offset inside beyond) with ⟨f, mapped⟩
    rw [pages _ f mapped]
    rfl
  · have visited : Visited (firstPage hint flags) (noPages length)
        (pageOf (mmapBase hint flags + offset)) := by
      rw [Visited, number]
      omega
    exact progress.covered _ visited (between space small free visited)

/-- A page that was mapped and is set again gets another frame, or its table does. -/
theorem Progress.lost {s₀ : State} {first count : Nat} (x : Progress s₀ first count s)
    (space : Space s₀) (small : first + count < 2 ^ 20)
    (pages : ∀ p f, pageFrame s₀ p = some f → pageFrame s p = some f) {p : VPage} {f : Frame}
    (mapped : pageFrame s₀ p = some f) (visited : Visited first count p) :
    used s₀.bitmap f = false := by
  have there : (pageFrame s₀ p).isSome = true := by rw [mapped]; rfl
  have table := (pageFrame_isSome.mp there).1
  have moved := x.moved p there visited
  have unset : ¬Visited first count ⟨1023#10, p.dir⟩ := by
    intro window
    have own : pageFrame s₀ ⟨1023#10, p.dir⟩ = some (s₀.mem s₀.cr3 p.dir).frame := by
      rw [pageFrame_self space.self, if_pos table]
    have set := x.moved ⟨1023#10, p.dir⟩ (by rw [own]; rfl) window
    rw [space.tableOf_window] at set
    have kept := pages _ _ own
    rw [pageFrame_self (x.self space small), x.cr3, if_pos set.1, Option.some.injEq] at kept
    rw [kept, space.marked _ table] at set
    exact absurd set.2 (by decide)
  have dir := x.pde_kept space table unset
  have kept := pages _ _ mapped
  rw [tableOf, ← dir] at moved
  have now : pageFrame s p = some (s.mem (s.mem s₀.cr3 p.dir).frame p.table).frame := by
    rw [← x.cr3]
    apply pageFrame_present
    · rw [x.cr3, dir]
      exact table
    · rw [x.cr3]
      exact moved.1
  rw [now, Option.some.injEq] at kept
  rw [kept] at moved
  exact moved.2

theorem Keeps.untaken (x : Keeps s (mmapBase hint flags) length s') (space : Space s)
    (certain : ¬Chance s hint length flags) (taken : mmap s hint length flags = some s') :
    Untaken s hint length flags := by
  have small : firstPage hint flags + noPages length < 2 ^ 20 :=
    short_of_last fun i inside same => certain ⟨i, inside, .inl same⟩
  have progress := mmap_progress space small taken
  have free (p : VPage) (visited : Visited (firstPage hint flags) (noPages length) p) :
      pageFrame s p = none := by
    cases mapped : pageFrame s p with
    | none => rfl
    | some f =>
        rcases (visited_mmapPage small).mp visited with ⟨i, inside, same⟩
        have unmarked := progress.lost space small x.pages mapped visited
        exact absurd ⟨i, inside, .inr ⟨f, same.symm ▸ mapped, unmarked⟩⟩ certain
  constructor
  · intro i inside
    exact free _ ((visited_mmapPage small).mpr ⟨i, inside, rfl⟩)
  · intro offset inside beyond
    rcases offset_number hint flags inside small with ⟨last, number⟩
    by_contra absent
    have nowhere := Option.not_isSome_iff_eq_none.mp absent
    have mapped := x.bytes offset inside
    have index : (pageOf (mmapBase hint flags + offset)).number =
        firstPage hint flags + noPages length := by
      rw [number]
      omega
    generalize pageOf (mmapBase hint flags + offset) = p at *
    have unvisited : ¬Visited (firstPage hint flags) (noPages length) p := by
      rw [Visited, index]
      omega
    have unset : ¬Visited (firstPage hint flags) (noPages length) ⟨1023#10, p.dir⟩ := by
      have dir := p.dir.isLt
      have entry := p.table.isLt
      rw [VPage.number] at index
      rw [Visited, number_window]
      omega
    have longer : firstPage hint flags + (noPages length + 1) < 2 ^ 20 := by
      have bound := p.number_lt
      by_contra last
      have self : p = SELF_PAGE :=
        VPage.number_inj (by rw [show SELF_PAGE.number = 2 ^ 20 - 1 from rfl]; omega)
      rw [self, SELF_PAGE, pageFrame_self space.self, if_pos space.self.1] at nowhere
      cases nowhere
    -- with this page the loop would still be among pages that were free
    have free_next (q : VPage)
        (visited : Visited (firstPage hint flags) (noPages length + 1) q) : pageFrame s q = none := by
      by_cases here : q.number = p.number
      · rw [VPage.number_inj here, nowhere]
      · exact free q ⟨visited.1, by have := visited.2; omega⟩
    have idle := progress.idle p nowhere unvisited unset (fun window q visited equal => by
      apply between space longer free_next visited
      have same : (⟨1023#10, q.dir⟩ : VPage) = p := VPage.eq window.symm equal
      rw [same, Visited, index]
      omega)
    rw [idle] at mapped
    cases mapped

/-- `mmap` leaves what was mapped where it was exactly if it was given pages that were free,
but for what chance brings. -/
theorem mmap_keeps_iff (space : Space s) (taken : mmap s hint length flags = some s') :
    Keeps s (mmapBase hint flags) length s' ∧ ¬Chance s hint length flags ↔
      Untaken s hint length flags := by
  constructor
  · intro ⟨keeps, certain⟩
    exact keeps.untaken space certain taken
  · intro untaken
    refine ⟨untaken.keeps space taken, ?_⟩
    intro ⟨i, inside, either⟩
    rcases either with self | ⟨f, mapped, _⟩
    · exact untaken.avoids space i inside self
    · rw [untaken.free i inside] at mapped
      cases mapped

end Mmap

/-- The directory entry that a table is for. -/
def entryOf (own : Owners) (f : Frame) : Index :=
  match own f with
  | .table i => i
  | _ => if f = CODE_PT then 768#10 else if f = HEAP_PT then 769#10 else 1023#10

theorem Owned.entryOf_pde {s : State} {own : Owners} (h : Owned s own) {i : Index}
    (present : (pde s s.active i).present = true) : entryOf own (pde s s.active i).frame = i := by
  have ok := h.dirs _ h.active
  rcases index_cases i with below | rfl | rfl | gap | rfl
  · rw [entryOf, h.table_owner h.active below present]
  · rw [pde, ok.code.2, entryOf, h.low _ codePt_low]
    rfl
  · rw [pde, ok.heap.2, entryOf, h.low _ heapPt_low]
    rfl
  · rw [pde, ok.gap i gap.1 gap.2] at present
    cases present
  · have code := h.dir_ne_low h.active codePt_low (by decide)
    have heap := h.dir_ne_low h.active heapPt_low (by decide)
    rw [pde, ok.self.2, entryOf, if_neg code, if_neg heap]
    rcases h.dir_owner h.active with kernel | ⟨k, _, owner⟩
    · rw [kernel]
    · rw [owner]

theorem Owned.space {s : State} {own : Owners} (h : Owned s own) : Space s := by
  constructor
  · exact h.dir.self
  · rw [h.pageFrame_active, h.pte_code h.active, if_pos (h.identity _).1]
    rfl
  · intro i present
    rw [h.pde_cr3] at present ⊢
    exact h.used _ (h.held_owner (h.held_table h.active i present))
  · intro i j left right same
    rw [h.pde_cr3] at left right
    rw [h.pde_cr3, h.pde_cr3] at same
    rw [← h.entryOf_pde left, same, h.entryOf_pde right]

theorem first_mmap_keeps :
    ∃ s s', Run step Reserved (initVmm fun _ _ => 0#32) s ∧ mmap s 0#32 4096#32 0#8 = some s' ∧
      Keeps s USER_HEAP_BASE 4096#32 s' := by
  have check : (mmap sampleBoot 0#32 4096#32 0#8).isSome = true := by
    decide +kernel
  rcases Option.isSome_iff_exists.mp check with ⟨s', taken⟩
  rw [← initVmm_sample] at taken
  have space := (initVmm_owned fun _ _ => 0#32).space
  have untaken : Untaken (initVmm fun _ _ => 0#32) 0#32 4096#32 0#8 := by
    constructor
    · intro i inside
      have first : i = 0 := Nat.lt_one_iff.mp inside
      rw [first]
      decide +kernel
    · intro offset inside beyond
      have small : offset.toNat < 4096 := BitVec.lt_def.mp inside
      have aligned : (mmapBase 0#32 0#8).toNat % 4096 = 0 := by decide
      rw [show noPages 4096#32 = 1 from rfl, aligned] at beyond
      omega
  exact ⟨_, s', .refl, taken, ((mmap_keeps_iff space taken).mpr untaken).1⟩

theorem second_mmap_overlaps :
    ∃ s s', Run step Reserved (initVmm fun _ _ => 0#32) s ∧ mmap s 0#32 4096#32 0#8 = some s' ∧
      ¬Keeps s USER_HEAP_BASE 4096#32 s' := by
  have check : (runList step sampleBoot [.mmap 0#32 4096#32 0#8]).any (fun s =>
      (mmap s 0#32 4096#32 0#8).any (fun s' =>
        pageFrame s sampleAddr.toVPage ≠ pageFrame s' sampleAddr.toVPage ∧
          (pageFrame s sampleAddr.toVPage).isSome)) = true := by
    decide +kernel
  rcases (Option.any_eq_true _ _).mp check with ⟨s, sample, rest⟩
  rcases (Option.any_eq_true _ _).mp rest with ⟨s', taken, facts⟩
  rcases of_decide_eq_true facts with ⟨differs, mapped⟩
  rcases Option.isSome_iff_exists.mp mapped with ⟨f, before⟩
  have range : UserRange 0#32 4096#32 0#8 := by
    rw [UserRange]
    decide
  refine ⟨s, s', ?_, taken, ?_⟩
  · rw [initVmm_sample]
    exact Run.of_runList _ (by simp [Reserved, range]) sample
  · intro keeps
    apply differs
    rw [before, keeps.pages _ f before]

end TitorOS.Barrel.Vmm
