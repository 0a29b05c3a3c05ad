import Mathlib.Logic.Function.Basic
import Mathlib.Data.List.Basic

/-! The kernel heap as its users see it: 1024 pages, each with a used bit.
`kmalloc` takes the lowest page that is not in use; `none` is "Kernel heap out of
memory". -/

namespace TitorOS.Barrel

abbrev Kheap := Nat → Bool

def HEAP_PAGES : Nat := 1024

def kmalloc (used : Kheap) : Option (Nat × Kheap) :=
  ((List.range HEAP_PAGES).find? fun page => !used page).map fun page =>
    (page, Function.update used page true)

def kfree (used : Kheap) (page : Nat) : Kheap := Function.update used page false

/-- The bounce page that `mem_copy` takes and gives back. -/
def memCopy (used : Kheap) : Option Kheap :=
  (kmalloc used).map fun result => kfree result.2 result.1

theorem kmalloc_spec (used used' : Kheap) (page : Nat) (taken : kmalloc used = some (page, used')) :
    page < HEAP_PAGES ∧ used page = false ∧ used' = Function.update used page true := by
  obtain ⟨found, search, same⟩ := Option.map_eq_some_iff.mp taken
  cases same
  have inside := List.mem_of_find?_eq_some search
  have free := List.find?_some search
  exact ⟨List.mem_range.mp inside, by simpa using free, rfl⟩

theorem kmalloc_keeps (used used' : Kheap) (page other : Nat)
    (taken : kmalloc used = some (page, used')) (inUse : used other = true) :
    used' other = true := by
  obtain ⟨_, free, rfl⟩ := kmalloc_spec used used' page taken
  by_cases same : other = page
  · rw [same, Function.update_self]
  · rw [Function.update_of_ne same, inUse]

theorem memCopy_eq (used used' : Kheap) (copied : memCopy used = some used') : used' = used := by
  obtain ⟨⟨page, after⟩, taken, rfl⟩ := Option.map_eq_some_iff.mp copied
  obtain ⟨_, free, rfl⟩ := kmalloc_spec used after page taken
  funext other
  by_cases same : other = page
  · simp [kfree, same, free]
  · simp [kfree, same]

/-- The heap whose first `count` pages are in use. -/
def Kheap.low (count : Nat) : Kheap := fun page => decide (page < count)

theorem kmalloc_low (count : Nat) (room : count < HEAP_PAGES) :
    kmalloc (.low count) = some (count, .low (count + 1)) := by
  have found : (List.range HEAP_PAGES).find? (fun page => !Kheap.low count page) = some count := by
    rw [List.find?_range_eq_some]
    refine ⟨by simp [Kheap.low], List.mem_range.mpr room, ?_⟩
    intro page below
    simp [Kheap.low, below]
  have taken : Function.update (Kheap.low count) count true = Kheap.low (count + 1) := by
    funext page
    by_cases same : page = count
    · simp [Kheap.low, same]
    · simp only [Kheap.low, Function.update_of_ne same, decide_eq_decide]
      omega
  rw [kmalloc, found, Option.map_some, taken]

theorem memCopy_free (used : Kheap) (page : Nat) (inside : page < HEAP_PAGES)
    (free : used page = false) : memCopy used = some used := by
  obtain ⟨after, copied⟩ : ∃ after, memCopy used = some after := by
    have found : ((List.range HEAP_PAGES).find? fun page => !used page).isSome := by
      rw [List.find?_isSome]
      exact ⟨page, List.mem_range.mpr inside, by simp [free]⟩
    rcases Option.isSome_iff_exists.mp found with ⟨first, search⟩
    rw [memCopy, kmalloc, search]
    exact ⟨_, rfl⟩
  rw [copied, memCopy_eq used after copied]

theorem memCopy_none_iff (used : Kheap) :
    memCopy used = none ↔ ¬ ∃ page < HEAP_PAGES, used page = false := by
  constructor
  · rintro full ⟨page, inside, free⟩
    rw [memCopy_free used page inside free] at full
    cases full
  · intro full
    cases copy : memCopy used with
    | none => rfl
    | some used' =>
        obtain ⟨⟨page, after⟩, taken, -⟩ := Option.map_eq_some_iff.mp copy
        obtain ⟨inside, free, -⟩ := kmalloc_spec used after page taken
        exact absurd ⟨page, inside, free⟩ full

theorem memCopy_low (count : Nat) (room : count < HEAP_PAGES) :
    memCopy (.low count) = some (.low count) :=
  memCopy_free _ count room (by simp [Kheap.low])

end TitorOS.Barrel
