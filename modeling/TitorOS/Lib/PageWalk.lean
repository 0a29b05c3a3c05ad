import Mathlib.Algebra.Group.Nat.Defs

/-! Address translation of long mode with four levels of tables. `read` gives the quadword at a
physical address. -/

namespace TitorOS.Lib.PageWalk

/-- The upper 17 bits of an address are all alike. -/
def Canonical (vaddr : Nat) : Prop := vaddr / 2 ^ 47 = 0 ∨ vaddr / 2 ^ 47 = 2 ^ 17 - 1

/-- Bits 12 to 51 of an entry. -/
def frame (entry : Nat) : Nat := entry / 4096 % 2 ^ 40 * 4096

/-- From a table down the levels that are left, each given by the lowest bit of its index. An
entry with bit 7 ends the walk with a large page, and is a fault at the uppermost level. -/
def walk (read : Nat → Nat) (vaddr : Nat) : List Nat → Nat → Option Nat
  | [], page => some (page + vaddr % 4096)
  | shift :: rest, table =>
      let entry := read (table + vaddr / 2 ^ shift % 512 * 8)
      if entry % 2 = 0 then none
      else if shift = 12 ∨ entry / 128 % 2 = 0 then walk read vaddr rest (frame entry)
      else if shift = 39 then none
      else some (entry / 2 ^ shift % 2 ^ (52 - shift) * 2 ^ shift + vaddr % 2 ^ shift)

def translate (read : Nat → Nat) (cr3 vaddr : Nat) : Option Nat :=
  walk read vaddr [39, 30, 21, 12] (frame cr3)

variable {read : Nat → Nat} {vaddr shift table index entry : Nat} {rest : List Nat}

theorem walk_absent (at_ : vaddr / 2 ^ shift % 512 = index) (holds : read (table + index * 8) = entry)
    (absent : entry % 2 = 0) : walk read vaddr (shift :: rest) table = none := by
  rw [walk, at_, holds]
  exact if_pos absent

theorem walk_present (at_ : vaddr / 2 ^ shift % 512 = index)
    (holds : read (table + index * 8) = entry) (present : entry % 2 = 1)
    (small : shift = 12 ∨ entry / 128 % 2 = 0) :
    walk read vaddr (shift :: rest) table = walk read vaddr rest (frame entry) := by
  have there : ¬entry % 2 = 0 := by
    rw [present]
    exact Nat.one_ne_zero
  rw [walk, at_, holds]
  exact (if_neg there).trans (if_pos small)

end TitorOS.Lib.PageWalk
