import Mathlib.Order.Lattice
import Mathlib.Order.MinMax
import Mathlib.Logic.Relation
import Mathlib.Data.Nat.Find
import Mathlib.Tactic.Tauto
import Mathlib.Tactic.SplitIfs

/-! Merging spans in one pass. The cells of a table hold a span or nothing; each
span in turn takes in the later spans it touches, growing as it goes, and their
cells are emptied. -/

namespace TitorOS.Lib

open Relation

variable {α : Type*} [LinearOrder α]

structure Span (α : Type*) [LinearOrder α] where
  lo : α
  hi : α
  ordered : lo ≤ hi

namespace Span

def Covers (s : Span α) (b : α) : Prop := s.lo ≤ b ∧ b < s.hi

def Touches (s t : Span α) : Prop := s.lo ≤ t.hi ∧ t.lo ≤ s.hi

instance (s t : Span α) : Decidable (Touches s t) := inferInstanceAs (Decidable (_ ∧ _))

def hull (s t : Span α) : Span α where
  lo := min s.lo t.lo
  hi := max s.hi t.hi
  ordered := (min_le_left ..).trans (s.ordered.trans (le_max_left ..))

theorem hull_covers (s t : Span α) (b : α) (touch : s.Touches t) :
    (s.hull t).Covers b ↔ s.Covers b ∨ t.Covers b := by
  obtain ⟨left, right⟩ := touch
  simp only [Covers, hull, min_le_iff, lt_max_iff]
  constructor
  · rintro ⟨low | low, high | high⟩
    · exact .inl ⟨low, high⟩
    · rcases lt_or_ge b s.hi with inside | past
      · exact .inl ⟨low, inside⟩
      · exact .inr ⟨right.trans past, high⟩
    · rcases lt_or_ge b t.hi with inside | past
      · exact .inr ⟨low, inside⟩
      · exact .inl ⟨left.trans past, high⟩
    · exact .inr ⟨low, high⟩
  · rintro (⟨low, high⟩ | ⟨low, high⟩)
    · exact ⟨.inl low, .inl high⟩
    · exact ⟨.inr low, .inr high⟩

theorem hull_touches (s t u : Span α) (touch : s.Touches t) :
    (s.hull t).Touches u ↔ s.Touches u ∨ t.Touches u := by
  obtain ⟨left, right⟩ := touch
  simp only [Touches, hull, min_le_iff, le_max_iff]
  constructor
  · rintro ⟨low | low, high | high⟩
    · exact .inl ⟨low, high⟩
    · rcases le_total u.lo s.hi with inside | past
      · exact .inl ⟨low, inside⟩
      · exact .inr ⟨right.trans (past.trans u.ordered), high⟩
    · rcases le_total u.lo t.hi with inside | past
      · exact .inr ⟨low, inside⟩
      · exact .inl ⟨left.trans (past.trans u.ordered), high⟩
    · exact .inr ⟨low, high⟩
  · rintro (⟨low, high⟩ | ⟨low, high⟩)
    · exact ⟨.inl low, .inl high⟩
    · exact ⟨.inr low, .inr high⟩

/-- Strictly between two bounds. -/
def Within (s : Span α) (p q : α) : Prop := p < s.lo ∧ s.hi < q

theorem hull_within (s t : Span α) (p q : α) :
    (s.hull t).Within p q ↔ s.Within p q ∧ t.Within p q := by
  simp only [Within, hull, lt_min_iff, max_lt_iff]
  tauto

end Span

abbrev Cells (α : Type*) [LinearOrder α] := List (Option (Span α))

/-- What is left of the span and of the later cells after it has gone over them. -/
def sweep (s : Span α) : Cells α → Span α × Cells α
  | [] => (s, [])
  | none :: rest => ((sweep s rest).1, none :: (sweep s rest).2)
  | some t :: rest =>
      if s.Touches t then ((sweep (s.hull t) rest).1, none :: (sweep (s.hull t) rest).2)
      else ((sweep s rest).1, some t :: (sweep s rest).2)

theorem sweep_length (s : Span α) (cells : Cells α) : (sweep s cells).2.length = cells.length := by
  induction cells generalizing s with
  | nil => rfl
  | cons cell rest ih =>
      cases cell with
      | none => simp [sweep, ih]
      | some t =>
          by_cases touch : s.Touches t
          · simp [sweep, touch, ih]
          · simp [sweep, touch, ih]

def merge : Cells α → Cells α
  | [] => []
  | none :: rest => none :: merge rest
  | some s :: rest => some (sweep s rest).1 :: merge (sweep s rest).2
  termination_by cells => cells.length
  decreasing_by
    · simp
    · simp [sweep_length]

def Cells.Holds (cells : Cells α) (k : Nat) (t : Span α) : Prop := cells[k]? = some (some t)

/-- The span of cell `k` comes later than that of cell `m` and touches it. -/
def Joins (cells : Cells α) (m k : Nat) : Prop :=
  m < k ∧ ∃ s t, cells.Holds m s ∧ cells.Holds k t ∧ s.Touches t

def Chain (cells : Cells α) : Nat → Nat → Prop := ReflTransGen (Joins cells)

/-- No earlier span touches the one of cell `i`. -/
def Root (cells : Cells α) (i : Nat) : Prop := (∃ s, cells.Holds i s) ∧ ∀ m, ¬ Joins cells m i

/-- Cell `i` is the first root with a chain to cell `k`. -/
structure Owns (cells : Cells α) (i k : Nat) : Prop where
  root : Root cells i
  chain : Chain cells i k
  first : ∀ j < i, Root cells j → ¬ Chain cells j k

/-- A chain leads to cell `k` from some cell the span touches. -/
def Reach (s : Span α) (cells : Cells α) (k : Nat) : Prop :=
  ∃ m t, cells.Holds m t ∧ s.Touches t ∧ Chain cells m k

theorem joins_succ (cell : Option (Span α)) (rest : Cells α) (m k : Nat) :
    Joins (cell :: rest) (m + 1) (k + 1) ↔ Joins rest m k := by
  simp [Joins, Cells.Holds]

theorem joins_zero (s : Span α) (rest : Cells α) (k : Nat) :
    Joins (some s :: rest) 0 (k + 1) ↔ ∃ t, Cells.Holds rest k t ∧ s.Touches t := by
  simp [Joins, Cells.Holds]

theorem not_joins_none (rest : Cells α) (k : Nat) : ¬ Joins (none :: rest) 0 k := by
  simp [Joins, Cells.Holds]

theorem chain_succ (cell : Option (Span α)) (rest : Cells α) (m k : Nat) :
    Chain (cell :: rest) (m + 1) (k + 1) ↔ Chain rest m k := by
  constructor
  · intro chain
    have shifted : ∀ j, Chain (cell :: rest) (m + 1) j → ∃ k, j = k + 1 ∧ Chain rest m k := by
      intro j chain
      induction chain with
      | refl => exact ⟨m, rfl, .refl⟩
      | tail _ joins ih =>
          obtain ⟨l, rfl, chain⟩ := ih
          have later : l + 1 < _ := joins.1
          obtain ⟨n, rfl⟩ := Nat.exists_eq_succ_of_ne_zero (Nat.ne_of_gt (Nat.zero_lt_of_lt later))
          exact ⟨n, rfl, chain.tail ((joins_succ ..).mp joins)⟩
    obtain ⟨l, same, chain⟩ := shifted _ chain
    cases same
    exact chain
  · intro chain
    induction chain with
    | refl => exact .refl
    | tail _ joins ih => exact ih.tail ((joins_succ ..).mpr joins)

theorem chain_le (cells : Cells α) (m k : Nat) (chain : Chain cells m k) : m ≤ k := by
  induction chain with
  | refl => exact le_rfl
  | tail _ joins ih => exact ih.trans joins.1.le

theorem chain_zero (s : Span α) (rest : Cells α) (k : Nat) :
    Chain (some s :: rest) 0 (k + 1) ↔ Reach s rest k := by
  constructor
  · intro chain
    rcases ReflTransGen.cases_head chain with same | ⟨m, joins, onward⟩
    · cases same
    · obtain ⟨l, rfl⟩ : ∃ l, m = l + 1 := Nat.exists_eq_succ_of_ne_zero (by have := joins.1; omega)
      obtain ⟨t, holds, touch⟩ := (joins_zero ..).mp joins
      exact ⟨l, t, holds, touch, (chain_succ ..).mp onward⟩
  · rintro ⟨m, t, holds, touch, chain⟩
    exact .head ((joins_zero ..).mpr ⟨t, holds, touch⟩) ((chain_succ ..).mpr chain)

/-- What a span reaches is closed under joining. -/
theorem Reach.tail {s : Span α} {cells : Cells α} {m k : Nat} (reach : Reach s cells m)
    (joins : Joins cells m k) : Reach s cells k := by
  obtain ⟨l, t, holds, touch, chain⟩ := reach
  exact ⟨l, t, holds, touch, chain.tail joins⟩

theorem reach_none (s : Span α) (rest : Cells α) (k : Nat) :
    Reach s (none :: rest) (k + 1) ↔ Reach s rest k := by
  constructor
  · rintro ⟨m, t, holds, touch, chain⟩
    cases m with
    | zero => simp [Cells.Holds] at holds
    | succ m => exact ⟨m, t, by simpa [Cells.Holds] using holds, touch, (chain_succ ..).mp chain⟩
  · rintro ⟨m, t, holds, touch, chain⟩
    exact ⟨m + 1, t, by simpa [Cells.Holds] using holds, touch, (chain_succ ..).mpr chain⟩

theorem reach_some (s t : Span α) (rest : Cells α) (k : Nat) :
    Reach s (some t :: rest) (k + 1) ↔ Reach s rest k ∨ s.Touches t ∧ Reach t rest k := by
  constructor
  · rintro ⟨m, u, holds, touch, chain⟩
    cases m with
    | zero =>
        have same : t = u := by simpa [Cells.Holds] using holds
        exact .inr ⟨same ▸ touch, (chain_zero ..).mp chain⟩
    | succ m =>
        exact .inl ⟨m, u, by simpa [Cells.Holds] using holds, touch, (chain_succ ..).mp chain⟩
  · rintro (⟨m, u, holds, touch, chain⟩ | ⟨touch, reach⟩)
    · exact ⟨m + 1, u, by simpa [Cells.Holds] using holds, touch, (chain_succ ..).mpr chain⟩
    · exact ⟨0, t, rfl, touch, (chain_zero ..).mpr reach⟩

theorem reach_zero (s t : Span α) (rest : Cells α) :
    Reach s (some t :: rest) 0 ↔ s.Touches t := by
  constructor
  · rintro ⟨m, u, holds, touch, chain⟩
    obtain rfl : m = 0 := by
      have := chain_le _ _ _ chain
      omega
    have same : t = u := by simpa [Cells.Holds] using holds
    exact same ▸ touch
  · intro touch
    exact ⟨0, t, rfl, touch, .refl⟩

theorem reach_hull (s t : Span α) (cells : Cells α) (k : Nat) (touch : s.Touches t) :
    Reach (s.hull t) cells k ↔ Reach s cells k ∨ Reach t cells k := by
  constructor
  · rintro ⟨m, u, holds, either, chain⟩
    rcases (s.hull_touches t u touch).mp either with left | right
    · exact .inl ⟨m, u, holds, left, chain⟩
    · exact .inr ⟨m, u, holds, right, chain⟩
  · rintro (⟨m, u, holds, left, chain⟩ | ⟨m, u, holds, right, chain⟩)
    · exact ⟨m, u, holds, (s.hull_touches t u touch).mpr (.inl left), chain⟩
    · exact ⟨m, u, holds, (s.hull_touches t u touch).mpr (.inr right), chain⟩

/-- A sweep empties the cells it reaches and no others. -/
theorem sweep_holds (s : Span α) (cells : Cells α) (k : Nat) (t : Span α) :
    Cells.Holds (sweep s cells).2 k t ↔ cells.Holds k t ∧ ¬ Reach s cells k := by
  induction cells generalizing s k with
  | nil => simp [sweep, Cells.Holds]
  | cons cell rest ih =>
      cases cell with
      | none =>
          cases k with
          | zero => simp [sweep, Cells.Holds]
          | succ k => simpa [sweep, Cells.Holds, reach_none] using ih s k
      | some u =>
          by_cases touch : s.Touches u
          · cases k with
            | zero => simp [sweep, Cells.Holds, touch, reach_zero]
            | succ k => simpa [sweep, Cells.Holds, touch, reach_some, reach_hull] using ih (s.hull u) k
          · cases k with
            | zero => simp [sweep, Cells.Holds, touch, reach_zero]
            | succ k => simpa [sweep, Cells.Holds, touch, reach_some] using ih s k

/-- A property that a hull of touching spans has when one of them has it. -/
def OfPart (P : Span α → Prop) : Prop :=
  ∀ s t : Span α, s.Touches t → (P (s.hull t) ↔ P s ∨ P t)

theorem exists_cons {P : Nat → Span α → Prop} (cell : Option (Span α)) (rest : Cells α) :
    (∃ k t, Cells.Holds (cell :: rest) k t ∧ P k t) ↔
      (∃ t, cell = some t ∧ P 0 t) ∨ ∃ k t, Cells.Holds rest k t ∧ P (k + 1) t := by
  constructor
  · rintro ⟨k, t, holds, has⟩
    cases k with
    | zero => exact .inl ⟨t, by simpa [Cells.Holds] using holds, has⟩
    | succ k => exact .inr ⟨k, t, by simpa [Cells.Holds] using holds, has⟩
  · rintro (⟨t, rfl, has⟩ | ⟨k, t, holds, has⟩)
    · exact ⟨0, t, rfl, has⟩
    · exact ⟨k + 1, t, by simpa [Cells.Holds] using holds, has⟩

/-- The swept span has such a property when it had it before or a span it reached has it. -/
theorem sweep_ofPart {P : Span α → Prop} (part : OfPart P) (s : Span α) (cells : Cells α) :
    P (sweep s cells).1 ↔ P s ∨ ∃ k t, cells.Holds k t ∧ Reach s cells k ∧ P t := by
  induction cells generalizing s with
  | nil => simp [sweep, Cells.Holds]
  | cons cell rest ih =>
      rw [exists_cons]
      cases cell with
      | none => simpa [sweep, reach_none] using ih s
      | some u =>
          by_cases touch : s.Touches u
          · have onward := ih (s.hull u)
            simp only [part s u touch, reach_hull s u rest _ touch] at onward
            simp only [sweep, touch, if_true, onward, reach_some, reach_zero, true_and,
              Option.some.injEq, exists_eq_left', or_assoc]
          · simpa [sweep, touch, reach_some, reach_zero] using ih s

theorem joins_sweep (s : Span α) (cells : Cells α) (m k : Nat) :
    Joins (sweep s cells).2 m k ↔ Joins cells m k ∧ ¬ Reach s cells k := by
  constructor
  · rintro ⟨later, t, u, first, second, touch⟩
    rw [sweep_holds] at first second
    exact ⟨⟨later, t, u, first.1, second.1, touch⟩, second.2⟩
  · rintro ⟨joins, unreached⟩
    have before : ¬ Reach s cells m := fun reach => unreached (reach.tail joins)
    obtain ⟨later, t, u, first, second, touch⟩ := joins
    exact ⟨later, t, u, (sweep_holds ..).mpr ⟨first, before⟩,
      (sweep_holds ..).mpr ⟨second, unreached⟩, touch⟩

theorem chain_sweep (s : Span α) (cells : Cells α) (m k : Nat) (unreached : ¬ Reach s cells m) :
    Chain (sweep s cells).2 m k ↔ Chain cells m k ∧ ¬ Reach s cells k := by
  constructor
  · intro chain
    induction chain with
    | refl => exact ⟨.refl, unreached⟩
    | tail _ joins ih =>
        rw [joins_sweep] at joins
        exact ⟨ih.1.tail joins.1, joins.2⟩
  · rintro ⟨chain, last⟩
    induction chain with
    | refl => exact .refl
    | tail _ joins ih =>
        exact (ih fun reach => last (reach.tail joins)).tail ((joins_sweep ..).mpr ⟨joins, last⟩)

theorem root_sweep (s : Span α) (rest : Cells α) (i : Nat) :
    Root (some s :: rest) (i + 1) ↔ Root (sweep s rest).2 i := by
  constructor
  · rintro ⟨⟨t, holds⟩, alone⟩
    have inside : Cells.Holds rest i t := by simpa [Cells.Holds] using holds
    have unreached : ¬ Reach s rest i := by
      intro reach
      rcases ReflTransGen.cases_tail ((chain_zero s rest i).mpr reach) with same | ⟨m, _, joins⟩
      · cases same
      · exact alone m joins
    refine ⟨⟨t, (sweep_holds ..).mpr ⟨inside, unreached⟩⟩, fun m joins => ?_⟩
    exact alone (m + 1) ((joins_succ ..).mpr ((joins_sweep ..).mp joins).1)
  · rintro ⟨⟨t, holds⟩, alone⟩
    obtain ⟨inside, unreached⟩ := (sweep_holds ..).mp holds
    refine ⟨⟨t, by simpa [Cells.Holds] using inside⟩, fun m joins => ?_⟩
    cases m with
    | zero =>
        obtain ⟨u, here, touch⟩ := (joins_zero ..).mp joins
        exact unreached ⟨i, u, here, touch, .refl⟩
    | succ m => exact alone m ((joins_sweep ..).mpr ⟨(joins_succ ..).mp joins, unreached⟩)

theorem root_zero (s : Span α) (rest : Cells α) : Root (some s :: rest) 0 :=
  ⟨⟨s, rfl⟩, fun _ joins => Nat.not_lt_zero _ joins.1⟩

theorem owns_zero (s : Span α) (rest : Cells α) (k : Nat) :
    Owns (some s :: rest) 0 (k + 1) ↔ Reach s rest k := by
  constructor
  · intro owns
    exact (chain_zero ..).mp owns.chain
  · intro reach
    exact ⟨root_zero s rest, (chain_zero ..).mpr reach, fun j below => absurd below j.not_lt_zero⟩

theorem owns_sweep (s : Span α) (rest : Cells α) (i k : Nat) :
    Owns (some s :: rest) (i + 1) (k + 1) ↔ Owns (sweep s rest).2 i k := by
  constructor
  · rintro ⟨root, chain, first⟩
    have unreached : ¬ Reach s rest k := fun reach =>
      first 0 i.succ_pos (root_zero s rest) ((chain_zero ..).mpr reach)
    have inner := (root_sweep ..).mp root
    have start : ¬ Reach s rest i := by
      obtain ⟨⟨t, holds⟩, _⟩ := inner
      exact ((sweep_holds ..).mp holds).2
    refine ⟨inner, (chain_sweep s rest i k start).mpr ⟨(chain_succ ..).mp chain, unreached⟩, ?_⟩
    intro j below other onward
    obtain ⟨⟨t, holds⟩, _⟩ := id other
    have left := (chain_sweep s rest j k ((sweep_holds ..).mp holds).2).mp onward
    exact first (j + 1) (by omega) ((root_sweep ..).mpr other) ((chain_succ ..).mpr left.1)
  · rintro ⟨root, chain, first⟩
    obtain ⟨⟨t, holds⟩, _⟩ := id root
    have onward := (chain_sweep s rest i k ((sweep_holds ..).mp holds).2).mp chain
    refine ⟨(root_sweep ..).mpr root, (chain_succ ..).mpr onward.1, ?_⟩
    intro j below other early
    cases j with
    | zero => exact onward.2 ((chain_zero ..).mp early)
    | succ j =>
        have inner := (root_sweep ..).mp other
        obtain ⟨⟨u, here⟩, _⟩ := id inner
        refine first j (by omega) inner ?_
        exact (chain_sweep s rest j k ((sweep_holds ..).mp here).2).mpr
          ⟨(chain_succ ..).mp early, onward.2⟩

theorem root_none (rest : Cells α) (i : Nat) : Root (none :: rest) (i + 1) ↔ Root rest i := by
  constructor
  · rintro ⟨⟨t, holds⟩, alone⟩
    exact ⟨⟨t, by simpa [Cells.Holds] using holds⟩, fun m joins =>
      alone (m + 1) ((joins_succ ..).mpr joins)⟩
  · rintro ⟨⟨t, holds⟩, alone⟩
    refine ⟨⟨t, by simpa [Cells.Holds] using holds⟩, fun m joins => ?_⟩
    cases m with
    | zero => exact not_joins_none rest _ joins
    | succ m => exact alone m ((joins_succ ..).mp joins)

theorem owns_none (rest : Cells α) (i k : Nat) :
    Owns (none :: rest) (i + 1) (k + 1) ↔ Owns rest i k := by
  constructor
  · rintro ⟨root, chain, first⟩
    exact ⟨(root_none ..).mp root, (chain_succ ..).mp chain, fun j below other early =>
      first (j + 1) (by omega) ((root_none ..).mpr other) ((chain_succ ..).mpr early)⟩
  · rintro ⟨root, chain, first⟩
    refine ⟨(root_none ..).mpr root, (chain_succ ..).mpr chain, fun j below other early => ?_⟩
    cases j with
    | zero =>
        obtain ⟨⟨t, holds⟩, _⟩ := other
        simp [Cells.Holds] at holds
    | succ j => exact first j (by omega) ((root_none ..).mp other) ((chain_succ ..).mp early)

theorem Root.owns {cells : Cells α} {i : Nat} (root : Root cells i) : Owns cells i i where
  root := root
  chain := .refl
  first := by
    intro j below _ chain
    rcases ReflTransGen.cases_tail chain with same | ⟨m, _, joins⟩
    · exact below.ne same.symm
    · exact root.2 m joins

theorem not_owns_zero (cells : Cells α) (i : Nat) : ¬ Owns cells (i + 1) 0 := fun owns =>
  absurd (chain_le _ _ _ owns.chain) (Nat.not_succ_le_zero i)

/-- After the merge the roots hold spans, and no other cell does. -/
theorem merge_root (cells : Cells α) (i : Nat) :
    (∃ u, Cells.Holds (merge cells) i u) ↔ Root cells i := by
  induction cells using merge.induct generalizing i with
  | case1 => simp [merge, Root, Cells.Holds]
  | case2 rest ih =>
      cases i with
      | zero => simp [merge, Root, Cells.Holds]
      | succ i => simpa [merge, Cells.Holds, root_none] using ih i
  | case3 s rest ih =>
      cases i with
      | zero => simp [merge, Cells.Holds, root_zero]
      | succ i => simpa [merge, Cells.Holds, root_sweep] using ih i

/-- The merged span of a root is made of the spans it owns. -/
theorem merge_ofPart {P : Span α → Prop} (part : OfPart P) (cells : Cells α) (i : Nat)
    (u : Span α) (merged : Cells.Holds (merge cells) i u) :
    P u ↔ ∃ k t, cells.Holds k t ∧ Owns cells i k ∧ P t := by
  induction cells using merge.induct generalizing i with
  | case1 => simp [merge, Cells.Holds] at merged
  | case2 rest ih =>
      cases i with
      | zero => simp [merge, Cells.Holds] at merged
      | succ i =>
          rw [exists_cons, ih i (by simpa [merge, Cells.Holds] using merged)]
          simp [owns_none]
  | case3 s rest ih =>
      rw [exists_cons]
      cases i with
      | zero =>
          have same : (sweep s rest).1 = u := by simpa [merge, Cells.Holds] using merged
          have own : Owns (some s :: rest) 0 0 :=
            ⟨root_zero s rest, .refl, fun j below => absurd below j.not_lt_zero⟩
          rw [← same, sweep_ofPart part]
          simp [owns_zero, own]
      | succ i =>
          rw [ih i (by simpa [merge, Cells.Holds] using merged)]
          simp only [not_owns_zero, false_and, and_false, exists_false, false_or, owns_sweep,
            sweep_holds]
          constructor
          · rintro ⟨k, t, ⟨holds, _⟩, owns, has⟩
            exact ⟨k, t, holds, owns, has⟩
          · rintro ⟨k, t, holds, owns, has⟩
            obtain ⟨⟨v, here⟩, _⟩ := owns.root
            have start := ((sweep_holds ..).mp here).2
            exact ⟨k, t, ⟨holds, ((chain_sweep s rest i k start).mp owns.chain).2⟩, owns, has⟩

/-- Going back from a cell, joining spans lead to a root. -/
theorem exists_root (cells : Cells α) (k : Nat) (t : Span α) (holds : cells.Holds k t) :
    ∃ i, Root cells i ∧ Chain cells i k := by
  induction k using Nat.strong_induction_on generalizing t with
  | _ k ih =>
      by_cases alone : ∀ m, ¬ Joins cells m k
      · exact ⟨k, ⟨⟨t, holds⟩, alone⟩, .refl⟩
      · push Not at alone
        rcases alone with ⟨m, joins⟩
        rcases id joins with ⟨earlier, s, _, before, _, _⟩
        rcases ih m earlier s before with ⟨i, root, chain⟩
        exact ⟨i, root, chain.tail joins⟩

theorem exists_owner (cells : Cells α) (k : Nat) (t : Span α) (holds : cells.Holds k t) :
    ∃ i, Owns cells i k := by
  classical
  have some_root := exists_root cells k t holds
  rcases Nat.find_spec some_root with ⟨root, chain⟩
  refine ⟨Nat.find some_root, root, chain, ?_⟩
  intro j below other onward
  exact Nat.find_min some_root below ⟨other, onward⟩

/-- A merge neither loses nor invents what is made of parts. -/
theorem merge_exists {P : Span α → Prop} (part : OfPart P) (cells : Cells α) :
    (∃ i u, Cells.Holds (merge cells) i u ∧ P u) ↔ ∃ k t, cells.Holds k t ∧ P t := by
  constructor
  · rintro ⟨i, u, merged, has⟩
    rcases (merge_ofPart part cells i u merged).mp has with ⟨k, t, holds, _, piece⟩
    exact ⟨k, t, holds, piece⟩
  · rintro ⟨k, t, holds, piece⟩
    rcases exists_owner cells k t holds with ⟨i, owns⟩
    rcases (merge_root cells i).mpr owns.root with ⟨u, merged⟩
    exact ⟨i, u, merged, (merge_ofPart part cells i u merged).mpr ⟨k, t, holds, owns, piece⟩⟩

end TitorOS.Lib
