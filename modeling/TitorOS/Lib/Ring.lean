import Mathlib.Data.List.Chain
import Mathlib.Data.List.TakeWhile
import Mathlib.Tactic

/-! Circular lists given by a successor function, written as the list of their
elements from the cursor on; and the order in which a cursor that stops at the
first ready element visits them. -/

namespace TitorOS.Lib

variable {α : Type*}

/-- Following `next` from the first element visits the list in order and comes back. -/
def IsRing (next : α → α) : List α → Prop
  | [] => False
  | x :: rest => (x :: rest).Nodup ∧ List.IsChain (fun a b => next a = b) (x :: rest ++ [x])

theorem IsRing.nodup {next : α → α} {ring : List α} (h : IsRing next ring) : ring.Nodup := by
  cases ring with
  | nil => exact absurd h id
  | cons x rest => exact h.1

theorem IsRing.rotate {next : α → α} (x y : α) (front back : List α)
    (h : IsRing next (x :: front ++ y :: back)) : IsRing next (y :: back ++ x :: front) := by
  obtain ⟨nodup, chain⟩ := h
  have first : List.IsChain (fun a b => next a = b) ((x :: front) ++ y :: (back ++ [x])) := by
    simpa using chain
  obtain ⟨left, right⟩ := List.isChain_split.mp first
  have second : List.IsChain (fun a b => next a = b) ((y :: back) ++ x :: (front ++ [y])) :=
    List.isChain_split.mpr ⟨by simpa using right, by simpa using left⟩
  have swapped : (x :: front ++ y :: back).Perm (y :: back ++ x :: front) := List.perm_append_comm
  exact ⟨swapped.nodup_iff.mp nodup, by simpa using second⟩

theorem isChain_congr (next next' : α → α) (visits : List α) (last : α)
    (same : ∀ a ∈ visits, next' a = next a)
    (chain : List.IsChain (fun a b => next a = b) (visits ++ [last])) :
    List.IsChain (fun a b => next' a = b) (visits ++ [last]) := by
  induction visits with
  | nil => simp
  | cons z more ih =>
      have head := same z List.mem_cons_self
      have onward := ih fun a member => same a (List.mem_cons_of_mem z member)
      cases more with
      | nil =>
          simp only [List.cons_append, List.nil_append, List.isChain_cons_cons] at chain ⊢
          exact ⟨head.trans chain.1, by simp⟩
      | cons w others =>
          simp only [List.cons_append, List.isChain_cons_cons] at chain onward ⊢
          exact ⟨head.trans chain.1, onward chain.2⟩

theorem IsRing.insert [DecidableEq α] {next : α → α} {rest : List α} {x y : α}
    (h : IsRing next (x :: rest)) (fresh : y ∉ x :: rest) :
    IsRing (Function.update (Function.update next y (next x)) x y) (x :: y :: rest) := by
  obtain ⟨nodup, chain⟩ := h
  obtain ⟨outside, nodupRest⟩ := List.nodup_cons.mp nodup
  have other : y ≠ x := fun same => fresh (same ▸ List.mem_cons_self)
  have fresh' : y ∉ rest := fun member => fresh (List.mem_cons_of_mem x member)
  have links : List.IsChain (fun a b => next a = b) (x :: (rest ++ [x])) := by simpa using chain
  have onward := isChain_congr next (Function.update (Function.update next y (next x)) x y) rest x
    (fun a member => by
      have notX : a ≠ x := fun same => outside (same ▸ member)
      have notY : a ≠ y := fun same => fresh' (same ▸ member)
      rw [Function.update_of_ne notX, Function.update_of_ne notY]) links.tail
  have linkY : Function.update (Function.update next y (next x)) x y y = next x := by
    rw [Function.update_of_ne other, Function.update_self]
  refine ⟨?_, ?_⟩
  · simp only [List.nodup_cons, List.mem_cons, not_or]
    exact ⟨⟨other.symm, outside⟩, fresh', nodupRest⟩
  · simp only [List.cons_append, List.isChain_cons_cons, Function.update_self, true_and]
    cases rest with
    | nil =>
        simp only [List.nil_append, List.isChain_cons_cons] at links ⊢
        exact ⟨linkY.trans links.1, by simp⟩
    | cons w others =>
        simp only [List.cons_append, List.isChain_cons_cons] at links onward ⊢
        exact ⟨linkY.trans links.1, onward⟩

/-- The search loop: move on until a ready element is met. -/
def findNext (next : α → α) (ready : α → Bool) : Nat → α → Option α
  | 0, _ => none
  | fuel + 1, x => if ready (next x) then some (next x) else findNext next ready fuel (next x)

theorem findNext_first (next : α → α) (ready : α → Bool) (fuel : Nat) (x y : α)
    (found : findNext next ready fuel x = some y) :
    ∃ k, next^[k + 1] x = y ∧ ready y = true ∧ ∀ j < k, ready (next^[j + 1] x) = false := by
  induction fuel generalizing x with
  | zero => cases found
  | succ fuel ih =>
      rw [findNext] at found
      split at found
      · rename_i stop
        cases found
        exact ⟨0, rfl, stop, fun j below => absurd below (Nat.not_lt_zero j)⟩
      · rename_i pass
        obtain ⟨k, reached, isReady, earlier⟩ := ih (next x) found
        refine ⟨k + 1, reached, isReady, ?_⟩
        intro j below
        cases j with
        | zero => simpa using pass
        | succ j => exact earlier j (by omega)

theorem findNext_chain (next : α → α) (ready : α → Bool) (visits : List α) (x y : α) (fuel : Nat)
    (chain : List.IsChain (fun a b => next a = b) (x :: visits)) (enough : visits.length ≤ fuel)
    (found : visits.find? ready = some y) : findNext next ready fuel x = some y := by
  induction visits generalizing x fuel with
  | nil => cases found
  | cons z more ih =>
      cases fuel with
      | zero => simp at enough
      | succ fuel =>
          rw [List.isChain_cons_cons] at chain
          rw [findNext, chain.1]
          by_cases stop : ready z = true
          · rw [if_pos stop]
            simpa [stop] using found
          · rw [if_neg stop]
            exact ih z fuel chain.2 (by simpa using enough) (by simpa [stop] using found)

/-- The cursor moves on: past elements that are not ready, to one that is. -/
def Turn (ready : α → Bool) (ring ring' : List α) : Prop :=
  ∃ x rest skipped y after, ring = x :: rest ∧ rest ++ [x] = skipped ++ y :: after ∧
    (∀ z ∈ skipped, ready z = false) ∧ ready y = true ∧ ring' = y :: after ++ skipped

theorem Turn.exists (ready : α → Bool) (x : α) (rest : List α)
    (some_ready : ∃ y ∈ x :: rest, ready y = true) :
    ∃ ring', Turn ready (x :: rest) ring' ∧ ring'.head? = (rest ++ [x]).find? ready := by
  obtain ⟨y, member, isReady⟩ := some_ready
  have member' : y ∈ rest ++ [x] := by
    rw [List.mem_append, List.mem_singleton]
    exact (List.mem_cons.mp member).symm
  obtain ⟨z, found⟩ := Option.isSome_iff_exists.mp
    (List.find?_isSome.mpr ⟨y, member', isReady⟩)
  obtain ⟨zReady, skipped, after, split, notReady⟩ := List.find?_eq_some_iff_append.mp found
  refine ⟨z :: after ++ skipped, ⟨x, rest, skipped, z, after, rfl, split, ?_, zReady, rfl⟩, ?_⟩
  · intro w earlier
    simpa using notReady w earlier
  · rw [found]
    rfl

theorem Turn.isRing {next : α → α} {ready : α → Bool} {ring ring' : List α}
    (h : IsRing next ring) (turn : Turn ready ring ring') : IsRing next ring' := by
  obtain ⟨x, rest, skipped, y, after, rfl, split, _, _, rfl⟩ := turn
  cases skipped with
  | nil =>
      rw [List.append_nil]
      cases rest with
      | nil =>
          obtain ⟨rfl, rfl⟩ : x = y ∧ [] = after := by simpa using split
          exact h
      | cons z more =>
          obtain ⟨rfl, rfl⟩ : z = y ∧ more ++ [x] = after := by simpa using split
          exact IsRing.rotate x z [] more h
  | cons z more =>
      cases rest with
      | nil => simp at split
      | cons w others =>
          obtain ⟨rfl, tail⟩ : w = z ∧ others ++ [x] = more ++ y :: after := by simpa using split
          rcases List.eq_nil_or_concat after with rfl | ⟨after', last, rfl⟩
          · obtain ⟨rfl, rfl⟩ : others = more ∧ x = y := by
              simpa using List.append_inj' tail rfl
            exact h
          · obtain ⟨rfl, rfl⟩ : others = more ++ y :: after' ∧ x = last := by
              have shape : others ++ [x] = (more ++ y :: after') ++ [last] := by simpa using tail
              simpa using List.append_inj' shape rfl
            have moved := IsRing.rotate x y (w :: more) after' (by simpa using h)
            simpa using moved

theorem Turn.mem_iff {ready : α → Bool} {ring ring' : List α} {p : α}
    (turn : Turn ready ring ring') : p ∈ ring' ↔ p ∈ ring := by
  obtain ⟨x, rest, skipped, y, after, rfl, split, _, _, rfl⟩ := turn
  have both : p ∈ rest ++ [x] ↔ p ∈ skipped ++ y :: after := by rw [split]
  simp only [List.mem_append, List.mem_cons, List.not_mem_nil, or_false] at both ⊢
  tauto

theorem Turn.stays_iff {ready : α → Bool} {ring ring' : List α} {x y : α} (nodup : ring.Nodup)
    (turn : Turn ready ring ring') (first : ring.head? = some x) (last : ring'.head? = some y) :
    y = x ↔ ∀ z ∈ ring, z ≠ x → ready z = false := by
  obtain ⟨x', rest, skipped, y', after, rfl, split, notReady, yReady, rfl⟩ := turn
  obtain rfl : x' = x := by simpa using first
  obtain rfl : y' = y := by simpa using last
  constructor
  · rintro rfl z member other
    apply notReady
    have inRest : z ∈ rest := (List.mem_cons.mp member).resolve_left other
    rcases List.append_eq_append_iff.mp split with ⟨more, rfl, _⟩ | ⟨more, rfl, tail⟩
    · exact List.mem_append_left _ inRest
    · cases more with
      | nil => simpa using inRest
      | cons w more =>
          have same : y' = w := (List.cons.inj tail).1
          rw [same] at nodup
          exact absurd (List.mem_append_right _ List.mem_cons_self) (List.nodup_cons.mp nodup).1
  · intro noneReady
    by_contra other
    have member : y' ∈ rest ++ [x'] := by
      rw [split]
      exact List.mem_append_right _ List.mem_cons_self
    have inRing : y' ∈ x' :: rest := by
      rw [List.mem_append, List.mem_singleton] at member
      exact List.mem_cons.mpr member.symm
    rw [noneReady y' inRing other] at yReady
    cases yReady

/-- Where a turn goes, given what lies ahead of the cursor up to some point: it
passes all of it, or it stops inside. -/
theorem Turn.split_ahead {ready : α → Bool} {x y : α} {rest skipped after front back : List α}
    (split : rest ++ [x] = skipped ++ y :: after) (shape : rest = front ++ back)
    (notReady : ∀ z ∈ skipped, ready z = false) :
    ((∀ z ∈ front, ready z = false) ∧ ∃ more, skipped = front ++ more ∧
        back ++ [x] = more ++ y :: after) ∨
      ∃ more, front = skipped ++ y :: more ∧ after = more ++ (back ++ [x]) := by
  rw [shape, List.append_assoc] at split
  rcases List.append_eq_append_iff.mp split with ⟨more, rfl, tail⟩ | ⟨more, rfl, tail⟩
  · exact .inl ⟨fun z member => notReady z (List.mem_append_left _ member), more, rfl, tail⟩
  · cases more with
    | nil =>
        refine .inl ⟨fun z member => notReady z (by simpa using member), [], by simp, ?_⟩
        simpa using tail.symm
    | cons w more =>
        obtain ⟨rfl, rfl⟩ : y = w ∧ after = more ++ (back ++ [x]) := by simpa using tail
        exact .inr ⟨more, rfl, rfl⟩

section Lap

variable [DecidableEq α]

/-- The elements the cursor will meet before it meets `p`. -/
def ahead (p : α) : List α → List α
  | [] => []
  | _ :: rest => rest.takeWhile (· ≠ p)

theorem takeWhile_ne_split {p : α} (rest : List α) (member : p ∈ rest) :
    ∃ back, rest = rest.takeWhile (· ≠ p) ++ p :: back := by
  induction rest with
  | nil => cases member
  | cons z more ih =>
      by_cases here : z = p
      · exact ⟨more, by simp [here]⟩
      · obtain ⟨back, shape⟩ := ih ((List.mem_cons.mp member).resolve_left (Ne.symm here))
        refine ⟨back, ?_⟩
        rw [List.takeWhile_cons_of_pos (by simpa using here), List.cons_append, ← shape]

theorem ahead_start {p q : α} {rest : List α} (nodup : (p :: rest).Nodup) (member : q ∈ p :: rest)
    (other : q ≠ p) : q ∈ ahead p (p :: rest) := by
  have outside := (List.nodup_cons.mp nodup).1
  have all : rest.takeWhile (· ≠ p) = rest := by
    rw [List.takeWhile_eq_self_iff]
    intro z inside
    simpa using fun same : z = p => outside (same ▸ inside)
  rw [ahead, all]
  exact (List.mem_cons.mp member).resolve_left other

theorem mem_ahead_insert {p q x y : α} {rest : List α} (other : y ≠ p) (old : q ≠ y) :
    q ∈ ahead p (x :: y :: rest) ↔ q ∈ ahead p (x :: rest) := by
  simp [ahead, other, old]

/-- A ready element ahead is either the next one selected, or still ahead after the
turn; meanwhile `p` is not reached. -/
theorem Turn.ahead_ready {ready : α → Bool} {ring ring' : List α} {p q : α}
    (turn : Turn ready ring ring') (member : q ∈ ahead p ring) (isReady : ready q = true) :
    ∃ y, ring'.head? = some y ∧ y ≠ p ∧ (y = q ∨ q ∈ ahead p ring') := by
  obtain ⟨x, rest, skipped, y, after, rfl, split, notReady, yReady, rfl⟩ := turn
  refine ⟨y, rfl, ?_⟩
  rw [ahead] at member
  have shape : rest = rest.takeWhile (· ≠ p) ++ rest.dropWhile (· ≠ p) :=
    List.takeWhile_append_dropWhile.symm
  rcases Turn.split_ahead split shape notReady with ⟨none_ready, _⟩ | ⟨more, front, tail⟩
  · rw [none_ready q member] at isReady
    cases isReady
  · rw [front] at member
    have apart (z : α) (inside : z ∈ skipped ++ y :: more) : z ≠ p := by
      rw [← front] at inside
      simpa using List.mem_takeWhile_imp inside
    refine ⟨apart y (by simp), ?_⟩
    rcases List.mem_append.mp member with earlier | later
    · rw [notReady q earlier] at isReady
      cases isReady
    · rcases List.mem_cons.mp later with same | beyond
      · exact .inl same.symm
      · refine .inr ?_
        change q ∈ (after ++ skipped).takeWhile _
        rw [tail, List.append_assoc, List.takeWhile_append_of_pos]
        · exact List.mem_append_left _ beyond
        · intro z inside
          simpa using apart z (by simp [inside])

theorem Turn.passed {ready : α → Bool} {ring ring' : List α} {p q : α} (nodup : ring.Nodup)
    (turn : Turn ready ring ring') (present : p ∈ ring) (member : q ∈ ring) (other : q ≠ p)
    (passed : q ∉ ahead p ring) (isReady : ready p = true) :
    ∃ y, ring'.head? = some y ∧ y ≠ q ∧ (y ≠ p → q ∉ ahead p ring') := by
  obtain ⟨x, rest, skipped, y, after, rfl, split, notReady, yReady, rfl⟩ := turn
  refine ⟨y, rfl, ?_⟩
  by_cases here : x = p
  · subst here
    exact absurd (ahead_start nodup member other) passed
  have inside : p ∈ rest := (List.mem_cons.mp present).resolve_left (Ne.symm here)
  obtain ⟨back, shape⟩ := takeWhile_ne_split rest inside
  rw [ahead] at passed
  rcases Turn.split_ahead split shape notReady with ⟨_, more, skip, tail⟩ | ⟨more, front, rfl⟩
  · cases more with
    | nil =>
        have stop : p = y := by simpa using (List.cons.inj tail).1
        exact ⟨fun same => other (same.symm.trans stop.symm), fun away => absurd stop.symm away⟩
    | cons w more =>
        have stop : p = w := (List.cons.inj tail).1
        have skippedP := notReady p (by rw [skip, stop]; simp)
        rw [skippedP] at isReady
        cases isReady
  · have apart (z : α) (inside : z ∈ skipped ++ y :: more) : z ≠ q := by
      rw [← front] at inside
      exact fun same => passed (same ▸ inside)
    have before (z : α) (inside : z ∈ skipped ++ y :: more) : z ≠ p := by
      rw [← front] at inside
      simpa using List.mem_takeWhile_imp inside
    refine ⟨apart y (by simp), fun _ beyond => ?_⟩
    change q ∈ ((more ++ (p :: back ++ [x])) ++ skipped).takeWhile _ at beyond
    rw [List.append_assoc, List.takeWhile_append_of_pos] at beyond
    · have stop : List.takeWhile (fun z => decide (z ≠ p)) (p :: back ++ [x] ++ skipped) = [] := by
        simp
      rw [stop, List.append_nil] at beyond
      exact apart q (by simp [beyond]) rfl
    · intro z inside
      simpa using before z (by simp [inside])

end Lap

section Distance

variable [DecidableEq α]

/-- How many steps the cursor takes to `p`; a whole lap if it is there. -/
def distance (p : α) : List α → Nat
  | [] => 0
  | x :: rest => (rest ++ [x]).idxOf p + 1

theorem distance_le {p : α} {ring : List α} (member : p ∈ ring) :
    1 ≤ distance p ring ∧ distance p ring ≤ ring.length := by
  cases ring with
  | nil => cases member
  | cons x rest =>
      have inside : p ∈ rest ++ [x] := by
        rw [List.mem_append, List.mem_singleton]
        exact (List.mem_cons.mp member).symm
      have below := List.idxOf_lt_length_of_mem inside
      rw [List.length_append, List.length_singleton] at below
      rw [distance, List.length_cons]
      omega

theorem distance_insert {p x y : α} {rest : List α} (other : y ≠ p) :
    distance p (x :: y :: rest) = distance p (x :: rest) + 1 := by
  rw [distance, distance, List.cons_append, List.idxOf_cons_ne _ other]

theorem Turn.distance_lt {ready : α → Bool} {ring ring' : List α} {p : α}
    (turn : Turn ready ring ring') (member : p ∈ ring) (isReady : ready p = true) :
    ring'.head? = some p ∨ distance p ring' < distance p ring := by
  obtain ⟨x, rest, skipped, y, after, rfl, split, notReady, _, rfl⟩ := turn
  by_cases here : y = p
  · exact .inl (congrArg some here)
  · have inside : p ∈ skipped ++ y :: after := by
      rw [← split, List.mem_append, List.mem_singleton]
      exact (List.mem_cons.mp member).symm
    have outside : p ∉ skipped := by
      intro earlier
      rw [notReady p earlier] at isReady
      cases isReady
    have later : p ∈ after := by
      rcases List.mem_append.mp inside with earlier | later
      · exact absurd earlier outside
      · exact (List.mem_cons.mp later).resolve_left (Ne.symm here)
    refine .inr ?_
    rw [List.cons_append, distance, distance, split, List.append_assoc,
      List.idxOf_append_of_mem later, List.idxOf_append_of_notMem outside,
      List.idxOf_cons_ne _ here]
    omega

end Distance

end TitorOS.Lib
