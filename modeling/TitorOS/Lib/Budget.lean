import Mathlib.Algebra.Order.Group.Lattice
import Mathlib.Algebra.Order.Group.Int
import Mathlib.Algebra.Order.Monoid.Prod

/-! Programs that run out of something. `Costs room op s need net post`: from `s` the
program `op` fails if `need` exceeds what `room` says is left, and else uses up
`net` of it and ends in `post`. -/

namespace TitorOS.Lib

universe u

variable {σ α β : Type u} {R : Type*} [Lattice R] [AddCommGroup R] {room : σ → R}

structure Costs (room : σ → R) (op : StateT σ Option α) (s : σ) (need net : R)
    (post : α → σ → Prop) : Prop where
  short : ¬need ≤ room s → op s = none
  enough : need ≤ room s → ∃ a t, op s = some (a, t) ∧ room t = room s - net ∧ post a t

theorem Costs.bind [IsOrderedAddMonoid R] {op : StateT σ Option α} {next : α → StateT σ Option β} {s : σ}
    {need net : R} (need' net' : R) {post : α → σ → Prop} {post' : β → σ → Prop}
    (first : Costs room op s need net post)
    (second : ∀ a t, post a t → room t = room s - net → Costs room (next a) t need' net' post') :
    Costs room (op >>= next) s (need ⊔ (need' + net)) (net + net') post' := by
  constructor
  · intro short
    by_cases fits : need ≤ room s
    · rcases first.enough fits with ⟨a, t, ran, left, holds⟩
      have late : ¬need' ≤ room t := by
        intro enough
        apply short
        rw [left, le_sub_iff_add_le] at enough
        exact sup_le fits enough
      change (op s).bind _ = none
      rw [ran]
      exact (second a t holds left).short late
    · change (op s).bind _ = none
      rw [first.short fits]
      rfl
  · intro enough
    rcases first.enough (le_sup_left.trans enough) with ⟨a, t, ran, left, holds⟩
    have late : need' ≤ room t := by
      rw [left, le_sub_iff_add_le]
      exact le_sup_right.trans enough
    rcases (second a t holds left).enough late with ⟨b, u, ran', left', holds'⟩
    refine ⟨b, u, ?_, ?_, holds'⟩
    · change (op s).bind _ = _
      rw [ran]
      exact ran'
    · rw [left', left, sub_sub]

/-- A program that goes on as another does from a state with the same room. -/
theorem Costs.move {op op' : StateT σ Option α} {s s' : σ} {need net : R} {post : α → σ → Prop}
    (costs : Costs room op s need net post) (same : op' s' = op s) (level : room s' = room s) :
    Costs room op' s' need net post := by
  refine ⟨fun short => ?_, fun enough => ?_⟩
  · rw [same]
    rw [level] at short
    exact costs.short short
  · rw [same, level]
    rw [level] at enough
    exact costs.enough enough

theorem Costs.congr {op op' : StateT σ Option α} {s : σ} {need net : R} {post : α → σ → Prop}
    (costs : Costs room op s need net post) (same : op' s = op s) :
    Costs room op' s need net post := costs.move same rfl

theorem Costs.step {op : StateT σ Option α} {s t : σ} {a : α} {net : R} {post : α → σ → Prop}
    (nonneg : 0 ≤ room s) (ran : op s = some (a, t)) (left : room t = room s - net)
    (holds : post a t) : Costs room op s 0 net post := by
  constructor
  · intro short
    exact absurd nonneg short
  · intro _
    exact ⟨a, t, ran, left, holds⟩

theorem Costs.pure {s : σ} {a : α} {post : α → σ → Prop} (nonneg : 0 ≤ room s) (holds : post a s) :
    Costs room (pure a : StateT σ Option α) s 0 0 post :=
  Costs.step nonneg rfl (sub_zero _).symm holds

theorem Costs.mono {op : StateT σ Option α} {s : σ} {need net : R} {post post' : α → σ → Prop}
    (costs : Costs room op s need net post) (weaker : ∀ a t, post a t → post' a t) :
    Costs room op s need net post' := by
  refine ⟨costs.short, fun enough => ?_⟩
  rcases costs.enough enough with ⟨a, t, ran, left, holds⟩
  exact ⟨a, t, ran, left, weaker a t holds⟩

/-- What a run that comes to an end says. -/
theorem Costs.of_some {op : StateT σ Option α} {s t : σ} {a : α} {need net : R}
    {post : α → σ → Prop} (costs : Costs room op s need net post) (ran : op s = some (a, t)) :
    need ≤ room s ∧ room t = room s - net ∧ post a t := by
  by_cases enough : need ≤ room s
  · rcases costs.enough enough with ⟨b, u, same, left, holds⟩
    cases same.symm.trans ran
    exact ⟨enough, left, holds⟩
  · rw [costs.short enough] at ran
    cases ran

theorem Costs.and_ran {op : StateT σ Option α} {s : σ} {need net : R} {post post' : α → σ → Prop}
    (costs : Costs room op s need net post) (holds : ∀ a t, op s = some (a, t) → post' a t) :
    Costs room op s need net fun a t => post a t ∧ post' a t := by
  refine ⟨costs.short, fun enough => ?_⟩
  rcases costs.enough enough with ⟨a, t, ran, left, first⟩
  exact ⟨a, t, ran, left, first, holds a t ran⟩

theorem Costs.cast {op : StateT σ Option α} {s : σ} {need net need' net' : R}
    {post : α → σ → Prop} (costs : Costs room op s need net post) (needs : need = need')
    (nets : net = net') : Costs room op s need' net' post := by
  rw [← needs, ← nets]
  exact costs

end TitorOS.Lib
