import Mathlib.Logic.Basic

/-! Programs over a state that may fail, and what they preserve: an invariant of the state that
holds again wherever the program returns, with a condition on the result. -/

namespace TitorOS.Lib

variable {σ α β : Type} {inv : σ → Prop}

def Preserves (inv : σ → Prop) (op : StateT σ Option α) (post : α → Prop) : Prop :=
  ∀ s a t, inv s → op s = some (a, t) → inv t ∧ post a

theorem Preserves.bind {op : StateT σ Option α} {next : α → StateT σ Option β} {post : α → Prop}
    {post' : β → Prop} (first : Preserves inv op post)
    (second : ∀ a, post a → Preserves inv (next a) post') : Preserves inv (op >>= next) post' := by
  intro s b u holds ran
  cases taken : op s with
  | none =>
      have fails : (op >>= next) s = none := by
        change (op s).bind _ = none
        rw [taken]
        rfl
      rw [fails] at ran
      cases ran
  | some result =>
      have goes : (op >>= next) s = next result.1 result.2 := by
        change (op s).bind _ = _
        rw [taken]
        rfl
      rw [goes] at ran
      rcases first s result.1 result.2 holds taken with ⟨kept, met⟩
      exact second result.1 met result.2 b u kept ran

theorem Preserves.pure {a : α} {post : α → Prop} (met : post a) :
    Preserves inv (pure a : StateT σ Option α) post := by
  intro s b t holds ran
  cases ran
  exact ⟨holds, met⟩

theorem Preserves.failure {post : α → Prop} :
    Preserves inv (failure : StateT σ Option α) post := by
  intro s a t _ ran
  cases ran

theorem Preserves.failure_bind {next : α → StateT σ Option β} {post : β → Prop} :
    Preserves inv (Alternative.failure >>= next) post := by
  have never : Preserves inv (Alternative.failure : StateT σ Option α) fun _ => False := .failure
  exact never.bind fun _ => False.elim

/-- The state read is one in which the invariant holds. -/
theorem Preserves.get : Preserves inv (get : StateT σ Option σ) inv := by
  intro s a t holds ran
  cases ran
  exact ⟨holds, holds⟩

theorem Preserves.store {s' : σ} (holds : inv s') :
    Preserves inv (set s' : StateT σ Option PUnit) fun _ => True := by
  intro s a t _ ran
  cases ran
  exact ⟨holds, trivial⟩

theorem Preserves.set_bind {s' : σ} {next : PUnit → StateT σ Option α} {post : α → Prop}
    (holds : inv s') (rest : Preserves inv (next ⟨⟩) post) :
    Preserves inv (set s' >>= next) post :=
  (Preserves.store holds).bind fun _ _ => rest

theorem Preserves.update {f : σ → σ} (keeps : ∀ s, inv s → inv (f s)) :
    Preserves inv (modify f : StateT σ Option PUnit) fun _ => True := by
  intro s a t holds ran
  cases ran
  exact ⟨keeps s holds, trivial⟩

theorem Preserves.modify_bind {f : σ → σ} {next : PUnit → StateT σ Option α} {post : α → Prop}
    (keeps : ∀ s, inv s → inv (f s)) (rest : Preserves inv (next ⟨⟩) post) :
    Preserves inv (modify f >>= next) post :=
  (Preserves.update keeps).bind fun _ _ => rest

end TitorOS.Lib
