import Mathlib.Logic.Basic

/-! Runs of a partial step function. A step that yields `none` is one that never
returns, so a run ends before it. -/

namespace TitorOS.Lib

variable {State Act : Type*} {step : State → Act → Option State} {ok : State → Act → Prop}

/-- `Run step ok s t`: some sequence of steps leads from `s` to `t`, each of them
meeting `ok` in the state it starts from. -/
inductive Run (step : State → Act → Option State) (ok : State → Act → Prop)
    (s : State) : State → Prop
  | refl : Run step ok s s
  | tail {t u : State} {a : Act} :
      Run step ok s t → ok t a → step t a = some u → Run step ok s u

/-- Every step is allowed. -/
def anyStep (_ : State) (_ : Act) : Prop := True

theorem Run.invariant {s t : State} (inv : State → Prop) (start : inv s)
    (keep : ∀ t a u, inv t → ok t a → step t a = some u → inv u)
    (run : Run step ok s t) : inv t := by
  induction run with
  | refl => exact start
  | tail _ allowed taken ih => exact keep _ _ _ ih allowed taken

theorem Run.next {s t : State} (a : Act) (run : Run step ok s t) (allowed : ok t a)
    (goes : (step t a).isSome = true) : Run step ok s ((step t a).get goes) :=
  run.tail allowed (Option.some_get goes).symm

/-- The state a list of actions leads to, for evaluating concrete runs. -/
def runList (step : State → Act → Option State) : State → List Act → Option State
  | s, [] => some s
  | s, a :: rest => (step s a).bind fun t => runList step t rest

theorem runList_append (s : State) (first second : List Act) :
    runList step s (first ++ second) =
      (runList step s first).bind fun t => runList step t second := by
  induction first generalizing s with
  | nil => rfl
  | cons a rest ih =>
      rw [List.cons_append, runList, runList]
      cases step s a with
      | none => rfl
      | some t => exact ih t

theorem Run.trans {s t u : State} (first : Run step ok s t) (second : Run step ok t u) :
    Run step ok s u := by
  induction second with
  | refl => exact first
  | tail _ allowed taken ih => exact ih.tail allowed taken

theorem Run.of_runList {s t : State} (actions : List Act)
    (allowed : ∀ a ∈ actions, ∀ s, ok s a) (result : runList step s actions = some t) :
    Run step ok s t := by
  induction actions generalizing s with
  | nil =>
      have same : s = t := by simpa [runList] using result
      exact same ▸ .refl
  | cons a rest ih =>
      cases taken : step s a with
      | none => simp [runList, taken] at result
      | some u =>
          have onward : Run step ok u t :=
            ih (fun b member => allowed b (.tail a member)) (by simpa [runList, taken] using result)
          exact (Run.refl.tail (allowed a (.head rest) s) taken).trans onward

theorem Run.of_guarded [∀ s a, Decidable (ok s a)] {s t : State} (actions : List Act)
    (result : runList (fun s a => if ok s a then step s a else none) s actions = some t) :
    Run step ok s t := by
  induction actions generalizing s with
  | nil =>
      have same : s = t := by simpa [runList] using result
      exact same ▸ .refl
  | cons a rest ih =>
      rcases Option.bind_eq_some_iff.mp result with ⟨u, checked, onward⟩
      rcases Option.ite_none_right_eq_some.mp checked with ⟨allowed, taken⟩
      exact (Run.refl.tail allowed taken).trans (ih onward)

/-- Every step taken on the way meets `holds`, which compares the states before and after. -/
def Along (step : State → Act → Option State) (holds : State → Act → State → Prop) :
    State → List Act → Prop
  | _, [] => True
  | s, a :: rest => ∀ t, step s a = some t → holds s a t ∧ Along step holds t rest

/-- Where the invariant makes two properties of a step the same, and the steps that have
them keep the invariant, the two agree on whole runs. -/
theorem along_iff {first second : State → Act → State → Prop} (inv : State → Prop)
    (keep : ∀ s a t, inv s → second s a t → step s a = some t → inv t)
    (agree : ∀ s a t, inv s → step s a = some t → (first s a t ↔ second s a t))
    (s : State) (start : inv s) (actions : List Act) :
    Along step first s actions ↔ Along step second s actions := by
  induction actions generalizing s with
  | nil => exact Iff.rfl
  | cons a rest ih =>
      refine forall_congr' fun t => imp_congr_right fun taken => ?_
      have here := agree s a t start taken
      constructor
      · rintro ⟨met, onward⟩
        have same := here.mp met
        exact ⟨same, (ih t (keep s a t start same taken)).mp onward⟩
      · rintro ⟨met, onward⟩
        exact ⟨here.mpr met, (ih t (keep s a t start met taken)).mpr onward⟩

theorem Along.of_guarded {ok : State → Act → Prop} [∀ s a, Decidable (ok s a)] {s t : State}
    (actions : List Act)
    (result : runList (fun s a => if ok s a then step s a else none) s actions = some t) :
    Along step (fun s a _ => ok s a) s actions := by
  induction actions generalizing s with
  | nil => trivial
  | cons a rest ih =>
      intro u taken
      rcases Option.bind_eq_some_iff.mp result with ⟨v, checked, onward⟩
      rcases Option.ite_none_right_eq_some.mp checked with ⟨allowed, goes⟩
      obtain rfl : v = u := Option.some.inj (goes.symm.trans taken)
      exact ⟨allowed, ih onward⟩

theorem Along.last {holds : State → Act → State → Prop} {s t u : State} (actions : List Act)
    (a : Act) (along : Along step holds s (actions ++ [a]))
    (before : runList step s actions = some t) (taken : step t a = some u) : holds t a u := by
  induction actions generalizing s with
  | nil =>
      obtain rfl : s = t := by simpa [runList] using before
      exact (along u taken).1
  | cons b rest ih =>
      rcases Option.bind_eq_some_iff.mp before with ⟨v, goes, onward⟩
      exact ih (along v goes).2 onward

end TitorOS.Lib
