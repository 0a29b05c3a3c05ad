import TitorOS.Barrel.Scheduler

/-! How long a READY process waits for its turn. A fork puts the child in front of everyone else,
so each fork costs the others a turn. -/

namespace TitorOS.Barrel.Scheduler

open TitorOS.Lib

variable {n : Nat}

def Act.selects : Act → Bool
  | .scheduler | .block => true
  | .fork | .unblock _ => false

/-- How many of the steps `i`, …, `j - 1` meet the test. -/
def Trace.count (tr : Trace n) (test : Act → Bool) (i j : Nat) : Nat :=
  ((List.range' i (j - i)).map tr.act).countP test

theorem Trace.count_self (tr : Trace n) (test : Act → Bool) (i : Nat) : tr.count test i i = 0 := by
  rw [Trace.count, Nat.sub_self]
  rfl

theorem Trace.count_succ (tr : Trace n) (test : Act → Bool) {i j : Nat} (order : i ≤ j) :
    tr.count test i (j + 1) = tr.count test i j + (test (tr.act j)).toNat := by
  have length : j + 1 - i = j - i + 1 := by omega
  rw [Trace.count, length, List.range'_concat, List.map_append, List.countP_append, Trace.count]
  have last : i + 1 * (j - i) = j := by omega
  rw [last, List.map_singleton, List.countP_singleton]
  cases test (tr.act j) <;> rfl

/-- In a run `q` comes nearer with each selection of another process, and each fork sets it back
by one. -/
theorem Trace.approaches (tr : Trace n) (i j : Nat) (q : Ptr) (order : i ≤ j) (within : j ≤ n)
    (present : q ∈ (tr.state i).members)
    (steady : ∀ m, i ≤ m → m ≤ j → (tr.state m).ready q = true)
    (passed : ∀ m, i ≤ m → m < j → ¬ tr.Selects m q) :
    ∃ ring ring', Linked (tr.state i) ring ∧ Linked (tr.state j) ring' ∧ q ∈ ring ∧ q ∈ ring' ∧
      tr.count Act.selects i j + distance q ring' ≤
        distance q ring + tr.count (· = .fork) i j := by
  induction j, order using Nat.le_induction with
  | base =>
      obtain ⟨ring, linked⟩ := tr.linked i within
      have member := (linked.members q).mpr present
      refine ⟨ring, ring, linked, linked, member, member, ?_⟩
      rw [tr.count_self, tr.count_self]
      omega
  | succ j order ih =>
      obtain ⟨ring, ring', linked, linked', member, member', bound⟩ := ih (by omega)
        (fun m low high => steady m low (by omega)) (fun m low high => passed m low (by omega))
      obtain ⟨ring'', linked'', moves⟩ := step_linked _ _ _ ring' linked' (tr.valid j (by omega))
      have isReady := steady (j + 1) (by omega) le_rfl
      have away := passed j order (by omega)
      refine ⟨ring, ring'', linked, linked'', member, ?_⟩
      rw [tr.count_succ _ order, tr.count_succ _ order]
      have turned (act : tr.act j = .scheduler ∨ tr.act j = .block)
          (turn : Turn (tr.state (j + 1)).ready ring' ring'') :
          q ∈ ring'' ∧ distance q ring'' < distance q ring' := by
        refine ⟨turn.mem_iff.mpr member', (turn.distance_lt member' isReady).resolve_left ?_⟩
        intro head
        exact away ((selects_iff tr j q q ring'' (by omega) act linked'' head).mpr rfl)
      generalize action : tr.act j = a at moves turned ⊢
      cases moves with
      | fork y shape fresh shape' _ =>
          subst shape shape'
          have other : y ≠ q := fun same => fresh (same ▸ member')
          refine ⟨?_, ?_⟩
          · rcases List.mem_cons.mp member' with rfl | inside
            · exact List.mem_cons_self
            · exact List.mem_cons_of_mem _ (List.mem_cons_of_mem _ inside)
          · rw [distance_insert other]
            simp only [Act.selects, decide_true, Bool.toNat_false, Bool.toNat_true]
            omega
      | unblock p same =>
          subst same
          refine ⟨member', ?_⟩
          simp only [Act.selects, reduceCtorEq, decide_false, Bool.toNat_false]
          omega
      | block turn _ =>
          obtain ⟨inside, nearer⟩ := turned (.inr rfl) turn
          refine ⟨inside, ?_⟩
          simp only [Act.selects, reduceCtorEq, decide_false, Bool.toNat_false, Bool.toNat_true]
          omega
      | scheduler turn _ =>
          obtain ⟨inside, nearer⟩ := turned (.inl rfl) turn
          refine ⟨inside, ?_⟩
          simp only [Act.selects, reduceCtorEq, decide_false, Bool.toNat_false, Bool.toNat_true]
          omega

theorem Linked.length_le {s : State} {ring : List Ptr} (linked : Linked s ring) :
    ring.length ≤ s.members.length := by
  apply List.Subperm.length_le
  exact linked.isRing.nodup.subperm fun p member => (linked.members p).mp member

/-- A process that stays READY and is passed over has seen fewer selections than there were
processes, not counting one for each fork meanwhile. -/
theorem Trace.bounded_wait (tr : Trace n) (i j : Nat) (q : Ptr) (order : i ≤ j) (within : j ≤ n)
    (present : q ∈ (tr.state i).members)
    (steady : ∀ m, i ≤ m → m ≤ j → (tr.state m).ready q = true)
    (passed : ∀ m, i ≤ m → m < j → ¬ tr.Selects m q) :
    tr.count Act.selects i j < (tr.state i).members.length + tr.count (· = .fork) i j := by
  obtain ⟨ring, ring', linked, linked', member, member', bound⟩ :=
    tr.approaches i j q order within present steady passed
  have start := (distance_le member).2
  have last := (distance_le member').1
  have length := linked.length_le
  omega

theorem child_waits :
    blockedTrace.count Act.selects 8 10 <
      (blockedTrace.state 8).members.length + blockedTrace.count (· = .fork) 8 10 := by
  refine blockedTrace.bounded_wait 8 10 (.heap 2) (by decide) (by decide)
    (show _ ∈ (blockedState 8).members by decide) ?_ ?_
  · intro m low high
    interval_cases m <;> rfl
  · rintro m low high ⟨_, act, same⟩
    interval_cases m
    · simp [blockedTrace, blockedAct] at act
    · cases same

/-- The process that runs is READY. -/
def Running (s : State) : Prop := s.ready s.activeProc = true

theorem scheduler_running {s t : State} {ring : List Ptr} (linked : Linked s ring)
    (taken : scheduler s = some t) : Running t := by
  obtain ⟨u, k, done, _, isReady, _⟩ := linked_searchOk s ring linked
  obtain rfl : u = t := Option.some.inj (done.symm.trans taken)
  obtain ⟨p, _, rfl⟩ := Option.map_eq_some_iff.mp done
  exact isReady

theorem fork_child {s t : State} {ring : List Ptr} (linked : Linked s ring)
    (taken : fork s = some t) :
    t.activeProc = s.activeProc ∧ t.next s.activeProc ∉ s.members ∧
      t.members = .idleProc :: t.next s.activeProc :: s.created ∧
      t.ready s.activeProc = s.ready s.activeProc ∧
      t.ready (t.next s.activeProc) = s.ready s.activeProc := by
  obtain ⟨x, rest, y, shape, fresh, linked', same, active⟩ := fork_linked s t ring linked taken
  subst shape
  obtain rfl : x = s.activeProc := by simpa using linked.head
  have next : t.next s.activeProc = y := by
    have links : List.IsChain (fun a b => t.next a = b) (s.activeProc :: y :: (rest ++ [s.activeProc])) :=
      linked'.isRing.2
    exact (List.isChain_cons_cons.mp links).1
  simp only [fork, Option.bind_eq_bind, Option.bind_eq_some_iff, Option.pure_def,
    Option.some.injEq, Prod.exists] at taken
  obtain ⟨page, _, _, _, _, _, _, _, _, _, _, _, _, _, _, _, rfl⟩ := taken
  have child : y = .heap page := by
    simp only [← next, State.next, Function.update_self]
  have parent : s.activeProc ≠ .heap page := by
    rintro own
    exact fresh (child ▸ own ▸ List.mem_cons_self)
  subst child
  refine ⟨rfl, ?_, ?_, same _ List.mem_cons_self, ?_⟩
  · rw [next]
    exact fun member => fresh ((linked.members _).mpr member)
  · rw [next]
    rfl
  · rw [next]
    simp only [State.ready, Function.update_of_ne parent.symm, Function.update_self]

theorem fork_scheduler {s t u : State} {ring : List Ptr} (linked : Linked s ring)
    (running : Running s) (forked : fork s = some t) (taken : scheduler t = some u) :
    u.activeProc ∉ s.members ∧ (∀ p ∈ s.members, p ∈ u.members) := by
  obtain ⟨active, fresh, members, _, isReady⟩ := fork_child linked forked
  have first : findNext t.next t.ready (2 ^ 32) t.activeProc = some (t.next s.activeProc) := by
    rw [active, show 2 ^ 32 = 2 ^ 32 - 1 + 1 from rfl, findNext, if_pos (isReady.trans running)]
  rw [scheduler, first] at taken
  obtain rfl := Option.some.inj taken
  refine ⟨fresh, fun p member => ?_⟩
  have listed : p ∈ t.members := by
    rw [members, List.mem_cons, List.mem_cons]
    rcases List.mem_cons.mp member with idle | made
    · exact .inl idle
    · exact .inr (.inr made)
  exact listed

theorem Trace.running (tr : Trace n) (m : Nat) (within : m ≤ n) : Running (tr.state m) := by
  induction m with
  | zero =>
      obtain ⟨ring, linked⟩ := tr.linked 0 within
      have start := tr.start
      simp only [initScheduler, Option.bind_eq_bind, Option.bind_eq_some_iff, Option.pure_def,
        Option.some.injEq, Prod.exists] at start
      obtain ⟨_, _, _, _, _, _, same⟩ := start
      have active : (tr.state 0).activeProc = .idleProc := by rw [← same]
      rw [Running, active]
      exact linked.idle
  | succ m ih =>
      have before := ih (by omega)
      obtain ⟨ring, linked⟩ := tr.linked m (by omega)
      have taken := tr.valid m (by omega)
      generalize action : tr.act m = a at taken
      cases a with
      | fork =>
          obtain ⟨active, _, _, same, _⟩ := fork_child linked taken
          rw [Running, active, same]
          exact before
      | block =>
          simp only [step] at taken
          split at taken
          · cases taken
          · rename_i notIdle
            refine scheduler_running (setState_linked _ _ _ ring linked ?_) taken
            rw [setState_ready, if_neg (Ne.symm notIdle)]
            exact linked.idle
      | unblock p =>
          simp only [step] at taken
          split at taken
          · rw [← Option.some.inj taken, Running, unblock, setState_ready]
            split
            · rfl
            · exact before
          · cases taken
      | scheduler => exact scheduler_running linked taken

/-- As long as whoever runs forks before each switch, no process that was there before is
selected again. -/
theorem Trace.forks_starve (tr : Trace n) (i k : Nat) (within : i + 2 * k ≤ n)
    (forks : ∀ m < k, tr.act (i + 2 * m) = .fork ∧ tr.act (i + 2 * m + 1) = .scheduler) (q : Ptr)
    (present : q ∈ (tr.state i).members) : ∀ m, i ≤ m → m < i + 2 * k → ¬ tr.Selects m q := by
  have onward (m : Nat) (below : m ≤ k) : ∀ p ∈ (tr.state i).members,
      p ∈ (tr.state (i + 2 * m)).members := by
    induction m with
    | zero => exact fun p member => member
    | succ m ih =>
        obtain ⟨ring, linked⟩ := tr.linked (i + 2 * m) (by omega)
        have forked := tr.valid (i + 2 * m) (by omega)
        have taken := tr.valid (i + 2 * m + 1) (by omega)
        rw [(forks m below).1] at forked
        rw [(forks m below).2] at taken
        exact fun p member => (fork_scheduler linked (tr.running _ (by omega)) forked taken).2 p
          (ih (by omega) p member)
  intro m low high selected
  obtain ⟨r, half⟩ := Nat.exists_eq_add_of_le low
  rcases Nat.even_or_odd' r with ⟨c, even | odd⟩
  · have act := selected.2.1
    rw [half, even, (forks c (by omega)).1] at act
    simp at act
  · have place : m = i + 2 * c + 1 := by omega
    obtain ⟨ring, linked⟩ := tr.linked (i + 2 * c) (by omega)
    have forked := tr.valid (i + 2 * c) (by omega)
    have taken := tr.valid (i + 2 * c + 1) (by omega)
    rw [(forks c (by omega)).1] at forked
    rw [(forks c (by omega)).2] at taken
    have fresh := (fork_scheduler linked (tr.running _ (by omega)) forked taken).1
    have same := selected.2.2
    rw [place] at same
    exact fresh (same ▸ onward c (by omega) q present)

theorem init_starved : ¬ blockedTrace.Selects 2 (.heap 0) := by
  refine blockedTrace.forks_starve 1 1 (by decide) ?_ (.heap 0)
    (show _ ∈ (blockedState 1).members by decide) 2 (by decide) (by decide)
  intro m below
  obtain rfl : m = 0 := by omega
  exact ⟨rfl, rfl⟩

end TitorOS.Barrel.Scheduler
