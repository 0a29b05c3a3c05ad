import TitorOS.Lib.Runs
import TitorOS.Barrel.Printf
import TitorOS.Barrel.Getnode

/-! `strtok` of `libc/string.c` on the bytes of memory. The first call puts a NUL in place of
every delimiter; the calls after it go from one NUL to the next. -/

namespace TitorOS.Barrel.Strtok

open TitorOS.Lib
open TitorOS.Barrel.Printf (Memory cstr IsString)

def NULL : Nat := 0

def strlen (mem : Memory) (a : Nat) : Nat := (cstr mem a).length

/-- `token` and `strEnd` are the static variables. -/
structure State where
  mem : Memory
  token : Nat
  strEnd : Nat

/-- The inner loop, with `a` for `str + i`. `none` stands for a loop that never ends, as `j`
is a byte. -/
def replace (delim a : Nat) : Nat → UInt8 → Memory → Option Memory
  | 0, _, _ => none
  | fuel + 1, j, mem =>
      if j.toNat < strlen mem delim then
        replace delim a fuel (j + 1)
          (if mem a = mem (delim + j.toNat) then Function.update mem a 0 else mem)
      else some mem

def replaceAll (str delim : Nat) : Nat → Nat → Memory → Option Memory
  | 0, _, _ => none
  | fuel + 1, i, mem =>
      if mem (str + i) = 0 then some mem
      else (replace delim (str + i) (2 ^ 32) 0 mem).bind fun mem =>
        replaceAll str delim fuel (i + 1) mem

def skip (mem : Memory) (strEnd : Nat) : Nat → Nat → Nat
  | 0, token => token
  | fuel + 1, token =>
      if mem token = 0 ∧ token < strEnd then skip mem strEnd fuel (token + 1) else token

/-- From the `while` on, with the value returned. -/
def advance (s : State) : State × Nat :=
  let token := skip s.mem s.strEnd (2 ^ 32) s.token
  let token := if s.strEnd ≤ token then NULL else token
  ({ s with token := token }, token)

def strtok (s : State) (str delim : Nat) : Option (State × Nat) :=
  if str ≠ NULL then
    (replaceAll str delim (2 ^ 32) 0 s.mem).map fun mem =>
      advance { mem := mem, token := str, strEnd := str + strlen s.mem str }
  else if s.token = NULL then some (s, NULL)
  else some (advance { s with token := s.token + strlen s.mem s.token + 1 })

/-- `strtok(str, delim)` and then `strtok(NULL, delim)` again and again. `work` is what the
caller does to memory between two calls. -/
def calls (s : State) (str delim : Nat) (work : Nat → Memory → Memory) : Nat → Option (State × Nat)
  | 0 => strtok s str delim
  | n + 1 => (calls s str delim work n).bind fun r =>
      strtok { r.1 with mem := work n r.1.mem } NULL delim

/-- There is a delimiter in this place of the text. -/
def Delimiter (delims text : List UInt8) (i : Nat) : Prop := ∃ c ∈ delims, text[i]? = some c

instance (delims text : List UInt8) : DecidablePred (Delimiter delims text) :=
  fun i => inferInstanceAs (Decidable (∃ c ∈ delims, text[i]? = some c))

def pointer (str : Nat) : Option Nat → Nat
  | some k => str + k
  | none => NULL

section replace

variable {mem : Memory} {str delim a : Nat} {delims text : List UInt8}

theorem strlen_eq (string : IsString mem a text) (room : text.length < 2 ^ 32) :
    strlen mem a = text.length := congrArg List.length (string.cstr_eq room)

theorem isString_congr {mem' : Memory} (string : IsString mem a text)
    (same : ∀ k ≤ text.length, mem' (a + k) = mem (a + k)) : IsString mem' a text := by
  constructor
  · intro k inside
    rw [same k inside.le]
    exact string.characters k inside
  · rw [same _ le_rfl]
    exact string.ends

/-- A byte that is no NUL is replaced if it is one of the delimiters from `j` on; the loop ends
as there are no more than 255 of them. -/
theorem replace_eq (few : delims.length ≤ 255) (apart : ∀ k ≤ delims.length, delim + k ≠ a)
    (fuel j : Nat) (mem : Memory) (string : IsString mem delim delims) (below : j ≤ delims.length)
    (enough : delims.length - j < fuel) :
    replace delim a fuel (.ofNat j) mem =
      some (if mem a ∈ delims.drop j then Function.update mem a 0 else mem) := by
  induction fuel generalizing j mem with
  | zero => omega
  | succ fuel ih =>
      have index : (UInt8.ofNat j).toNat = j := by
        rw [UInt8.toNat_ofNat', Nat.mod_eq_of_lt (by omega)]
      have next : UInt8.ofNat j + 1 = .ofNat (j + 1) := (UInt8.ofNat_add j 1).symm
      rw [replace, index, next, strlen_eq string (by omega)]
      by_cases more : j < delims.length
      · have listed : delims.drop j = mem (delim + j) :: delims.drop (j + 1) := by
          rw [List.drop_eq_getElem_cons more]
          congr 1
          have here := (string.characters j more).1
          rw [List.getElem?_eq_getElem more] at here
          exact Option.some.inj here
        rw [if_pos more, listed]
        by_cases same : mem a = mem (delim + j)
        · have kept : IsString (Function.update mem a 0) delim delims :=
            isString_congr string fun k within => Function.update_of_ne (apart k within) ..
          have done : Function.update mem a 0 a ∉ delims.drop (j + 1) := by
            rw [Function.update_self]
            intro member
            obtain ⟨k, inside, nul⟩ := List.getElem_of_mem (List.mem_of_mem_drop member)
            have here := string.characters k inside
            rw [List.getElem?_eq_getElem inside, nul] at here
            exact here.2 (Option.some.inj here.1).symm
          rw [if_pos same, ih (j + 1) _ kept more (by omega), if_neg done,
            if_pos (by rw [same]; exact List.mem_cons_self)]
        · rw [if_neg same, ih (j + 1) mem string more (by omega)]
          simp only [List.mem_cons, same, false_or]
      · rw [if_neg more, List.drop_eq_nil_of_le (by omega), if_neg List.not_mem_nil]

/-- What the outer loop leaves from place `i` of the text on. -/
def cut (delims text : List UInt8) (str i : Nat) (mem : Memory) : Memory := fun x =>
  if str + i ≤ x ∧ Delimiter delims text (x - str) then 0 else mem x

theorem Delimiter.inside {i : Nat} (delimiter : Delimiter delims text i) : i < text.length := by
  obtain ⟨c, _, here⟩ := delimiter
  exact (List.getElem?_eq_some_iff.mp here).1

theorem delimiter_iff {i : Nat} {c : UInt8} (here : text[i]? = some c) :
    Delimiter delims text i ↔ c ∈ delims := by
  constructor
  · rintro ⟨d, member, same⟩
    rw [here] at same
    rwa [Option.some.inj same]
  · exact fun member => ⟨c, member, here⟩

theorem cut_length : cut delims text str text.length mem = mem := by
  funext x
  apply if_neg
  rintro ⟨behind, delimiter⟩
  have inside := delimiter.inside
  omega

theorem cut_succ {i : Nat} (here : text[i]? = some (mem (str + i))) :
    cut delims text str (i + 1)
        (if mem (str + i) ∈ delims then Function.update mem (str + i) 0 else mem) =
      cut delims text str i mem := by
  funext x
  by_cases same : x = str + i
  · subst same
    have before : ¬ str + (i + 1) ≤ str + i := by omega
    rw [cut, cut, if_neg fun both => before both.1, Nat.add_sub_cancel_left]
    by_cases listed : mem (str + i) ∈ delims
    · rw [if_pos listed, if_pos ⟨le_rfl, (delimiter_iff here).mpr listed⟩, Function.update_self]
    · rw [if_neg listed, if_neg fun both => listed ((delimiter_iff here).mp both.2)]
  · have order : str + (i + 1) ≤ x ↔ str + i ≤ x := by omega
    have kept : (if mem (str + i) ∈ delims then Function.update mem (str + i) 0 else mem) x =
        mem x := by
      split
      · exact Function.update_of_ne same ..
      · rfl
    rw [cut, cut, kept]
    exact if_congr (and_congr_left fun _ => order) rfl rfl

theorem replaceAll_eq (few : delims.length ≤ 255)
    (apart : ∀ k ≤ delims.length, ∀ i < text.length, delim + k ≠ str + i)
    (fuel i : Nat) (mem : Memory) (delimiters : IsString mem delim delims)
    (characters : ∀ k < text.length, i ≤ k →
      text[k]? = some (mem (str + k)) ∧ mem (str + k) ≠ 0)
    (ends : mem (str + text.length) = 0) (below : i ≤ text.length)
    (enough : text.length - i < fuel) :
    replaceAll str delim fuel i mem = some (cut delims text str i mem) := by
  induction fuel generalizing i mem with
  | zero => omega
  | succ fuel ih =>
      rw [replaceAll]
      by_cases more : i < text.length
      · obtain ⟨here, nonzero⟩ := characters i more le_rfl
        have inner := replace_eq few (fun k within => apart k within i more) (2 ^ 32) 0 mem delimiters
          (Nat.zero_le _) (by omega)
        rw [List.drop_zero] at inner
        rw [if_neg nonzero, show (0 : UInt8) = .ofNat 0 from rfl, inner, Option.bind_some,
          ← cut_succ here]
        set replaced := if mem (str + i) ∈ delims then Function.update mem (str + i) 0 else mem
          with shape
        have kept (x : Nat) (other : x ≠ str + i) : replaced x = mem x := by
          rw [shape]
          split
          · exact Function.update_of_ne other ..
          · rfl
        apply ih
        · exact isString_congr delimiters fun k within => kept _ (apart k within i more)
        · intro k inside behind
          rw [kept _ (by omega)]
          exact characters k inside (by omega)
        · rw [kept _ (by omega)]
          exact ends
        · omega
        · omega
      · obtain rfl : i = text.length := by omega
        rw [if_pos ends, cut_length]

end replace

/-- The text at `str` with a NUL in place of every delimiter. -/
structure Split (str : Nat) (delims text : List UInt8) (mem : Memory) : Prop where
  nul : ∀ i < text.length, mem (str + i) = 0 ↔ Delimiter delims text i
  kept : ∀ i < text.length, ¬ Delimiter delims text i → text[i]? = some (mem (str + i))
  ends : mem (str + text.length) = 0

/-- After a call: `rest` are the places where the token it returned and those to come start. -/
structure After (str : Nat) (delims text : List UInt8) (s : State) (rest : List Nat) : Prop where
  split : Split str delims text s.mem
  strEnd : s.strEnd = str + text.length
  token : s.token = pointer str rest.head?
  first : ∀ k ∈ rest.head?, k < text.length ∧ Starts (Delimiter delims text) k ∧
    startsFrom (Delimiter delims text) text.length k = rest

section calls

variable {str : Nat} {delims text : List UInt8}

theorem cut_split {mem : Memory} (string : IsString mem str text) :
    Split str delims text (cut delims text str 0 mem) where
  nul := by
    intro i inside
    rw [cut, Nat.add_sub_cancel_left]
    by_cases delimiter : Delimiter delims text i
    · rw [if_pos ⟨Nat.le_add_right str i, delimiter⟩]
      exact iff_of_true rfl delimiter
    · rw [if_neg fun both => delimiter both.2]
      exact iff_of_false (string.characters i inside).2 delimiter
  kept := by
    intro i inside other
    rw [cut, Nat.add_sub_cancel_left, if_neg fun both => other both.2]
    exact (string.characters i inside).1
  ends := by
    rw [cut, Nat.add_sub_cancel_left, if_neg fun both => both.2.inside.false]
    exact string.ends

theorem Split.congr {mem mem' : Memory} (split : Split str delims text mem)
    (same : ∀ a, str ≤ a → a ≤ str + text.length → mem' a = mem a) :
    Split str delims text mem' where
  nul := by
    intro i inside
    rw [same _ (by omega) (by omega)]
    exact split.nul i inside
  kept := by
    intro i inside
    rw [same _ (by omega) (by omega)]
    exact split.kept i inside
  ends := (same _ (by omega) le_rfl).trans split.ends

theorem run_length {k n : Nat} (run : MaximalRun (Delimiter delims text) text.length k n) :
    ((text.drop k).take n).length = n := by
  have inside := run.inside
  rw [List.length_take, List.length_drop]
  omega

/-- A run between delimiters has become a string. -/
theorem Split.token {mem : Memory} (split : Split str delims text mem) {k n : Nat}
    (run : MaximalRun (Delimiter delims text) text.length k n) :
    IsString mem (str + k) ((text.drop k).take n) := by
  have inside := run.inside
  have length := run_length run
  constructor
  · rw [length]
    intro i within
    have other := run.solid (k + i) (by omega) (by omega)
    rw [List.getElem?_take_of_lt within, List.getElem?_drop, Nat.add_assoc]
    refine ⟨split.kept (k + i) (by omega) other, ?_⟩
    exact fun nul => other ((split.nul (k + i) (by omega)).mp nul)
  · rw [length, Nat.add_assoc]
    rcases run.right with last | delimiter
    · rw [last]
      exact split.ends
    · exact (split.nul (k + n) delimiter.inside).mpr delimiter

theorem skip_spec (mem : Memory) (strEnd fuel token : Nat) (enough : strEnd - token < fuel) :
    (∀ x, token ≤ x → x < skip mem strEnd fuel token → mem x = 0) ∧
      token ≤ skip mem strEnd fuel token ∧
      (skip mem strEnd fuel token < strEnd → mem (skip mem strEnd fuel token) ≠ 0) := by
  induction fuel generalizing token with
  | zero => omega
  | succ fuel ih =>
      rw [skip]
      by_cases goes : mem token = 0 ∧ token < strEnd
      · rw [if_pos goes]
        obtain ⟨zeros, order, stops⟩ := ih (token + 1) (by omega)
        refine ⟨?_, by omega, stops⟩
        intro x low high
        by_cases first : x = token
        · rw [first]
          exact goes.1
        · exact zeros x (by omega) high
      · rw [if_neg goes]
        exact ⟨fun x low high => by omega, le_rfl, fun below nul => goes ⟨nul, below⟩⟩

/-- From a place that no token reaches into, `advance` finds the tokens that start there or
later. -/
theorem advance_after {s : State} {k : Nat} (split : Split str delims text s.mem)
    (strEnd : s.strEnd = str + text.length) (token : s.token = str + k)
    (room : text.length < 2 ^ 32)
    (left : k = 0 ∨ text.length < k ∨ Delimiter delims text (k - 1)) :
    After str delims text (advance s).1 (startsFrom (Delimiter delims text) text.length k) ∧
      (advance s).2 = (advance s).1.token := by
  obtain ⟨zeros, order, stops⟩ := skip_spec s.mem s.strEnd (2 ^ 32) s.token (by omega)
  refine ⟨?_, rfl⟩
  set u := skip s.mem s.strEnd (2 ^ 32) s.token with found
  rw [token] at order zeros
  -- what has been skipped are delimiters, and no token starts there
  have none (i : Nat) (low : k ≤ i) (high : str + i < u) (inside : i < text.length) :
      Delimiter delims text i :=
    (split.nul i inside).mp (zeros (str + i) (by omega) high)
  by_cases ended : s.strEnd ≤ u
  · have empty : startsFrom (Delimiter delims text) text.length k = [] := by
      rw [startsFrom_skip (le_max_left k text.length), startsFrom_end (le_max_right k text.length)]
      intro i low high starts
      exact starts.1 (none i low (by omega) (by omega))
    rw [empty]
    refine ⟨split, strEnd, if_pos ended, ?_⟩
    intro j member
    cases member
  · obtain ⟨j, place⟩ : ∃ j, u = str + j := Nat.exists_eq_add_of_le (by omega)
    have inside : j < text.length := by omega
    have character := stops (by omega)
    rw [place] at character
    have solid : ¬ Delimiter delims text j := fun gap => character ((split.nul j inside).mpr gap)
    have starts : Starts (Delimiter delims text) j := by
      refine ⟨solid, ?_⟩
      by_cases first : j = k
      · subst first
        rcases left with zero | behind | gap
        · exact .inl zero
        · omega
        · exact .inr gap
      · exact .inr (none (j - 1) (by omega) (by omega) (by omega))
    have rest : startsFrom (Delimiter delims text) text.length k =
        startsFrom (Delimiter delims text) text.length j :=
      startsFrom_skip (by omega) fun i low high starts =>
        starts.1 (none i low (by omega) (by omega))
    have listed := startsFrom_start starts inside
    refine ⟨split, strEnd, ?_, ?_⟩
    · rw [rest, listed, List.head?_cons, pointer, ← place]
      exact if_neg ended
    · intro i member
      rw [rest, listed, List.head?_cons, Option.mem_some_iff] at member
      subst member
      exact ⟨inside, starts, rest.symm⟩

theorem After.next {s : State} {rest : List Nat} (after : After str delims text s rest)
    (nonNull : str ≠ NULL) (room : text.length < 2 ^ 32) (delim : Nat) :
    ∃ t, strtok s NULL delim = some (t, t.token) ∧ After str delims text t rest.tail := by
  cases rest with
  | nil =>
      have null : s.token = NULL := after.token
      refine ⟨s, ?_, after⟩
      rw [strtok, if_neg (fun other => other rfl), if_pos null, null]
  | cons k others =>
      obtain ⟨inside, starts, listed⟩ := after.first k rfl
      obtain ⟨n, run⟩ := starts.run inside
      have token : s.token = str + k := after.token
      have nonzero : s.token ≠ NULL := by
        rw [token]
        exact fun zero => nonNull (Nat.eq_zero_of_add_eq_zero_right zero)
      have within := run.inside
      have length := run_length run
      have strlen : strlen s.mem (str + k) = n := by
        rw [strlen_eq (after.split.token run) (by omega), length]
      have behind : startsFrom (Delimiter delims text) text.length (k + n + 1) = others := by
        rw [run.startsFrom_eq] at listed
        exact (List.cons.inj listed).2
      have left : k + n + 1 = 0 ∨ text.length < k + n + 1 ∨ Delimiter delims text (k + n + 1 - 1) := by
        rcases run.right with last | gap
        · exact .inr (.inl (by omega))
        · exact .inr (.inr gap)
      have found := advance_after (s := { s with token := str + (k + n + 1) }) after.split
        after.strEnd rfl room left
      rw [behind] at found
      refine ⟨_, ?_, found.1⟩
      rw [strtok, if_neg (fun other => other rfl), if_neg nonzero, token,
        strlen, Nat.add_assoc, Nat.add_assoc]
      rfl

theorem After.work {s : State} {rest : List Nat} (after : After str delims text s rest)
    {mem : Memory} (same : ∀ a, str ≤ a → a ≤ str + text.length → mem a = s.mem a) :
    After str delims text { s with mem := mem } rest :=
  ⟨after.split.congr same, after.strEnd, after.token, after.first⟩

theorem strtok_cut (s : State) (delim : Nat) (string : IsString s.mem str text)
    (delimiters : IsString s.mem delim delims) (nonNull : str ≠ NULL) (few : delims.length ≤ 255)
    (room : text.length < 2 ^ 32)
    (apart : ∀ k ≤ delims.length, ∀ i < text.length, delim + k ≠ str + i) :
    strtok s str delim =
      some (advance ⟨cut delims text str 0 s.mem, str, str + text.length⟩) := by
  have replaced : replaceAll str delim (2 ^ 32) 0 s.mem = some (cut delims text str 0 s.mem) :=
    replaceAll_eq few apart (2 ^ 32) 0 s.mem delimiters (fun k inside _ => string.characters k inside)
      string.ends (Nat.zero_le _) (by omega)
  rw [strtok, if_pos nonNull, replaced, strlen_eq string room]
  rfl

theorem first_after {mem : Memory} (string : IsString mem str text) (room : text.length < 2 ^ 32) :
    After str delims text (advance ⟨cut delims text str 0 mem, str, str + text.length⟩).1
      (startsFrom (Delimiter delims text) text.length 0) :=
  (advance_after (cut_split string) rfl (Nat.add_zero str).symm room (.inl rfl)).1

end calls

/-- `strtok(s, d)` and then `strtok(NULL, d)` return the maximal runs of characters other than
the delimiters, in their order and each as a string of its own, and from then on NULL. The
delimiters lie apart from the characters, and the caller leaves the string alone in between. -/
theorem strtok_tokens (s : State) (str delim : Nat) (text delims : List UInt8)
    (string : IsString s.mem str text) (delimiters : IsString s.mem delim delims)
    (nonNull : str ≠ NULL) (fits : str + text.length + 1 < 2 ^ 32) (few : delims.length ≤ 255)
    (apart : ∀ k ≤ delims.length, ∀ i < text.length, delim + k ≠ str + i)
    (work : Nat → Memory → Memory)
    (spares : ∀ n mem a, str ≤ a → a ≤ str + text.length → work n mem a = mem a) :
    ∃ starts : List Nat, starts.Pairwise (· < ·) ∧
      (∀ k, k ∈ starts ↔ ∃ n, MaximalRun (Delimiter delims text) text.length k n) ∧
      ∀ n, ∃ t, calls s str delim work n = some (t, pointer str starts[n]?) ∧
        ∀ k m, MaximalRun (Delimiter delims text) text.length k m →
          IsString t.mem (str + k) ((text.drop k).take m) := by
  have room : text.length < 2 ^ 32 := by omega
  set starts := startsFrom (Delimiter delims text) text.length 0 with shape
  have reached (n : Nat) : ∃ t, calls s str delim work n = some (t, t.token) ∧
      After str delims text t (starts.drop n) := by
    induction n with
    | zero =>
        exact ⟨_, strtok_cut s delim string delimiters nonNull few room apart,
          first_after string room⟩
    | succ n ih =>
        obtain ⟨t, called, after⟩ := ih
        have worked := after.work fun a low high => spares n t.mem a low high
        obtain ⟨u, next, onward⟩ := worked.next nonNull room delim
        rw [List.tail_drop] at onward
        refine ⟨u, ?_, onward⟩
        rw [calls, called, Option.bind_some]
        exact next
  refine ⟨starts, startsFrom_sorted 0, fun k => mem_startsFrom_zero, ?_⟩
  intro n
  obtain ⟨t, called, after⟩ := reached n
  refine ⟨t, ?_, fun k m run => after.split.token run⟩
  rw [called, after.token, List.head?_drop]

/-- ` echo  hi ` at 0x2000 and the shell's delimiter at 0x3000. -/
def command : List UInt8 := [0x20, 0x65, 0x63, 0x68, 0x6f, 0x20, 0x20, 0x68, 0x69, 0x20]

def typed : State :=
  { mem := fun a => if a = 0x3000 then 0x20 else (command[a - 0x2000]?).getD 0
    token := NULL
    strEnd := NULL }

theorem command_tokens :
    ∃ starts : List Nat, starts.Pairwise (· < ·) ∧
      (∀ k, k ∈ starts ↔ ∃ n, MaximalRun (Delimiter [0x20] command) command.length k n) ∧
      ∀ n, ∃ t, calls typed 0x2000 0x3000 (fun _ mem => mem) n =
          some (t, pointer 0x2000 starts[n]?) ∧
        ∀ k m, MaximalRun (Delimiter [0x20] command) command.length k m →
          IsString t.mem (0x2000 + k) ((command.drop k).take m) :=
  strtok_tokens typed 0x2000 0x3000 command [0x20] ⟨by decide +kernel, by decide +kernel⟩
    ⟨by decide +kernel, by decide +kernel⟩ (by decide) (by decide) (by decide)
    (by decide) (fun _ mem => mem) (fun _ _ _ _ _ => rfl)

-- ` hi ` at 1 and the delimiter at 8
example : (List.range 3).map (fun n =>
    (calls ⟨([0, 0x20, 0x68, 0x69, 0x20, 0, 0, 0, 0x20].getD · 0), NULL, NULL⟩ 1 8
      (fun _ mem => mem) n).map Prod.snd) = [some 2, some 0, some 0] := by decide +kernel

/-! `getnode` calls it with a path and `/`; there a pointer into the path is what lies from it to
`str_end`. -/

def SLASH : UInt8 := 0x2F

def view (mem : Memory) (a n : Nat) : List Char := (List.range' a n).map fun x => Char.ofUInt8 (mem x)

/-- `token` as `getnode` keeps it. -/
def State.shown (s : State) : Option (List Char) :=
  if s.token = NULL then none else some (view s.mem s.token (s.strEnd - s.token))

theorem ofUInt8_inj {b c : UInt8} : Char.ofUInt8 b = Char.ofUInt8 c ↔ b = c := by
  constructor
  · intro same
    have value : b.toNat = c.toNat := congrArg Char.toNat same
    exact UInt8.toNat_inj.mp value
  · exact congrArg Char.ofUInt8

theorem ofUInt8_nul (byte : UInt8) : Char.ofUInt8 byte = Vfs.NUL ↔ byte = 0 :=
  ofUInt8_inj (c := 0)

theorem ofUInt8_slash (byte : UInt8) : Char.ofUInt8 byte = '/' ↔ byte = SLASH :=
  ofUInt8_inj (c := SLASH)

theorem view_drop (mem : Memory) (a n k : Nat) :
    (view mem a n).drop k = view mem (a + k) (n - k) := by
  rw [view, ← List.map_drop, List.drop_range', Nat.mul_one]
  rfl

theorem view_cons (mem : Memory) {a strEnd : Nat} (inside : a < strEnd) :
    view mem a (strEnd - a) = Char.ofUInt8 (mem a) :: view mem (a + 1) (strEnd - (a + 1)) := by
  have length : strEnd - a = strEnd - (a + 1) + 1 := by omega
  rw [view, length, List.range'_succ, List.map_cons]
  rfl

theorem view_outside (mem : Memory) {a strEnd : Nat} (outside : strEnd ≤ a) :
    view mem a (strEnd - a) = [] := by
  rw [Nat.sub_eq_zero_of_le outside]
  rfl

theorem view_skip (mem : Memory) (strEnd fuel token : Nat) (enough : strEnd - token < fuel) :
    view mem (skip mem strEnd fuel token) (strEnd - skip mem strEnd fuel token) =
      (view mem token (strEnd - token)).dropWhile (· = Vfs.NUL) := by
  induction fuel generalizing token with
  | zero => omega
  | succ fuel ih =>
      rw [skip]
      by_cases inside : token < strEnd
      · rw [view_cons mem inside]
        by_cases nul : mem token = 0
        · rw [if_pos ⟨nul, inside⟩, List.dropWhile_cons_of_pos (by simpa [ofUInt8_nul] using nul)]
          exact ih (token + 1) (by omega)
        · rw [if_neg fun both => nul both.1,
            List.dropWhile_cons_of_neg (by simpa [ofUInt8_nul] using nul), view_cons mem inside]
      · rw [if_neg fun both => inside both.2, view_outside mem (by omega)]
        rfl

theorem view_cstr (mem : Memory) (strEnd fuel a : Nat) (order : a ≤ strEnd) (ends : mem strEnd = 0)
    (enough : strEnd - a < fuel) :
    (Printf.cstrFrom mem fuel a).length = (Vfs.cstr (view mem a (strEnd - a))).length := by
  induction fuel generalizing a with
  | zero => omega
  | succ fuel ih =>
      rw [Printf.cstrFrom]
      by_cases inside : a < strEnd
      · rw [view_cons mem inside, Vfs.cstr]
        by_cases nul : mem a = 0
        · rw [if_pos nul, List.takeWhile_cons_of_neg (by simpa [ofUInt8_nul] using nul)]
          rfl
        · rw [if_neg nul, List.takeWhile_cons_of_pos (by simpa [ofUInt8_nul] using nul),
            List.length_cons, List.length_cons, ih (a + 1) inside (by omega)]
          rfl
      · obtain rfl : a = strEnd := by omega
        rw [if_pos ends, view_outside mem le_rfl]
        rfl

theorem advance_shown (s : State) (nonNull : s.token ≠ NULL) (room : s.strEnd < 2 ^ 32) :
    (advance s).1.shown =
      match (view s.mem s.token (s.strEnd - s.token)).dropWhile (· = Vfs.NUL) with
      | [] => none
      | token => some token := by
  have skipped := view_skip s.mem s.strEnd (2 ^ 32) s.token (by omega)
  have order := (skip_spec s.mem s.strEnd (2 ^ 32) s.token (by omega)).2.1
  rw [← skipped, advance, State.shown]
  by_cases ended : s.strEnd ≤ skip s.mem s.strEnd (2 ^ 32) s.token
  · simp only [if_pos ended, view_outside s.mem ended, if_true]
  · have nonzero : skip s.mem s.strEnd (2 ^ 32) s.token ≠ NULL := by
      have positive : 0 < s.token := Nat.pos_of_ne_zero nonNull
      exact Nat.ne_of_gt (lt_of_lt_of_le positive order)
    simp only [if_neg ended, if_neg nonzero, view_cons s.mem (Nat.lt_of_not_le ended)]

theorem strtokNext_shown (s : State) (delim : Nat) (order : s.token ≤ s.strEnd)
    (ends : s.mem s.strEnd = 0) (room : s.strEnd < 2 ^ 32) :
    ∃ t, strtok s NULL delim = some (t, t.token) ∧ t.shown = Vfs.strtokNext s.shown := by
  by_cases null : s.token = NULL
  · refine ⟨s, ?_, ?_⟩
    · rw [strtok, if_neg (fun other => other rfl), if_pos null, null]
    · rw [State.shown, if_pos null]
      rfl
  · have length : strlen s.mem s.token =
        (Vfs.cstr (view s.mem s.token (s.strEnd - s.token))).length :=
      view_cstr s.mem s.strEnd (2 ^ 32) s.token order ends (by omega)
    have found := advance_shown { s with token := s.token + strlen s.mem s.token + 1 }
      (Nat.succ_ne_zero _) room
    refine ⟨_, ?_, found.trans ?_⟩
    · rw [strtok, if_neg (fun other => other rfl), if_neg null]
      rfl
    · rw [State.shown, if_neg null, Vfs.strtokNext, view_drop, ← length, Nat.sub_sub]
      rfl

theorem view_cut {mem : Memory} {str : Nat} {text : List UInt8} (string : IsString mem str text) :
    view (cut [SLASH] text str 0 mem) str text.length =
      (text.map Char.ofUInt8).map fun c => if c = '/' then Vfs.NUL else c := by
  apply List.ext_getElem
  · simp [view]
  · intro i low high
    have inside : i < text.length := by simpa [view] using low
    have here := (string.characters i inside).1
    have same : text[i] = mem (str + i) := by
      rw [List.getElem?_eq_getElem inside] at here
      exact Option.some.inj here
    simp only [view, List.getElem_map, List.getElem_range', Nat.one_mul, cut, Nat.add_sub_cancel_left,
      same, ofUInt8_slash]
    by_cases slash : mem (str + i) = SLASH
    · have delimiter : Delimiter [SLASH] text i :=
        (delimiter_iff here).mpr (by rw [slash]; exact List.mem_singleton_self SLASH)
      rw [if_pos ⟨Nat.le_add_right str i, delimiter⟩, if_pos slash]
      rfl
    · have other : ¬ Delimiter [SLASH] text i := fun delimiter =>
        slash (List.mem_singleton.mp ((delimiter_iff here).mp delimiter))
      rw [if_neg fun both => other both.2, if_neg slash]

theorem State.shown_congr {s : State} {str size : Nat} (strEnd : s.strEnd = str + size)
    (order : s.token = NULL ∨ str ≤ s.token) {mem : Memory}
    (same : ∀ a, str ≤ a → a ≤ str + size → mem a = s.mem a) :
    { s with mem := mem }.shown = s.shown := by
  rw [State.shown, State.shown]
  by_cases null : s.token = NULL
  · rw [if_pos null, if_pos null]
  · have low := order.resolve_left null
    have views : view mem s.token (s.strEnd - s.token) = view s.mem s.token (s.strEnd - s.token) := by
      apply List.map_congr_left
      intro a member
      have place := List.mem_range'_1.mp member
      rw [same a (by omega) (by omega)]
    rw [if_neg null, if_neg null, views]

theorem After.token_le {str : Nat} {delims text : List UInt8} {s : State} {rest : List Nat}
    (after : After str delims text s rest) :
    (s.token = NULL ∨ str ≤ s.token) ∧ s.token ≤ s.strEnd := by
  have token := after.token
  have strEnd := after.strEnd
  cases rest with
  | nil =>
      have null : s.token = NULL := token
      exact ⟨.inl null, null.le.trans (Nat.zero_le _)⟩
  | cons k others =>
      have inside := (after.first k rfl).1
      have here : s.token = str + k := token
      exact ⟨.inr (by omega), by omega⟩

/-- On a path the calls return what `getnode` takes for its parts. -/
theorem calls_shown (s : State) (str delim : Nat) (text : List UInt8)
    (string : IsString s.mem str text) (delimiter : IsString s.mem delim [SLASH])
    (nonNull : str ≠ NULL) (fits : str + text.length + 1 < 2 ^ 32)
    (apart : ∀ k ≤ 1, ∀ i < text.length, delim + k ≠ str + i) (work : Nat → Memory → Memory)
    (spares : ∀ n mem a, str ≤ a → a ≤ str + text.length → work n mem a = mem a) (n : Nat) :
    ∃ t, calls s str delim work n = some (t, t.token) ∧
      t.shown = Vfs.strtokNext^[n] (Vfs.strtok (text.map Char.ofUInt8)) := by
  have room : text.length < 2 ^ 32 := by omega
  have reached (n : Nat) : ∃ t rest, calls s str delim work n = some (t, t.token) ∧
      After str [SLASH] text t rest ∧
      t.shown = Vfs.strtokNext^[n] (Vfs.strtok (text.map Char.ofUInt8)) := by
    induction n with
    | zero =>
        refine ⟨_, _, strtok_cut s delim string delimiter nonNull (by decide) room apart,
          first_after string room, ?_⟩
        have found := advance_shown ⟨cut [SLASH] text str 0 s.mem, str, str + text.length⟩ nonNull
          (Nat.lt_of_succ_lt fits)
        refine found.trans ?_
        rw [Nat.add_sub_cancel_left, view_cut string]
        rfl
    | succ n ih =>
        obtain ⟨t, rest, called, after, shown⟩ := ih
        have same := fun a low high => spares n t.mem a low high
        have worked := after.work same
        obtain ⟨u, next, onward⟩ := worked.next nonNull room delim
        have ends : work n t.mem t.strEnd = 0 := by
          have strEnd := after.strEnd
          rw [same _ (by omega) (by omega), strEnd]
          exact after.split.ends
        obtain ⟨v, again, part⟩ := strtokNext_shown { t with mem := work n t.mem } delim
          after.token_le.2 ends (by have strEnd := after.strEnd; exact strEnd ▸ Nat.lt_of_succ_lt fits)
        obtain rfl : u = v := congrArg Prod.fst (Option.some.inj (next.symm.trans again))
        refine ⟨u, _, ?_, onward, ?_⟩
        · rw [calls, called, Option.bind_some]
          exact next
        · rw [part, State.shown_congr after.strEnd after.token_le.1 same, shown,
            Function.iterate_succ_apply']
  obtain ⟨t, rest, called, _, shown⟩ := reached n
  exact ⟨t, called, shown⟩

end TitorOS.Barrel.Strtok
