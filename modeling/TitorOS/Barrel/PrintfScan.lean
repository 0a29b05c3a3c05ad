import TitorOS.Barrel.Printf

/-! Where `printf` of `libc/stdio.c` reads and writes its format. The shell's `echo` passes
what was typed as the format. -/

namespace TitorOS.Barrel.Printf

open TitorOS.Lib

/-- The bytes that a reader of a string goes through, its NUL included. -/
def reads (mem : Memory) (a : Nat) : List Nat := List.range' a ((cstr mem a).length + 1)

/-- The bytes of the format that the loop reads or writes from its test on to the next test:
those of `string[i]`, and those that `write` reads from `part` on. -/
def touched (string : Nat) (s : State) : List Nat :=
  let here := string + s.i
  if s.mem here = 0 then here :: reads s.mem s.part
  else if s.mem here = PERCENT then
    -- the digits of `%x` and the default case read the second character again
    here :: reads (s.store here 0).mem s.part ++ [here + 1]
  else [here]

/-- One more round of the loop. -/
def round (string fstring : Nat) (args : Nat → UInt32) (s : State) (_ : Unit) : Option State :=
  if s.mem (string + s.i) = 0 then none else some (step string fstring args s)

/-- `printf` returns, and what it has touched on the way are bytes of the format and its NUL. -/
structure InsideFormat (heap : Malloc.Mem) (mem : Memory) (string : Nat) (args : Nat → UInt32)
    (text : List UInt8) : Prop where
  returns : (printf heap mem string args).isSome = true
  within : ∀ heap' fstring s, Malloc.malloc heap 400 = some (heap', fstring) →
    Run (round string fstring.toNat args) anyStep ⟨mem, string, 0, 0, []⟩ s →
    ∀ a ∈ touched string s, string ≤ a ∧ a ≤ string + text.length

theorem loop_round (string fstring : Nat) (args : Nat → UInt32) (fuel : Nat) (s : State) :
    loop string fstring args (fuel + 1) s =
      match round string fstring args s () with
      | none => some s
      | some t => loop string fstring args fuel t := by
  rw [loop, round]
  split <;> rfl

theorem mem_reads {mem : Memory} {a b : Nat} :
    b ∈ reads mem a ↔ a ≤ b ∧ b ≤ a + (cstr mem a).length := by
  rw [reads, List.mem_range'_1]
  omega

theorem here_touched (string : Nat) (s : State) : string + s.i ∈ touched string s := by
  rw [touched]
  split
  · exact List.mem_cons_self
  · split
    · exact List.mem_cons_self
    · exact List.mem_cons_self

theorem directive_i (string fstring : Nat) (args : Nat → UInt32) (s : State) :
    (directive string fstring args s).i = s.i := by
  simp only [directive]
  split_ifs <;> rfl

theorem step_percent_i (string fstring : Nat) (args : Nat → UInt32) {s : State}
    (here : s.mem (string + s.i) = PERCENT) :
    (step string fstring args s).i = s.i + 2 := by
  rw [step, if_pos here]
  exact congrArg (· + 1) (directive_i string fstring args _)

section scan

variable {mem : Memory} {string fstring : Nat} {text : List UInt8} {args : Nat → UInt32} {s : State}

/-- Somewhere between two directives, with a character for every `%` to come. -/
def Scanning (mem : Memory) (string fstring : Nat) (text : List UInt8) (s : State) : Prop :=
  ∃ done lit rest, Between mem string fstring text s done lit rest ∧ Complete rest

theorem Between.inside {done lit rest : List UInt8}
    (between : Between mem string fstring text s done lit rest) :
    s.part = string + done.length ∧ done.length + lit.length = s.i ∧
      s.i + rest.length = text.length := by
  have length := congrArg List.length between.split
  have position := between.i
  simp only [List.length_append] at length position
  exact ⟨between.part, by omega, by omega⟩

theorem Between.directed (args : Nat → UInt32) {done lit rest : List UInt8} {second : UInt8}
    (between : Between mem string fstring text s done lit (PERCENT :: second :: rest))
    (isString : IsString mem string text) (clear : Clear fstring string text)
    (room : text.length < 2 ^ 32) :
    Between mem string fstring text (step string fstring args s)
      (done ++ lit ++ [PERCENT, second]) [] rest := by
  set ready : State := { s with written := s.written ++ [lit], i := s.i + 1 } with shape
  obtain ⟨reads, nonzero, outside⟩ := between.opened.character isString clear
  obtain ⟨arg, _, printed⟩ := directive_printed string fstring args s.mem ready second
    reads nonzero outside fun _ => rfl
  rw [between.step_eq args isString clear room ready shape]
  exact between.closed { ready with arg := arg } rfl rfl printed

theorem Scanning.round_kept (isString : IsString mem string text)
    (clear : Clear fstring string text) (room : text.length < 2 ^ 32)
    (scanning : Scanning mem string fstring text s) {t : State}
    (taken : round string fstring args s () = some t) :
    Scanning mem string fstring text t ∧ s.i < t.i ∧ s.i < text.length := by
  obtain ⟨done, lit, rest, between, complete⟩ := scanning
  obtain ⟨_, _, size⟩ := between.inside
  rcases Option.ite_none_left_eq_some.mp taken with ⟨goes, same⟩
  obtain rfl := Option.some.inj same
  cases rest with
  | nil => exact absurd (between.end_ isString clear).2 goes
  | cons first rest =>
      rw [List.length_cons] at size
      by_cases percent : first = PERCENT
      · subst percent
        cases rest with
        | nil => exact (show False from complete).elim
        | cons second rest =>
            obtain ⟨here, _, _⟩ := between.character isString clear
            have onward := between.directed args isString clear room
            refine ⟨⟨_, _, rest, onward, complete⟩, ?_, by omega⟩
            rw [step_percent_i string fstring args here]
            omega
      · obtain ⟨steps, onward⟩ := between.passed args isString clear percent
        rw [complete_ordinary percent] at complete
        rw [steps]
        exact ⟨⟨done, lit ++ [first], rest, onward, complete⟩, Nat.lt_succ_self _, by omega⟩

theorem Scanning.within (isString : IsString mem string text) (clear : Clear fstring string text)
    (room : text.length < 2 ^ 32) (scanning : Scanning mem string fstring text s) :
    ∀ a ∈ touched string s, string ≤ a ∧ a ≤ string + text.length := by
  obtain ⟨done, lit, rest, between, complete⟩ := scanning
  obtain ⟨part, literal, size⟩ := between.inside
  intro a member
  rw [touched] at member
  cases rest with
  | nil =>
      obtain ⟨_, ends⟩ := between.end_ isString clear
      rw [if_pos ends] at member
      rcases List.mem_cons.mp member with rfl | read
      · omega
      · have text := between.literal isString clear room ends fun _ _ => rfl
        rw [mem_reads, text] at read
        omega
  | cons first rest =>
      rw [List.length_cons] at size
      obtain ⟨here, nonzero, _⟩ := between.character isString clear
      rw [here, if_neg nonzero] at member
      by_cases percent : first = PERCENT
      · subst percent
        rw [if_pos rfl, List.mem_append, List.mem_cons, List.mem_singleton] at member
        rcases member with (rfl | read) | rfl
        · omega
        · have text : cstr (s.store (string + s.i) 0).mem s.part = lit :=
            between.literal isString clear room (Function.update_self ..)
              fun b other => Function.update_of_ne other ..
          rw [mem_reads, text] at read
          omega
        · omega
      · rw [if_neg percent, List.mem_singleton] at member
        omega

theorem Scanning.returns (args : Nat → UInt32) (isString : IsString mem string text)
    (clear : Clear fstring string text) (room : text.length < 2 ^ 32)
    (scanning : Scanning mem string fstring text s) (fuel : Nat)
    (enough : text.length - s.i < fuel) : ∃ t, loop string fstring args fuel s = some t := by
  induction fuel generalizing s with
  | zero => omega
  | succ fuel ih =>
      rw [loop_round]
      cases taken : round string fstring args s () with
      | none => exact ⟨s, rfl⟩
      | some t =>
          obtain ⟨onward, further, inside⟩ := scanning.round_kept isString clear room taken
          exact ih onward (by omega)

theorem Between.overruns (args : Nat → UInt32) {done lit rest : List UInt8}
    (isString : IsString mem string text) (clear : Clear fstring string text)
    (room : text.length < 2 ^ 32) (between : Between mem string fstring text s done lit rest)
    (incomplete : ¬ Complete rest) :
    ∃ t, Run (round string fstring args) anyStep s t ∧ t.i = text.length + 1 := by
  induction rest using Complete.induct generalizing s done lit with
  | case1 => exact (incomplete trivial).elim
  | case2 =>
      obtain ⟨here, nonzero, _⟩ := between.character isString clear
      obtain ⟨_, _, size⟩ := between.inside
      rw [List.length_singleton] at size
      refine ⟨step string fstring args s, ?_, ?_⟩
      · exact Run.refl.tail (a := ()) trivial (if_neg (by rw [here]; exact nonzero))
      · rw [step_percent_i string fstring args here]
        omega
  | case3 second rest ih =>
      obtain ⟨here, nonzero, _⟩ := between.character isString clear
      obtain ⟨t, onward, behind⟩ := ih (between.directed args isString clear room) incomplete
      have first : round string fstring args s () = some (step string fstring args s) :=
        if_neg (by rw [here]; exact nonzero)
      exact ⟨t, (Run.refl.tail (a := ()) trivial first).trans onward, behind⟩
  | case4 first rest ordinary ih =>
      obtain ⟨here, nonzero, _⟩ := between.character isString clear
      obtain ⟨steps, next⟩ := between.passed args isString clear ordinary
      rw [complete_ordinary ordinary] at incomplete
      obtain ⟨t, onward, behind⟩ := ih next incomplete
      have first : round string fstring args s () = some { s with i := s.i + 1 } :=
        (if_neg (by rw [here]; exact nonzero)).trans (congrArg some steps)
      exact ⟨t, (Run.refl.tail (a := ()) trivial first).trans onward, behind⟩

end scan

/-- `printf` stays in its format and returns exactly if `malloc` finds it a buffer and every
`%` that starts a directive has a character behind it. -/
theorem insideFormat_iff (heap : Malloc.Mem) (mem : Memory) (string : Nat) (args : Nat → UInt32)
    (text : List UInt8) (isString : IsString mem string text)
    (fits : string + text.length < 2 ^ 32)
    (clear : ∀ heap' fstring, Malloc.malloc heap 400 = some (heap', fstring) →
      Clear fstring.toNat string text) :
    InsideFormat heap mem string args text ↔
      (Malloc.malloc heap 400).isSome = true ∧ Complete text := by
  have room : text.length < 2 ^ 32 := by omega
  cases buffer : Malloc.malloc heap 400 with
  | none =>
      constructor
      · rintro ⟨returns, _⟩
        rw [printf, buffer] at returns
        cases returns
      · rintro ⟨found, _⟩
        cases found
  | some block =>
      obtain ⟨heap', fstring⟩ := block
      have apart := clear heap' fstring buffer
      have start := between_start mem string fstring.toNat text
      constructor
      · intro inside
        refine ⟨rfl, ?_⟩
        by_contra incomplete
        obtain ⟨t, run, behind⟩ := start.overruns args isString apart room incomplete
        have here := (inside.within heap' fstring t buffer run _ (here_touched string t)).2
        omega
      · rintro ⟨_, complete⟩
        have scanning : Scanning mem string fstring.toNat text ⟨mem, string, 0, 0, []⟩ :=
          ⟨[], [], text, start, complete⟩
        constructor
        · obtain ⟨t, ran⟩ := scanning.returns args isString apart room (2 ^ 32) (by omega)
          rw [printf, buffer]
          simp only [Option.bind_eq_bind, Option.bind_some, ran]
          rfl
        · intro heap'' fstring' s found run
          obtain ⟨rfl, rfl⟩ := Prod.mk.inj (Option.some.inj (buffer.symm.trans found))
          have reached : Scanning mem string fstring.toNat text s :=
            run.invariant _ scanning fun t a u kept _ taken =>
              (kept.round_kept isString apart room taken).1
          exact reached.within isString apart room

theorem sample_inside :
    InsideFormat (Malloc.initLibc fun _ => 0) sampleMemory 0x2000 sampleArgs sampleFormat := by
  have buffer : Malloc.malloc (Malloc.initLibc fun _ => 0) 400 = some (_, 0x1000000c) := rfl
  refine (insideFormat_iff _ sampleMemory 0x2000 sampleArgs sampleFormat
    ⟨by decide +kernel, by decide +kernel⟩ (by decide) ?_).mpr ⟨rfl, trivial⟩
  intro heap' fstring found
  obtain ⟨rfl, rfl⟩ := Prod.mk.inj (Option.some.inj (buffer.symm.trans found))
  decide +kernel

/-- The shell's buffer with the token `100%` of `echo 100%`, and behind its NUL what is left
there of a longer line, `red`. -/
def typedMemory (a : Nat) : UInt8 :=
  ([0x31, 0x30, 0x30, 0x25, 0, 0x72, 0x65, 0x64][a - 0x2000]?).getD 0

theorem typed_percent_overruns :
    ¬ InsideFormat (Malloc.initLibc fun _ => 0) typedMemory 0x2000 (fun _ => 0)
      [0x31, 0x30, 0x30, 0x25] := by
  intro inside
  have isString : IsString typedMemory 0x2000 [0x31, 0x30, 0x30, 0x25] :=
    ⟨by decide +kernel, by decide +kernel⟩
  have buffer : Malloc.malloc (Malloc.initLibc fun _ => 0) 400 = some (_, 0x1000000c) := rfl
  have start := between_start typedMemory 0x2000 0x1000000c [0x31, 0x30, 0x30, 0x25]
  obtain ⟨t, run, behind⟩ := start.overruns (fun _ => 0) isString (by decide) (by decide)
    (show ¬ Complete [0x31, 0x30, 0x30, 0x25] from id)
  have here := (inside.within _ 0x1000000c t buffer run _ (here_touched 0x2000 t)).2
  rw [behind] at here
  exact absurd here (by decide)

end TitorOS.Barrel.Printf
