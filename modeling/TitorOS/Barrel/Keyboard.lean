import TitorOS.Barrel.LineEdit

/-! The keyboard interrupt, `drivers/keyboard.c`, in front of the terminal: which lines can be
typed, and what a reader can get. -/

namespace TitorOS.Barrel.Terminal

open TitorOS.Lib TitorOS.Barrel.Scheduler

/-- The `switch` of `keypress`. The keys that are no letters are written as their codes. -/
def keys : List (UInt8 × UInt8) :=
  [(0x01, 0x1B), (0x0E, 0x08),
    (0x10, 'q'.toUInt8), (0x11, 'w'.toUInt8), (0x12, 'e'.toUInt8), (0x13, 'r'.toUInt8),
    (0x14, 't'.toUInt8), (0x15, 'y'.toUInt8), (0x16, 'u'.toUInt8), (0x17, 'i'.toUInt8),
    (0x18, 'o'.toUInt8), (0x19, 'p'.toUInt8), (0x1A, 0x5B), (0x1B, 0x5D), (0x1C, 0x0A),
    (0x1E, 'a'.toUInt8), (0x1F, 's'.toUInt8), (0x20, 'd'.toUInt8), (0x21, 'f'.toUInt8),
    (0x22, 'g'.toUInt8), (0x23, 'h'.toUInt8), (0x24, 'j'.toUInt8), (0x25, 'k'.toUInt8),
    (0x26, 'l'.toUInt8), (0x27, 0x3B), (0x28, 0x27), (0x29, 0x60), (0x2B, 0x5C),
    (0x2C, 'z'.toUInt8), (0x2D, 'x'.toUInt8), (0x2E, 'c'.toUInt8), (0x2F, 'v'.toUInt8),
    (0x30, 'b'.toUInt8), (0x31, 'n'.toUInt8), (0x32, 'm'.toUInt8), (0x33, 0x2C), (0x34, 0x2E),
    (0x35, 0x2F), (0x39, 0x20)]

/-- What `keypress` gives to `keybuffer`; nothing for any other scancode, and so for every key
that is released. -/
def keypress (scancode : UInt8) : Option UInt8 := keys.lookup scancode

/-- Small letters, space, `'`, `,`, `.`, `/`, `;`, the square brackets, the backslash and the grave
accent: no digit, no capital letter, no `%`. -/
def Typeable (c : UInt8) : Prop :=
  c = 0x20 ∨ c = 0x27 ∨ c = 0x2C ∨ c = 0x2E ∨ c = 0x2F ∨ c = 0x3B ∨ (0x5B ≤ c ∧ c ≤ 0x5D) ∨
    (0x60 ≤ c ∧ c ≤ 0x7A)

instance : DecidablePred Typeable := fun c => inferInstanceAs (Decidable (c = 0x20 ∨ _))

/-- The line that these scancodes leave in the buffer. -/
def lineOf (scancodes : List UInt8) : List UInt8 := edited (scancodes.filterMap keypress)

theorem keypress_mem {scancode key : UInt8} (pressed : keypress scancode = some key) :
    (scancode, key) ∈ keys := by
  rw [keypress, List.lookup_eq_some_iff] at pressed
  rcases pressed with ⟨before, behind, split, _⟩
  rw [split]
  simp

theorem keypress_key {scancode key : UInt8} (pressed : keypress scancode = some key) :
    key = 0x08 ∨ key = 0x0A ∨ key = 0x1B ∨ Typeable key := by
  have all : keys.all (fun k => k.2 = 0x08 ∨ k.2 = 0x0A ∨ k.2 = 0x1B ∨ Typeable k.2) = true := by
    decide +kernel
  exact of_decide_eq_true (List.all_eq_true.mp all _ (keypress_mem pressed))

theorem typeable_pressed {c : UInt8} (typeable : Typeable c) :
    ∃ scancode, keypress scancode = some c ∧ c ≠ 0x0A ∧ c ≠ 0x08 ∧ c ≠ 0x1B := by
  have all : ∀ n : Fin 256, Typeable (UInt8.ofNat n) →
      (keys.any fun k => k.2 = UInt8.ofNat n && keypress k.1 == some (UInt8.ofNat n)) = true ∧
        UInt8.ofNat n ≠ 0x0A ∧ UInt8.ofNat n ≠ 0x08 ∧ UInt8.ofNat n ≠ 0x1B := by
    decide +kernel
  have here := all ⟨c.toNat, c.toNat_lt⟩ (by simpa using typeable)
  simp only [UInt8.ofNat_toNat] at here
  rcases here with ⟨found, plain⟩
  rcases List.any_eq_true.mp found with ⟨k, _, same⟩
  simp only [Bool.and_eq_true, decide_eq_true_eq, beq_iff_eq] at same
  exact ⟨k.1, same.2, plain⟩

theorem lineOf_snoc {scancodes : List UInt8} {scancode key : UInt8}
    (pressed : keypress scancode = some key) :
    lineOf (scancodes ++ [scancode]) = editLine (lineOf scancodes) key := by
  rw [lineOf, List.filterMap_append, List.filterMap_cons_some pressed, List.filterMap_nil,
    edited_snoc]
  rfl

theorem editLine_typeable {line : List UInt8} {key : UInt8} (typeable : ∀ c ∈ line, Typeable c)
    (pressed : key = 0x08 ∨ key = 0x1B ∨ Typeable key) : ∀ c ∈ editLine line key, Typeable c := by
  intro c member
  rw [editLine] at member
  split at member
  · exact typeable c (List.mem_of_mem_dropLast member)
  · rename_i back
    split at member
    · cases member
    · rename_i escape
      rcases List.mem_append.mp member with old | new
      · exact typeable c old
      · rw [List.mem_singleton.mp new]
        exact (pressed.resolve_left back).resolve_left escape

/-- Exactly the lines of these characters can be typed. -/
theorem typed_line_iff (line : List UInt8) :
    (∃ scancodes, some 0x0A ∉ scancodes.map keypress ∧ lineOf scancodes = line) ↔
      ∀ c ∈ line, Typeable c := by
  constructor
  · rintro ⟨scancodes, noEnter, rfl⟩
    induction scancodes using List.reverseRecOn with
    | nil => exact fun c member => by cases member
    | append_singleton before scancode ih =>
        have earlier : some 0x0A ∉ before.map keypress := by
          intro member
          exact noEnter (by rw [List.map_append]; exact List.mem_append_left _ member)
        cases pressed : keypress scancode with
        | none =>
            rw [lineOf, List.filterMap_append, List.filterMap_cons_none pressed]
            simpa [lineOf] using ih earlier
        | some key =>
            rw [lineOf_snoc pressed]
            apply editLine_typeable (ih earlier)
            rcases keypress_key pressed with back | enter | escape | typeable
            · exact .inl back
            · refine absurd ?_ noEnter
              rw [List.map_append, List.map_singleton, pressed, enter]
              exact List.mem_append_right _ (List.mem_singleton.mpr rfl)
            · exact .inr (.inl escape)
            · exact .inr (.inr typeable)
  · intro typeable
    induction line using List.reverseRecOn with
    | nil => exact ⟨[], by simp, rfl⟩
    | append_singleton before c ih =>
        rcases ih fun d member => typeable d (List.mem_append_left _ member) with
          ⟨scancodes, noEnter, line⟩
        rcases typeable_pressed (typeable c (by simp)) with ⟨scancode, pressed, enter, back, escape⟩
        refine ⟨scancodes ++ [scancode], ?_, ?_⟩
        · rw [List.map_append, List.mem_append]
          rintro (old | new)
          · exact noEnter old
          · rw [List.map_singleton, pressed, List.mem_singleton] at new
            exact enter (Option.some.inj new).symm
        · rw [lineOf_snoc pressed, line, editLine, if_neg back, if_neg escape]

/-! The interrupt among what else happens. -/

inductive Irq where
  | keyboard (scancode : UInt8)
  | other (e : Event)

def interrupt (s : State) : Irq → Option State
  | .keyboard scancode =>
      match keypress scancode with
      | some key => step s (.key key)
      | none => if s.panicked then none else some s
  | .other e => step s e

/-- Keys come from the keyboard, and none at a bad moment. -/
def InOrder (s : State) : Irq → Prop
  | .keyboard scancode => ∀ key, keypress scancode = some key → Orderly s (.key key)
  | .other e => Orderly s e ∧ ∀ key, e ≠ .key key

/-- The line so far, and those that readers are to get. -/
structure Clean (d : Discipline) : Prop where
  line : ∀ c ∈ d.line, Typeable c
  owed : ∀ x ∈ d.owed, ∃ line, x.2 = line ++ [0] ∧ ∀ c ∈ line, Typeable c

/-- The keys seen are those of the keyboard. -/
def FromKeyboard (trace : List Obs) : Prop :=
  ∀ key, Obs.key key ∈ trace → ∃ scancode, keypress scancode = some key

theorem Clean.observe {d : Discipline} (clean : Clean d) {seen : Obs}
    (pressed : ∀ key, seen = .key key → ∃ scancode, keypress scancode = some key) :
    Clean (d.observe seen) := by
  cases seen with
  | key key =>
      rcases pressed key rfl with ⟨scancode, typed⟩
      rw [Discipline.observe]
      split
      · split
        · exact clean
        · refine ⟨fun c member => absurd member List.not_mem_nil, ?_⟩
          intro x member
          rcases List.mem_append.mp member with old | new
          · exact clean.owed x old
          · rw [List.mem_singleton.mp new]
            exact ⟨d.line, rfl, clean.line⟩
      · rename_i noEnter
        refine ⟨editLine_typeable clean.line ?_, clean.owed⟩
        rcases keypress_key typed with back | enter | escape | typeable
        · exact .inl back
        · exact absurd enter noEnter
        · exact .inr (.inl escape)
        · exact .inr (.inr typeable)
  | wait p => exact ⟨clean.line, clean.owed⟩
  | deliver p bytes =>
      rw [Discipline.observe]
      split
      · exact ⟨clean.line, fun x member => clean.owed x (List.mem_of_mem_erase member)⟩
      · exact ⟨clean.line, clean.owed⟩

theorem discipline_clean {trace : List Obs} (typed : FromKeyboard trace) :
    Clean (discipline trace) := by
  induction trace using List.reverseRecOn with
  | nil => exact ⟨fun c member => absurd member List.not_mem_nil,
      fun x member => absurd member List.not_mem_nil⟩
  | append_singleton before seen ih =>
      rw [discipline_snoc]
      refine (ih fun key member => typed key (List.mem_append_left _ member)).observe ?_
      intro key same
      exact typed key (by rw [same]; simp)

theorem delivered_typed {trace : List Obs} (typed : FromKeyboard trace)
    (faithful : (discipline trace).faithful = true) {p : Ptr} {bytes : List UInt8}
    (delivered : Obs.deliver p bytes ∈ trace) :
    ∃ line, bytes = line ++ [0] ∧ ∀ c ∈ line, Typeable c := by
  induction trace using List.reverseRecOn with
  | nil => cases delivered
  | append_singleton before seen ih =>
      have earlier : FromKeyboard before := fun key member =>
        typed key (List.mem_append_left _ member)
      rw [discipline_snoc] at faithful
      have kept : (discipline before).faithful = true := by
        cases seen with
        | key key =>
            rw [Discipline.observe] at faithful
            split at faithful
            · split at faithful
              · exact faithful
              · exact faithful
            · exact faithful
        | wait p => exact faithful
        | deliver p bytes =>
            rw [Discipline.observe] at faithful
            split at faithful
            · exact faithful
            · cases faithful
      rcases List.mem_append.mp delivered with old | new
      · exact ih earlier kept old
      · rw [← List.mem_singleton.mp new, Discipline.observe] at faithful
        split at faithful
        · rename_i owed
          exact (discipline_clean earlier).owed _ owed
        · cases faithful

theorem resume_keys {s : State} {key : UInt8} (seen : Obs.key key ∈ (resume s).trace) :
    Obs.key key ∈ s.trace := by
  rw [resume] at seen
  split at seen
  · exact seen
  · split at seen
    · exact seen
    · split at seen
      · exact seen
      · rcases List.mem_append.mp seen with old | new
        · exact old
        · cases List.mem_singleton.mp new

theorem step_keys {s t : State} {e : Event} (taken : step s e = some t) {key : UInt8}
    (seen : Obs.key key ∈ t.trace) : Obs.key key ∈ s.trace ∨ e = .key key := by
  rw [step] at taken
  split at taken
  · cases taken
  · cases e with
    | key pressed =>
        cases taken
        rcases List.mem_append.mp seen with old | new
        · exact .inl old
        · cases List.mem_singleton.mp new
          exact .inr rfl
    | read count =>
        rw [act] at taken
        split at taken
        · cases taken
        · rcases Option.map_eq_some_iff.mp taken with ⟨sched, _, rfl⟩
          rcases List.mem_append.mp (resume_keys seen) with old | new
          · exact .inl old
          · cases List.mem_singleton.mp new
    | scheduler =>
        rw [act] at taken
        rcases Option.map_eq_some_iff.mp taken with ⟨sched, _, rfl⟩
        have old : Obs.key key ∈ { s with sched := sched }.trace := resume_keys seen
        exact .inl old
    | fork =>
        rw [act] at taken
        rcases Option.map_eq_some_iff.mp taken with ⟨sched, _, rfl⟩
        exact .inl seen
    | screen cursor =>
        cases taken
        exact .inl seen
    | other slot p =>
        rw [act] at taken
        split at taken
        · cases taken
        · cases taken
          exact .inl seen

/-- Behind the keyboard every reader gets lines of the characters that can be typed, each ended by
its only NUL. -/
theorem keyboard_run_lines (used : Kheap) (sched : Scheduler.State) (buffer : UInt8 → UInt8)
    (slots : Nat → Ptr) (s : State) (start : initScheduler used = some sched)
    (run : Run interrupt InOrder (initTerminal sched buffer slots) s) :
    Delivers s ∧ ∀ p bytes, Obs.deliver p bytes ∈ s.trace →
      ∃ line, bytes = line ++ [0] ∧ ∀ c ∈ line, Typeable c := by
  have settled : (Inv s (discipline s.trace) ∧ s.calls s.sched.activeProc = none) ∧
      FromKeyboard s.trace := by
    apply run.invariant (fun s => (Inv s (discipline s.trace) ∧
      s.calls s.sched.activeProc = none) ∧ FromKeyboard s.trace)
    · refine ⟨⟨initTerminal_inv used sched buffer slots start, rfl⟩, fun key seen => by cases seen⟩
    · rintro t irq u ⟨⟨inv, free⟩, typed⟩ ok taken
      cases irq with
      | keyboard scancode =>
          rw [interrupt] at taken
          split at taken
          · rename_i key pressed
            have orderly := ok key pressed
            refine ⟨step_inv t u _ inv free orderly.1 orderly.2 taken, fun seen_key seen => ?_⟩
            rcases step_keys taken seen with old | new
            · exact typed seen_key old
            · cases new
              exact ⟨scancode, pressed⟩
          · split at taken
            · cases taken
            · cases taken
              exact ⟨⟨inv, free⟩, typed⟩
      | other e =>
          refine ⟨step_inv t u e inv free ok.1.1 ok.1.2 taken, fun seen_key seen => ?_⟩
          rcases step_keys taken seen with old | new
          · exact typed seen_key old
          · exact absurd new (ok.2 seen_key)
  have delivers := inv_delivers s settled.1.1
  exact ⟨delivers, fun p bytes delivered => delivered_typed settled.2 delivers.faithful delivered⟩

theorem InOrder.press {s : State} {scancode key : UInt8} (pressed : keypress scancode = some key)
    (orderly : Orderly s (.key key)) : InOrder s (.keyboard scancode) := by
  intro typed same
  rw [← Option.some.inj (pressed.symm.trans same)]
  exact orderly

theorem InOrder.release {s : State} {scancode : UInt8} (released : keypress scancode = none) :
    InOrder s (.keyboard scancode) := by
  intro typed same
  cases released.symm.trans same

theorem typed_line_delivered :
    ∃ s, Run interrupt InOrder sampleTerminal s ∧ Obs.deliver (.heap 0) [97, 0] ∈ s.trace ∧
      Delivers s := by
  have delivers (s : State) (run : Run interrupt InOrder sampleTerminal s) : Delivers s :=
    (keyboard_run_lines (.low 0) _ (fun _ => 0) (fun _ => .idleProc) s initScheduler_sample run).1
  have run1 : Run interrupt InOrder sampleTerminal _ :=
    Run.refl.next (Irq.other .scheduler)
      ⟨⟨trivial, fun someone => absurd rfl someone.choose_spec.1⟩, by rintro key ⟨⟩⟩
      (by decide +kernel)
  have nobody1 := nobody_woken _ (delivers _ run1) (by decide +kernel)
  have run2 := run1.next (Irq.other (.read 0))
    ⟨⟨trivial, by decide +kernel, fun someone => absurd someone.choose_spec (nobody1 _)⟩,
      by rintro key ⟨⟩⟩
    (by decide +kernel)
  have nobody2 := nobody_woken _ (delivers _ run2) (by decide +kernel)
  have run3 := run2.next (Irq.keyboard 0x1E)
    (InOrder.press rfl
      ⟨by rw [ShortLines]; decide +kernel, fun _ => ⟨5, by decide, by decide +kernel⟩,
        .inr ⟨nobody2, fun newline => absurd newline (by decide)⟩⟩)
    (by decide +kernel)
  have run4 := run3.next (Irq.keyboard 0x9E) (InOrder.release rfl) (by decide +kernel)
  have nobody4 := nobody_woken _ (delivers _ run4) (by decide +kernel)
  have run5 := run4.next (Irq.keyboard 0x1C)
    (InOrder.press rfl
      ⟨by rw [ShortLines]; decide +kernel, fun _ => ⟨5, by decide, by decide +kernel⟩,
        .inr ⟨nobody4, fun _ count call => .inl ?_⟩⟩)
    (by decide +kernel)
  · have run6 := run5.next (Irq.other .scheduler)
      ⟨⟨trivial, fun _ => ⟨5, by decide, by decide +kernel⟩⟩, by rintro key ⟨⟩⟩ (by decide +kernel)
    exact ⟨_, run6, by decide +kernel, delivers _ run6⟩
  · exact Option.some.inj (call.symm.trans (by decide +kernel))

end TitorOS.Barrel.Terminal
