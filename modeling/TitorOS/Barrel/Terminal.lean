import TitorOS.Lib.Run
import TitorOS.Barrel.Scheduler

/-! The terminal of `drivers/screen.c`: one line buffer filled by the keyboard
interrupt, and a queue of processes blocked in `sendbuffer`. Interrupts are off from
the switch to a woken reader until it has copied the line, so a switch and what the
reader then does are one step. Of the screen only the cursor is here: at its end the screen
scrolls, and that takes a page of the heap. -/

namespace TitorOS.Barrel.Terminal

open TitorOS.Lib TitorOS.Barrel.Scheduler

/-- What can be seen from outside: keys, reads that begin to wait, lines handed over. -/
inductive Obs where
  | key (key : UInt8)
  | wait (p : Ptr)
  | deliver (p : Ptr) (bytes : List UInt8)
  deriving DecidableEq

/-- The purpose of the terminal: `owed` holds the completed lines, each with the one
reader that is to get it; `faithful` says that nothing else was handed over. -/
structure Discipline where
  line : List UInt8
  waiting : List Ptr
  owed : List (Ptr × List UInt8)
  faithful : Bool

def editLine (line : List UInt8) (key : UInt8) : List UInt8 :=
  if key = 0x08 then line.dropLast else if key = 0x1B then [] else line ++ [key]

def Discipline.observe (d : Discipline) : Obs → Discipline
  | .key key =>
      if key = 0x0A then
        match d.waiting with
        | [] => d
        | p :: rest => { d with line := [], waiting := rest, owed := d.owed ++ [(p, d.line ++ [0])] }
      else { d with line := editLine d.line key }
  | .wait p => { d with waiting := d.waiting ++ [p] }
  | .deliver p bytes =>
      if (p, bytes) ∈ d.owed then { d with owed := d.owed.erase (p, bytes) }
      else { d with faithful := false }

def discipline (trace : List Obs) : Discipline :=
  trace.foldl Discipline.observe ⟨[], [], [], true⟩

/-- `slots` are the words from the queue's page on; `queueHead` and `queueTail` index
them. `calls` are the processes inside `sendbuffer`, with their counts. -/
structure State where
  sched : Scheduler.State
  buffer : UInt8 → UInt8
  length : UInt8
  cursor : UInt16
  slots : Nat → Ptr
  queueHead : Nat
  queueTail : Nat
  calls : Ptr → Option UInt8
  panicked : Bool
  trace : List Obs

/-- Without a page for `mem_copy` the kernel panics. -/
def scroll (s : State) : State :=
  match memCopy s.sched.used with
  | none => { s with panicked := true }
  | some used => { s with sched := { s.sched with used := used }, cursor := s.cursor - 80 }

/-- `setcursor`, and a scroll behind the last row. -/
def setcursor (s : State) (position : UInt16) : State :=
  if position ≥ 80 * 25 then scroll { s with cursor := position }
  else { s with cursor := position }

def completeBuffer (s : State) : State :=
  if s.queueHead = s.queueTail then s
  else
    setcursor { s with
      buffer := Function.update s.buffer s.length 0
      length := s.length + 1
      sched := unblock s.sched (s.slots s.queueHead)
      queueHead := s.queueHead + 1 } (s.cursor + (80 - s.cursor % 80))

def keybuffer (s : State) (key : UInt8) : State :=
  if key = 0x08 then
    if s.length ≠ 0 then { s with length := s.length - 1, cursor := s.cursor - 1 } else s
  else if key = 0x0A then completeBuffer s
  else if key = 0x1B then { s with length := 0, cursor := 0 }
  else
    setcursor { s with
      buffer := Function.update s.buffer s.length key
      length := s.length + 1 } (s.cursor + 1)

/-- Whether the screen scrolls after the key. -/
def State.scrolls (s : State) (key : UInt8) : Prop :=
  if key = 0x08 ∨ key = 0x1B then False
  else if key = 0x0A then
    s.queueHead ≠ s.queueTail ∧ s.cursor + (80 - s.cursor % 80) ≥ 80 * 25
  else s.cursor + 1 ≥ 80 * 25

def State.bytes (s : State) : List UInt8 :=
  (List.range s.length.toNat).map fun i => s.buffer (UInt8.ofNat i)

/-- What the process switched to goes on with: the rest of its `sendbuffer`, if it is
inside one. -/
def resume (s : State) : State :=
  match s.calls s.sched.activeProc with
  | none => s
  | some count =>
      if s.length > count ∧ count ≠ 0 then { s with panicked := true }
      else
        match memCopy s.sched.used with
        | none => { s with panicked := true }
        | some used =>
            { s with
              sched := { s.sched with used := used }
              length := 0
              calls := Function.update s.calls s.sched.activeProc none
              trace := s.trace ++ [.deliver s.sched.activeProc s.bytes] }

def sendbuffer (s : State) (count : UInt8) : Option State :=
  let active := s.sched.activeProc
  (block s.sched).map fun sched =>
    resume { s with
      slots := Function.update s.slots s.queueTail active
      queueTail := s.queueTail + 1
      calls := Function.update s.calls active (some count)
      sched := sched
      trace := s.trace ++ [.wait active] }

def QUEUE_SLOTS : Nat := 1024

/-- `screen` is what the rest of the kernel prints or clears, `other` a write by the owner of the
memory behind the queue's page. -/
inductive Event where
  | key (key : UInt8)
  | read (count : UInt8)
  | scheduler
  | fork
  | screen (cursor : UInt16)
  | other (slot : Nat) (p : Ptr)

def act (s : State) : Event → Option State
  | .key key => some { keybuffer s key with trace := s.trace ++ [.key key] }
  | .read count => if s.sched.activeProc = .idleProc then none else sendbuffer s count
  | .scheduler => (scheduler s.sched).map fun sched => resume { s with sched := sched }
  | .fork => (fork s.sched).map fun sched => { s with sched := sched }
  | .screen cursor => some { s with cursor := cursor }
  | .other slot p =>
      if slot < QUEUE_SLOTS then none
      else some { s with slots := Function.update s.slots slot p }

def step (s : State) (event : Event) : Option State :=
  if s.panicked then none else act s event

/-- `init_terminal`, with `init_scheduler` done as well. -/
def initTerminal (sched : Scheduler.State) (buffer : UInt8 → UInt8) (slots : Nat → Ptr) : State where
  sched := sched
  buffer := buffer
  length := 0
  cursor := 0
  slots := slots
  queueHead := 0
  queueTail := 0
  calls := fun _ => none
  panicked := false
  trace := []

def State.blocked (s : State) (p : Ptr) : Prop := s.calls p ≠ none ∧ s.sched.ready p = false

def State.woken (s : State) (p : Ptr) : Prop := s.calls p ≠ none ∧ s.sched.ready p = true

/-- Every line handed over was owed to that reader and is handed over once; the readers
that wait are those no line was completed for, and the lines still owed are those
of the readers that have been woken. -/
structure Delivers (s : State) : Prop where
  running : s.panicked = false
  faithful : (discipline s.trace).faithful = true
  waiting : ∀ p, p ∈ (discipline s.trace).waiting ↔ s.blocked p
  owed : ∀ p, p ∈ (discipline s.trace).owed.map Prod.fst ↔ s.woken p

/-- Lines stay shorter than 200 keys. -/
def ShortLines (s : State) : Event → Prop
  | .key key => (discipline (s.trace ++ [.key key])).line.length < 200
  | _ => True

def State.roomToCopy (s : State) : Prop :=
  (∃ p, s.woken p) → ∃ page, page < HEAP_PAGES ∧ s.sched.used page = false

def State.roomToScroll (s : State) (key : UInt8) : Prop :=
  s.scrolls key → ∃ page, page < HEAP_PAGES ∧ s.sched.used page = false

/-- No key is typed while a woken reader has not copied its line, except a newline that
nobody waits for; a line fits the reader it wakes; the queue stays on its page;
and the heap has a page for the copy, and where the screen scrolls. -/
def Undisturbed (s : State) : Event → Prop
  | .key key =>
      s.roomToScroll key ∧
        ((key = 0x0A ∧ s.queueHead = s.queueTail) ∨
          (∀ p, ¬ s.woken p) ∧
            (key = 0x0A → ∀ count, s.calls (s.slots s.queueHead) = some count →
              count = 0 ∨ s.length.toNat < count.toNat))
  | .read _ => s.queueTail < QUEUE_SLOTS ∧ s.roomToCopy
  | .scheduler => s.roomToCopy
  | _ => True

def Orderly (s : State) (event : Event) : Prop := ShortLines s event ∧ Undisturbed s event

theorem discipline_snoc (trace : List Obs) (seen : Obs) :
    discipline (trace ++ [seen]) = (discipline trace).observe seen := by
  rw [discipline, List.foldl_append]
  rfl

/-- The state after a switch, as far as the readers see it. -/
structure Switched (s t : Scheduler.State) : Prop where
  linked : ∃ ring, Linked t ring
  created : t.created = s.created
  used : t.used = s.used
  selected : t.ready t.activeProc = true

theorem scheduler_switched (s t : Scheduler.State) (ring : List Ptr) (linked : Linked s ring)
    (taken : scheduler s = some t) : Switched s t ∧ t.ready = s.ready := by
  rcases scheduler_linked s ring linked with ⟨u, ring', done, _, linked', procs, created⟩
  have same : u = t := Option.some.inj (done.symm.trans taken)
  subst same
  have ready : u.ready = s.ready := by
    funext p
    rw [State.ready, State.ready, procs]
  rcases linked_searchOk s ring linked with ⟨v, k, found, _, isReady, _⟩
  have again : u = v := Option.some.inj (done.symm.trans found)
  subst again
  have used : u.used = s.used := by
    rcases Option.map_eq_some_iff.mp done with ⟨p, _, rfl⟩
    rfl
  exact ⟨⟨⟨ring', linked'⟩, created, used, by rw [ready]; exact isReady⟩, ready⟩

theorem block_switched (s t : Scheduler.State) (ring : List Ptr) (linked : Linked s ring)
    (notIdle : s.activeProc ≠ .idleProc) (taken : block s = some t) :
    Switched s t ∧ ∀ q, t.ready q = if q = s.activeProc then false else s.ready q := by
  have marked : Linked (setState s s.activeProc .waiting) ring := by
    apply setState_linked s _ _ ring linked
    rw [setState_ready, if_neg (Ne.symm notIdle)]
    exact linked.idle
  rcases scheduler_switched _ t ring marked taken with ⟨switched, ready⟩
  refine ⟨⟨switched.linked, switched.created, switched.used, switched.selected⟩, ?_⟩
  intro q
  rw [ready, setState_ready]
  rfl

theorem bytes_length (s : State) : s.bytes.length = s.length.toNat := by
  rw [State.bytes, List.length_map, List.length_range]

theorem bytes_push (s t : State) (key : UInt8) (room : s.length.toNat < 255)
    (buffer : t.buffer = Function.update s.buffer s.length key) (length : t.length = s.length + 1) :
    t.bytes = s.bytes ++ [key] := by
  have count : t.length.toNat = s.length.toNat + 1 := by
    rw [length, UInt8.toNat_add]
    exact Nat.mod_eq_of_lt (by simp; omega)
  rw [State.bytes, count, List.range_succ, List.map_append, State.bytes, buffer]
  congr 1
  · apply List.map_congr_left
    intro i member
    have below := List.mem_range.mp member
    apply Function.update_of_ne
    intro same
    have values := congrArg UInt8.toNat same
    rw [UInt8.toNat_ofNat_of_lt' (by simp [UInt8.size]; omega)] at values
    omega
  · simp

theorem bytes_pop (s t : State) (some_key : s.length ≠ 0) (buffer : t.buffer = s.buffer)
    (length : t.length = s.length - 1) : t.bytes = s.bytes.dropLast := by
  have positive : 1 ≤ s.length.toNat := by
    have nonzero : s.length.toNat ≠ 0 := fun zero => some_key (UInt8.toNat_inj.mp zero)
    omega
  have count : t.length.toNat = s.length.toNat - 1 := by
    have atLeast : (1 : UInt8) ≤ s.length := UInt8.le_iff_toNat_le.mpr positive
    rw [length, UInt8.toNat_sub_of_le _ _ atLeast]
    rfl
  rw [State.bytes, State.bytes, count, buffer, ← List.map_dropLast]
  obtain ⟨n, shape⟩ := Nat.exists_eq_add_of_le' positive
  rw [shape, List.range_succ, List.dropLast_concat]
  rfl

/-- The code between two steps, next to what is expected of it. -/
structure Inv (s : State) (d : Discipline) : Prop where
  linked : ∃ ring, Linked s.sched ring
  running : s.panicked = false
  faithful : d.faithful = true
  order : s.queueHead ≤ s.queueTail
  onPage : s.queueTail ≤ QUEUE_SLOTS
  queue : d.waiting = (List.range' s.queueHead (s.queueTail - s.queueHead)).map s.slots
  nodup : d.waiting.Nodup
  waiting : ∀ p, p ∈ d.waiting ↔ s.blocked p
  callers : ∀ p, s.calls p ≠ none → p ∈ s.sched.created
  short : d.line.length < 200
  content : (d.owed = [] ∧ (∀ p, ¬ s.woken p) ∧ s.bytes = d.line) ∨
    ∃ p count, d.owed = [(p, s.bytes)] ∧ (∀ q, s.woken q ↔ q = p) ∧ d.line = [] ∧
      s.calls p = some count ∧ (count = 0 ∨ s.length ≤ count)

theorem inv_delivers (s : State) (inv : Inv s (discipline s.trace)) : Delivers s := by
  refine ⟨inv.running, inv.faithful, inv.waiting, ?_⟩
  intro p
  rcases inv.content with ⟨owed, nobody, _⟩ | ⟨q, count, owed, woken, _, _, _⟩
  · rw [owed]
    simp [nobody p]
  · rw [owed, woken]
    simp

theorem resume_inv (s : State) (inv : Inv s (discipline s.trace))
    (selected : s.sched.ready s.sched.activeProc = true) (room : s.roomToCopy) :
    Inv (resume s) (discipline (resume s).trace) ∧
      (resume s).calls (resume s).sched.activeProc = none := by
  cases calling : s.calls s.sched.activeProc with
  | none =>
      have same : resume s = s := by rw [resume, calling]
      rw [same]
      exact ⟨inv, calling⟩
  | some count =>
      have woken : s.woken s.sched.activeProc := ⟨by rw [calling]; simp, selected⟩
      rcases inv.content with ⟨_, nobody, _⟩ | ⟨p, limit, owed, only, line, call, fits⟩
      · exact absurd woken (nobody _)
      · have reader : s.sched.activeProc = p := (only _).mp woken
        subst reader
        have sameCount : limit = count := Option.some.inj (call.symm.trans calling)
        subst sameCount
        have small : ¬ (s.length > limit ∧ limit ≠ 0) := by
          rintro ⟨large, nonzero⟩
          rcases fits with zero | within
          · exact nonzero zero
          · exact UInt8.not_lt.mpr within large
        rcases room ⟨_, woken⟩ with ⟨page, bound, free⟩
        have result : resume s = { s with
            length := 0
            calls := Function.update s.calls s.sched.activeProc none
            trace := s.trace ++ [.deliver s.sched.activeProc s.bytes] } := by
          rw [resume, calling]
          simp only [small, if_false, memCopy_free _ page bound free]
        have others (q : Ptr) : Function.update s.calls s.sched.activeProc none q ≠ none ↔
            s.calls q ≠ none ∧ q ≠ s.sched.activeProc := by
          by_cases own : q = s.sched.activeProc
          · simp [own]
          · simp [own]
        have handed : (discipline s.trace).observe (.deliver s.sched.activeProc s.bytes) =
            { discipline s.trace with owed := [] } := by
          simp [Discipline.observe, owed]
        rw [result, discipline_snoc, handed]
        refine ⟨{ inv with waiting := ?_, callers := ?_, content := .inl ⟨rfl, ?_, ?_⟩ }, ?_⟩
        · intro q
          rw [State.blocked, others, inv.waiting, State.blocked]
          constructor
          · rintro ⟨called, notReady⟩
            refine ⟨⟨called, ?_⟩, notReady⟩
            rintro rfl
            rw [selected] at notReady
            cases notReady
          · rintro ⟨⟨called, _⟩, notReady⟩
            exact ⟨called, notReady⟩
        · intro q called
          exact inv.callers q ((others q).mp called).1
        · rintro q ⟨called, isReady⟩
          have both := (others q).mp called
          exact both.2 ((only q).mp ⟨both.1, isReady⟩)
        · rw [line]
          rfl
        · exact Function.update_self ..

section Line

/-- `keybuffer`, as far as the line and the queue go. -/
def lineKey (s : State) (key : UInt8) : State :=
  { keybuffer s key with cursor := s.cursor, panicked := s.panicked }

theorem scroll_full (s : State) (full : memCopy s.sched.used = none) :
    scroll s = { s with panicked := true } := by
  unfold scroll
  rw [full]

theorem scroll_page (s : State) (room : ∃ page, page < HEAP_PAGES ∧ s.sched.used page = false) :
    scroll s = { s with cursor := s.cursor - 80 } := by
  rcases room with ⟨page, inside, free⟩
  unfold scroll
  rw [memCopy_free _ page inside free]

theorem scroll_eq (s : State) :
    ∃ cursor panicked, scroll s = { s with cursor := cursor, panicked := panicked } := by
  by_cases room : ∃ page, page < HEAP_PAGES ∧ s.sched.used page = false
  · exact ⟨_, _, scroll_page s room⟩
  · exact ⟨_, _, scroll_full s ((memCopy_none_iff _).mpr room)⟩

theorem setcursor_eq (s : State) (position : UInt16) :
    ∃ cursor panicked, setcursor s position = { s with cursor := cursor, panicked := panicked } := by
  by_cases full : position ≥ 80 * 25
  · rw [setcursor, if_pos full]
    exact scroll_eq { s with cursor := position }
  · rw [setcursor, if_neg full]
    exact ⟨position, s.panicked, rfl⟩

theorem setcursor_line (s : State) (position : UInt16) :
    { setcursor s position with cursor := s.cursor, panicked := s.panicked } = s := by
  rcases setcursor_eq s position with ⟨cursor, panicked, shape⟩
  rw [shape]

theorem setcursor_running (s : State) (position : UInt16) (running : s.panicked = false)
    (room : position ≥ 80 * 25 → ∃ page, page < HEAP_PAGES ∧ s.sched.used page = false) :
    (setcursor s position).panicked = false := by
  by_cases full : position ≥ 80 * 25
  · rw [setcursor, if_pos full, scroll_page { s with cursor := position } (room full)]
    exact running
  · rw [setcursor, if_neg full]
    exact running

theorem lineKey_backspace (s : State) :
    lineKey s 0x08 = if s.length ≠ 0 then { s with length := s.length - 1 } else s := by
  rw [lineKey, keybuffer, if_pos rfl]
  split
  · rfl
  · rfl

theorem lineKey_newline (s : State) :
    lineKey s 0x0A =
      if s.queueHead = s.queueTail then s
      else
        { s with
          buffer := Function.update s.buffer s.length 0
          length := s.length + 1
          sched := unblock s.sched (s.slots s.queueHead)
          queueHead := s.queueHead + 1 } := by
  rw [lineKey, keybuffer, if_neg (by decide), if_pos rfl, completeBuffer]
  split
  · rfl
  · exact setcursor_line { s with
      buffer := Function.update s.buffer s.length 0
      length := s.length + 1
      sched := unblock s.sched (s.slots s.queueHead)
      queueHead := s.queueHead + 1 } _

theorem lineKey_escape (s : State) : lineKey s 0x1B = { s with length := 0 } := by
  rw [lineKey, keybuffer, if_neg (by decide), if_neg (by decide), if_pos rfl]

theorem lineKey_ordinary (s : State) {key : UInt8} (backspace : key ≠ 0x08)
    (newline : key ≠ 0x0A) (escape : key ≠ 0x1B) :
    lineKey s key =
      { s with buffer := Function.update s.buffer s.length key, length := s.length + 1 } := by
  rw [lineKey, keybuffer, if_neg backspace, if_neg newline, if_neg escape]
  exact setcursor_line { s with
    buffer := Function.update s.buffer s.length key, length := s.length + 1 } _

theorem keybuffer_lineKey (s : State) (key : UInt8) :
    keybuffer s key = { lineKey s key with
      cursor := (keybuffer s key).cursor, panicked := (keybuffer s key).panicked } := by
  rw [lineKey]

theorem keybuffer_running (s : State) (key : UInt8) (running : s.panicked = false)
    (room : s.roomToScroll key) : (keybuffer s key).panicked = false := by
  rw [State.roomToScroll, State.scrolls] at room
  rw [keybuffer]
  split
  · split
    · exact running
    · exact running
  · rename_i backspace
    split
    · rename_i newline
      subst newline
      rw [completeBuffer]
      split
      · exact running
      · rename_i waits
        exact setcursor_running _ _ running fun full => room ⟨waits, full⟩
    · rename_i newline
      split
      · exact running
      · rename_i escape
        rw [if_neg (not_or.mpr ⟨backspace, escape⟩), if_neg newline] at room
        exact setcursor_running _ _ running room

end Line

/-- An edit of the line touches nothing else. -/
theorem lineKey_keeps (s : State) (key : UInt8) (notNewline : key ≠ 0x0A) :
    ∃ buffer length, lineKey s key = { s with buffer := buffer, length := length } := by
  by_cases backspace : key = 0x08
  · rw [backspace, lineKey_backspace]
    split
    · exact ⟨s.buffer, _, rfl⟩
    · exact ⟨s.buffer, s.length, rfl⟩
  by_cases escape : key = 0x1B
  · rw [escape, lineKey_escape]
    exact ⟨s.buffer, 0, rfl⟩
  · exact ⟨_, _, lineKey_ordinary s backspace notNewline escape⟩

theorem lineKey_edits (s : State) (key : UInt8) (notNewline : key ≠ 0x0A)
    (room : s.length.toNat < 255) :
    ∃ buffer length, lineKey s key = { s with buffer := buffer, length := length } ∧
      (lineKey s key).bytes = editLine s.bytes key := by
  by_cases backspace : key = 0x08
  · by_cases empty : s.length = 0
    · have nothing : s.bytes = [] := by
        rw [State.bytes, empty]
        rfl
      have same : lineKey s key = s := by
        rw [backspace, lineKey_backspace, if_neg (not_not.mpr empty)]
      refine ⟨s.buffer, s.length, same, ?_⟩
      rw [same, nothing, editLine, if_pos backspace]
      rfl
    · have shape : lineKey s key = { s with length := s.length - 1 } := by
        rw [backspace, lineKey_backspace, if_pos empty]
      refine ⟨s.buffer, s.length - 1, shape, ?_⟩
      rw [editLine, if_pos backspace]
      apply bytes_pop s _ empty
      · rw [shape]
      · rw [shape]
  · by_cases escape : key = 0x1B
    · have shape : lineKey s key = { s with length := 0 } := by rw [escape, lineKey_escape]
      refine ⟨s.buffer, 0, shape, ?_⟩
      rw [shape, editLine, if_neg backspace, if_pos escape]
      rfl
    · have shape := lineKey_ordinary s backspace notNewline escape
      refine ⟨_, _, shape, ?_⟩
      rw [editLine, if_neg backspace, if_neg escape]
      apply bytes_push s _ key room
      · rw [shape]
      · rw [shape]

theorem length_short (s : State) (d : Discipline) (inv : Inv s d) (nobody : ∀ p, ¬ s.woken p) :
    d.owed = [] ∧ s.bytes = d.line ∧ s.length.toNat < 200 := by
  rcases inv.content with ⟨owed, _, bytes⟩ | ⟨p, _, _, only, _, _, _⟩
  · refine ⟨owed, bytes, ?_⟩
    rw [← bytes_length, bytes]
    exact inv.short
  · exact absurd ((only p).mpr rfl) (nobody p)

theorem edit_inv (s : State) (key : UInt8) (inv : Inv s (discipline s.trace))
    (notNewline : key ≠ 0x0A) (nobody : ∀ p, ¬ s.woken p)
    (short : ShortLines s (.key key)) :
    Inv { lineKey s key with trace := s.trace ++ [.key key] }
      (discipline (s.trace ++ [.key key])) := by
  rcases length_short s _ inv nobody with ⟨owed, bytes, room⟩
  rcases lineKey_edits s key notNewline (by omega) with ⟨buffer, length, shape, edited⟩
  have seen : (discipline s.trace).observe (.key key) =
      { discipline s.trace with line := editLine (discipline s.trace).line key } := by
    simp [Discipline.observe, notNewline]
  rw [ShortLines, discipline_snoc, seen] at short
  rw [discipline_snoc, seen]
  rw [shape] at edited ⊢
  refine { inv with short := short, content := .inl ⟨owed, nobody, ?_⟩ }
  rw [← bytes]
  exact edited

theorem newline_inv (s : State) (inv : Inv s (discipline s.trace)) (nobody : ∀ p, ¬ s.woken p)
    (waits : s.queueHead ≠ s.queueTail)
    (fits : ∀ count, s.calls (s.slots s.queueHead) = some count →
      count = 0 ∨ s.length.toNat < count.toNat) :
    Inv { lineKey s 0x0A with trace := s.trace ++ [.key 0x0A] }
      (discipline (s.trace ++ [.key 0x0A])) := by
  rcases length_short s _ inv nobody with ⟨owed, bytes, room⟩
  have order := inv.order
  have onPage := inv.onPage
  obtain ⟨n, more⟩ : ∃ n, s.queueTail - s.queueHead = n + 1 :=
    Nat.exists_eq_succ_of_ne_zero (by omega)
  set first := s.slots s.queueHead with firstShape
  set others := (List.range' (s.queueHead + 1) n).map s.slots with othersShape
  have queue : (discipline s.trace).waiting = first :: others := by
    rw [inv.queue, more, List.range'_succ, List.map_cons]
  have seen : (discipline s.trace).observe (.key 0x0A) =
      { discipline s.trace with
        line := [], waiting := others, owed := [(first, (discipline s.trace).line ++ [0])] } := by
    simp [Discipline.observe, queue, owed]
  have fresh := inv.nodup
  rw [queue, List.nodup_cons] at fresh
  have blocked := (inv.waiting first).mp (by rw [queue]; exact List.mem_cons_self)
  rcases Option.ne_none_iff_exists'.mp blocked.1 with ⟨count, call⟩
  set t : State := { s with
      buffer := Function.update s.buffer s.length 0
      length := s.length + 1
      sched := unblock s.sched first
      queueHead := s.queueHead + 1
      trace := s.trace ++ [.key 0x0A] } with shape
  have result : { lineKey s 0x0A with trace := s.trace ++ [.key 0x0A] } = t := by
    rw [lineKey_newline, if_neg waits]
  have ready (q : Ptr) : t.sched.ready q = if q = first then true else s.sched.ready q := by
    rw [shape, unblock, setState_ready]
    rfl
  have filled : t.bytes = s.bytes ++ [0] := bytes_push s t 0 (by omega) rfl rfl
  rw [result, discipline_snoc, seen]
  refine ⟨?_, inv.running, inv.faithful, ?_, onPage, ?_, fresh.2, ?_, inv.callers, Nat.zero_lt_succ _,
    .inr ⟨first, count, ?_, ?_, rfl, call, ?_⟩⟩
  · rcases inv.linked with ⟨ring, linked⟩
    refine ⟨ring, setState_linked _ _ _ ring linked ?_⟩
    rw [setState_ready]
    split
    · rfl
    · exact linked.idle
  · change s.queueHead + 1 ≤ s.queueTail
    omega
  · change others = (List.range' (s.queueHead + 1) (s.queueTail - (s.queueHead + 1))).map s.slots
    rw [othersShape, show s.queueTail - (s.queueHead + 1) = n by omega]
  · intro q
    rw [State.blocked, ready]
    by_cases own : q = first
    · simp [own, fresh.1]
    · rw [if_neg own]
      have before := inv.waiting q
      rw [queue, List.mem_cons] at before
      exact (or_iff_right own).symm.trans before
  · rw [filled, bytes]
  · intro q
    rw [State.woken, ready]
    by_cases own : q = first
    · simp only [own, if_true, and_true, iff_true]
      exact blocked.1
    · simp only [own, if_false, iff_false]
      exact nobody q
  · rcases fits count call with zero | within
    · exact .inl zero
    · right
      rw [shape, UInt8.le_iff_toNat_le, UInt8.toNat_add]
      have := Nat.mod_le (s.length.toNat + (1 : UInt8).toNat) (2 ^ 8)
      have one : (1 : UInt8).toNat = 1 := rfl
      omega

theorem lineKey_inv (s : State) (key : UInt8) (inv : Inv s (discipline s.trace))
    (short : ShortLines s (.key key)) (undisturbed : Undisturbed s (.key key)) :
    Inv { lineKey s key with trace := s.trace ++ [.key key] }
      (discipline (s.trace ++ [.key key])) := by
  by_cases newline : key = 0x0A
  · subst newline
    by_cases waits : s.queueHead = s.queueTail
    · have nobodyWaits : (discipline s.trace).waiting = [] := by
        rw [inv.queue, waits, Nat.sub_self]
        rfl
      have seen : (discipline s.trace).observe (.key 0x0A) = discipline s.trace := by
        simp [Discipline.observe, nobodyWaits]
      rw [discipline_snoc, seen, lineKey_newline, if_pos waits]
      exact { inv with }
    · rcases undisturbed.2 with ⟨_, empty⟩ | ⟨nobody, fits⟩
      · exact absurd empty waits
      · exact newline_inv s inv nobody waits (fits rfl)
  · rcases undisturbed.2 with ⟨same, _⟩ | ⟨nobody, _⟩
    · exact absurd same newline
    · exact edit_inv s key inv newline nobody short

theorem key_inv (s : State) (key : UInt8) (inv : Inv s (discipline s.trace))
    (short : ShortLines s (.key key)) (undisturbed : Undisturbed s (.key key)) :
    Inv { keybuffer s key with trace := s.trace ++ [.key key] }
      (discipline (s.trace ++ [.key key])) := by
  have line := lineKey_inv s key inv short undisturbed
  have running := keybuffer_running s key inv.running undisturbed.1
  exact { line with running := running }

/-- A change of the scheduler's state that keeps the READY readers READY and the waiting
ones waiting. -/
theorem sched_inv (s : State) (sched : Scheduler.State) (inv : Inv s (discipline s.trace))
    (linked : ∃ ring, Linked sched ring)
    (created : ∀ p ∈ s.sched.created, p ∈ sched.created)
    (ready : ∀ p ∈ s.sched.created, sched.ready p = s.sched.ready p) :
    Inv { s with sched := sched } (discipline s.trace) := by
  have blocked (p : Ptr) : State.blocked { s with sched := sched } p ↔ s.blocked p := by
    apply and_congr_right
    intro called
    rw [ready p (inv.callers p called)]
  have woken (p : Ptr) : State.woken { s with sched := sched } p ↔ s.woken p := by
    apply and_congr_right
    intro called
    rw [ready p (inv.callers p called)]
  refine { inv with linked := linked, waiting := ?_, callers := ?_, content := ?_ }
  · intro p
    rw [blocked]
    exact inv.waiting p
  · intro p called
    exact created p (inv.callers p called)
  · rcases inv.content with ⟨owed, nobody, bytes⟩ | ⟨p, count, owed, only, line, call, fits⟩
    · exact .inl ⟨owed, fun p => (woken p).not.mpr (nobody p), bytes⟩
    · exact .inr ⟨p, count, owed, fun q => (woken q).trans (only q), line, call, fits⟩

theorem scheduler_inv (s t : State) (inv : Inv s (discipline s.trace)) (room : s.roomToCopy)
    (taken : (scheduler s.sched).map (fun sched => resume { s with sched := sched }) = some t) :
    Inv t (discipline t.trace) ∧ t.calls t.sched.activeProc = none := by
  rcases Option.map_eq_some_iff.mp taken with ⟨sched, switch, rfl⟩
  rcases inv.linked with ⟨ring, linked⟩
  rcases scheduler_switched _ sched ring linked switch with ⟨switched, ready⟩
  apply resume_inv
  · apply sched_inv s sched inv switched.linked
    · intro p member
      rw [switched.created]
      exact member
    · intro p _
      rw [ready]
  · exact switched.selected
  · rintro ⟨p, called, isReady⟩
    rw [ready] at isReady
    rcases room ⟨p, called, isReady⟩ with ⟨page, bound, free⟩
    exact ⟨page, bound, by rw [switched.used]; exact free⟩

theorem fork_inv (s : State) (sched : Scheduler.State) (inv : Inv s (discipline s.trace))
    (forked : fork s.sched = some sched) :
    Inv { s with sched := sched } (discipline s.trace) ∧ sched.activeProc = s.sched.activeProc := by
  rcases inv.linked with ⟨ring, linked⟩
  rcases fork_linked _ sched ring linked forked with ⟨x, rest, y, shape, _, linked', ready, active⟩
  have onRing (p : Ptr) (member : p ∈ s.sched.created) : p ∈ ring :=
    (linked.members p).mpr (List.mem_cons_of_mem _ member)
  refine ⟨sched_inv s sched inv ⟨_, linked'⟩ ?_ ?_, active⟩
  · intro p member
    have still : p ∈ x :: y :: rest := by
      have before := onRing p member
      rw [shape] at before
      rcases List.mem_cons.mp before with rfl | inside
      · exact List.mem_cons_self
      · exact List.mem_cons_of_mem _ (List.mem_cons_of_mem _ inside)
    rcases List.mem_cons.mp ((linked'.members p).mp still) with idle | made
    · rcases linked.pages p member with ⟨page, heap, _⟩
      rw [heap] at idle
      cases idle
    · exact made
  · intro p member
    exact ready p (onRing p member)

/-- The reader has queued itself and blocked; the process switched to has not gone on
yet. -/
theorem wait_inv (s : State) (sched : Scheduler.State) (count : UInt8)
    (inv : Inv s (discipline s.trace)) (free : s.calls s.sched.activeProc = none)
    (notIdle : s.sched.activeProc ≠ .idleProc) (onPage : s.queueTail < QUEUE_SLOTS)
    (switched : Switched s.sched sched)
    (ready : ∀ q, sched.ready q = if q = s.sched.activeProc then false else s.sched.ready q) :
    Inv { s with
      slots := Function.update s.slots s.queueTail s.sched.activeProc
      queueTail := s.queueTail + 1
      calls := Function.update s.calls s.sched.activeProc (some count)
      sched := sched
      trace := s.trace ++ [.wait s.sched.activeProc] }
      (discipline (s.trace ++ [.wait s.sched.activeProc])) := by
  have order := inv.order
  set active := s.sched.activeProc with activeShape
  have called (q : Ptr) (other : q ≠ active) :
      Function.update s.calls active (some count) q = s.calls q := Function.update_of_ne other ..
  have outside : active ∉ (discipline s.trace).waiting := by
    rw [inv.waiting]
    exact fun blocked => blocked.1 free
  have notWoken : ¬ s.woken active := fun woken => woken.1 free
  rw [discipline_snoc]
  refine ⟨switched.linked, inv.running, inv.faithful, ?_, onPage, ?_, ?_, ?_, ?_, inv.short, ?_⟩
  · exact order.trans (Nat.le_succ _)
  · change (discipline s.trace).waiting ++ [active] = (List.range' s.queueHead
      (s.queueTail + 1 - s.queueHead)).map (Function.update s.slots s.queueTail active)
    rw [show s.queueTail + 1 - s.queueHead = s.queueTail - s.queueHead + 1 by omega,
      List.range'_concat, List.map_append, inv.queue]
    congr 1
    · apply List.map_congr_left
      intro i member
      have bounds := List.mem_range'_1.mp member
      exact (Function.update_of_ne (by omega) ..).symm
    · rw [show s.queueHead + 1 * (s.queueTail - s.queueHead) = s.queueTail by omega]
      simp
  · exact List.nodup_append.mpr ⟨inv.nodup, List.nodup_singleton _, by
      intro p member q single
      rw [List.mem_singleton.mp single]
      rintro rfl
      exact outside member⟩
  · intro q
    change q ∈ (discipline s.trace).waiting ++ [active] ↔ _
    rw [List.mem_append, List.mem_singleton, State.blocked, ready]
    by_cases own : q = active
    · simp [own]
    · simp only [own, or_false, if_false, called q own]
      exact inv.waiting q
  · intro q queued
    rw [switched.created]
    by_cases own : q = active
    · rcases inv.linked with ⟨ring, linked⟩
      have member := (linked.members active).mp (List.mem_of_head? linked.head)
      rw [own]
      exact (List.mem_cons.mp member).resolve_left notIdle
    · exact inv.callers q (by simpa only [called q own] using queued)
  · have woken (q : Ptr) : (Function.update s.calls active (some count) q ≠ none ∧
        sched.ready q = true) ↔ s.woken q := by
      rw [ready]
      by_cases own : q = active
      · simp [own, notWoken]
      · rw [if_neg own, called q own]
        rfl
    rcases inv.content with ⟨owed, nobody, bytes⟩ | ⟨p, limit, owed, only, line, call, fits⟩
    · exact .inl ⟨owed, fun q => (woken q).not.mpr (nobody q), bytes⟩
    · have other : p ≠ active := fun same => notWoken ((only active).mpr same.symm)
      exact .inr ⟨p, limit, owed, fun q => (woken q).trans (only q), line,
        (called p other).trans call, fits⟩

theorem keybuffer_calls (s : State) (key : UInt8) :
    (keybuffer s key).calls = s.calls ∧
      (keybuffer s key).sched.activeProc = s.sched.activeProc := by
  rw [keybuffer_lineKey]
  by_cases newline : key = 0x0A
  · rw [newline, lineKey_newline]
    split
    · exact ⟨rfl, rfl⟩
    · exact ⟨rfl, rfl⟩
  · rcases lineKey_keeps s key newline with ⟨buffer, length, shape⟩
    rw [shape]
    exact ⟨rfl, rfl⟩

theorem step_inv (s t : State) (event : Event) (inv : Inv s (discipline s.trace))
    (free : s.calls s.sched.activeProc = none) (short : ShortLines s event)
    (undisturbed : Undisturbed s event) (taken : step s event = some t) :
    Inv t (discipline t.trace) ∧ t.calls t.sched.activeProc = none := by
  rw [step, inv.running] at taken
  change act s event = some t at taken
  cases event with
  | key key =>
      rw [act, Option.some.injEq] at taken
      subst t
      rcases keybuffer_calls s key with ⟨calls, active⟩
      refine ⟨key_inv s key inv short undisturbed, ?_⟩
      change (keybuffer s key).calls (keybuffer s key).sched.activeProc = none
      rw [calls, active]
      exact free
  | read count =>
      by_cases idle : s.sched.activeProc = .idleProc
      · simp [act, idle] at taken
      · rw [act, if_neg idle, sendbuffer] at taken
        rcases Option.map_eq_some_iff.mp taken with ⟨sched, switch, rfl⟩
        rcases inv.linked with ⟨ring, linked⟩
        rcases block_switched _ sched ring linked idle switch with ⟨switched, ready⟩
        apply resume_inv
        · exact wait_inv s sched count inv free idle undisturbed.1 switched ready
        · exact switched.selected
        · rintro ⟨p, called, isReady⟩
          have other : p ≠ s.sched.activeProc := by
            rintro rfl
            rw [ready, if_pos rfl] at isReady
            cases isReady
          rw [ready, if_neg other] at isReady
          have before : s.calls p ≠ none := by
            simpa only [Function.update_of_ne other] using called
          rcases undisturbed.2 ⟨p, before, isReady⟩ with ⟨page, bound, unused⟩
          exact ⟨page, bound, by rw [switched.used]; exact unused⟩
  | scheduler =>
      exact scheduler_inv s t inv undisturbed taken
  | fork =>
      rw [act] at taken
      rcases Option.map_eq_some_iff.mp taken with ⟨sched, forked, rfl⟩
      rcases fork_inv s sched inv forked with ⟨inv', active⟩
      exact ⟨inv', by rw [active]; exact free⟩
  | screen cursor =>
      rw [act, Option.some.injEq] at taken
      subst t
      exact ⟨{ inv with }, free⟩
  | other slot p =>
      by_cases onPage : slot < QUEUE_SLOTS
      · simp [act, onPage] at taken
      · rw [act, if_neg onPage, Option.some.injEq] at taken
        subst t
        refine ⟨{ inv with queue := ?_ }, free⟩
        rw [inv.queue]
        apply List.map_congr_left
        intro i member
        have bounds := List.mem_range'_1.mp member
        have tail := inv.onPage
        exact (Function.update_of_ne (by omega) ..).symm

theorem initTerminal_inv (used : Kheap) (sched : Scheduler.State) (buffer : UInt8 → UInt8)
    (slots : Nat → Ptr) (start : initScheduler used = some sched) :
    Inv (initTerminal sched buffer slots) (discipline (initTerminal sched buffer slots).trace) where
  linked := initScheduler_linked used sched start
  running := rfl
  faithful := rfl
  order := le_rfl
  onPage := Nat.zero_le _
  queue := rfl
  nodup := .nil
  waiting := fun p => by simp [initTerminal, State.blocked, discipline]
  callers := fun p called => absurd rfl called
  short := Nat.zero_lt_succ _
  content := .inl ⟨rfl, fun p woken => woken.1 rfl, rfl⟩

/-- In every run of keys, reads, switches and forks in which no key falls between a
completed line and the copy of it, the readers get the lines they are owed. -/
theorem undisturbed_run_delivers (used : Kheap) (sched : Scheduler.State)
    (buffer : UInt8 → UInt8) (slots : Nat → Ptr) (s : State)
    (start : initScheduler used = some sched)
    (run : Run step Orderly (initTerminal sched buffer slots) s) : Delivers s := by
  have settled : Inv s (discipline s.trace) ∧ s.calls s.sched.activeProc = none := by
    apply run.invariant (fun s => Inv s (discipline s.trace) ∧ s.calls s.sched.activeProc = none)
    · exact ⟨initTerminal_inv used sched buffer slots start, rfl⟩
    · rintro t event u ⟨inv, free⟩ ⟨short, undisturbed⟩ taken
      exact step_inv t u event inv free short undisturbed taken
  exact inv_delivers s settled.1

def sampleTerminal : State :=
  initTerminal (sampleState false .ready .idleProc .idleProc 0) (fun _ => 0) fun _ => .idleProc

theorem nobody_woken (s : State) (delivers : Delivers s) (owed : (discipline s.trace).owed = []) :
    ∀ p, ¬ s.woken p := by
  intro p woken
  have member := (delivers.owed p).mpr woken
  rw [owed] at member
  cases member

theorem one_line_delivered :
    ∃ s, Run step Orderly sampleTerminal s ∧ Obs.deliver (.heap 0) [97, 0] ∈ s.trace ∧
      Delivers s := by
  have delivers (s : State) (run : Run step Orderly sampleTerminal s) : Delivers s :=
    undisturbed_run_delivers (.low 0) _ (fun _ => 0) (fun _ => .idleProc) s initScheduler_sample run
  have run1 : Run step Orderly sampleTerminal _ :=
    Run.refl.next .scheduler ⟨trivial, fun ⟨p, woken⟩ => absurd rfl woken.1⟩ (by decide +kernel)
  have nobody1 := nobody_woken _ (delivers _ run1) (by decide +kernel)
  have run2 := run1.next (Event.read 0)
    ⟨trivial, by decide +kernel, fun ⟨p, woken⟩ => absurd woken (nobody1 p)⟩ (by decide +kernel)
  have nobody2 := nobody_woken _ (delivers _ run2) (by decide +kernel)
  have run3 := run2.next (Event.key 97)
    ⟨by rw [ShortLines]; decide +kernel, fun _ => ⟨5, by decide, by decide +kernel⟩,
      .inr ⟨nobody2, fun newline => absurd newline (by decide)⟩⟩
    (by decide +kernel)
  have nobody3 := nobody_woken _ (delivers _ run3) (by decide +kernel)
  have run4 := run3.next (Event.key 0x0A)
    ⟨by rw [ShortLines]; decide +kernel, fun _ => ⟨5, by decide, by decide +kernel⟩,
      .inr ⟨nobody3, fun _ count call => .inl ?_⟩⟩
    (by decide +kernel)
  · have run5 := run4.next Event.scheduler
      ⟨trivial, fun _ => ⟨5, by decide, by decide +kernel⟩⟩ (by decide +kernel)
    exact ⟨_, run5, by decide +kernel, delivers _ run5⟩
  · exact Option.some.inj (call.symm.trans (by decide +kernel))

/-- Init reads, `a` and newline are typed, and `b` before init has run: it gets all
three bytes. -/
theorem late_key_merged :
    ¬ ∀ (used : Kheap) (sched : Scheduler.State) (buffer : UInt8 → UInt8) (slots : Nat → Ptr)
      (s : State), initScheduler used = some sched →
        Run step ShortLines (initTerminal sched buffer slots) s → Delivers s := by
  intro claim
  have run1 : Run step ShortLines sampleTerminal _ :=
    Run.refl.next .scheduler trivial (by decide +kernel)
  have run2 := run1.next (Event.read 0) trivial (by decide +kernel)
  have run3 := run2.next (Event.key 97) (by rw [ShortLines]; decide +kernel) (by decide +kernel)
  have run4 := run3.next (Event.key 0x0A) (by rw [ShortLines]; decide +kernel) (by decide +kernel)
  have run5 := run4.next (Event.key 98) (by rw [ShortLines]; decide +kernel) (by decide +kernel)
  have run6 := run5.next Event.scheduler trivial (by decide +kernel)
  have delivers := claim (.low 0) _ _ _ _ initScheduler_sample run6
  exact absurd delivers.faithful (by decide +kernel)

end TitorOS.Barrel.Terminal
