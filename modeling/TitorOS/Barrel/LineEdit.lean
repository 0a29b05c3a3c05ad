import TitorOS.Barrel.Devfs
import TitorOS.Barrel.Terminal

/-! One line typed for one waiting reader, from its `read` of `/dev/tty` to the copy in
`sendbuffer`. The count passes through a byte on the way, and so does the length of
the line. -/

namespace TitorOS.Barrel.Terminal

open TitorOS.Lib TitorOS.Barrel.Scheduler

/-- The node "tty" that `dev_enum` makes. -/
def ttyNode (dirents : Nat) : Vnode :=
  { name := "tty".toList
    flags := 0
    size := 0
    fs := .devfs
    inode := 0
    fsInstance := 0
    dirents := dirents }

/-- Process `p` is the only one that waits in `sendbuffer`, and the line is empty. -/
structure OneReader (s : State) (p : Ptr) (count : UInt8) : Prop where
  running : s.panicked = false
  tail : s.queueTail = s.queueHead + 1
  slot : s.slots s.queueHead = p
  call : s.calls p = some count
  empty : s.length = 0

instance (s : State) (p : Ptr) (count : UInt8) : Decidable (OneReader s p count) :=
  decidable_of_iff (s.panicked = false ∧ s.queueTail = s.queueHead + 1 ∧
      s.slots s.queueHead = p ∧ s.calls p = some count ∧ s.length = 0)
    ⟨fun ⟨running, tail, slot, call, empty⟩ => ⟨running, tail, slot, call, empty⟩,
      fun reader => ⟨reader.running, reader.tail, reader.slot, reader.call, reader.empty⟩⟩

/-- Whether the screen scrolls is left out (`keybuffer_typed`): a heap that is full while the line is
typed is full at the switch. -/
def typed (s : State) (keys : List UInt8) : State := keys.foldl lineKey s

def edited (keys : List UInt8) : List UInt8 := keys.foldl editLine []

def switched (s : State) (sched : Scheduler.State) : State := resume { s with sched := sched }

/-- The newline makes the reader READY, and when it is switched to it receives the edited
line with a NUL if that fits the count of its `read`. Otherwise the kernel panics, whatever
pages are left for the copy. -/
structure LineServed (s : State) (p : Ptr) (c : UInt32) (keys : List UInt8)
    (sched : Scheduler.State) : Prop where
  woken : (typed s (keys ++ [0x0A])).sched.ready p = true
  served : c = 0 ∨ (edited keys).length + 1 ≤ c.toNat →
    (switched (typed s (keys ++ [0x0A])) sched).panicked = false ∧
      (switched (typed s (keys ++ [0x0A])) sched).trace =
        s.trace ++ [.deliver p (edited keys ++ [0])]
  oversized : c ≠ 0 → c.toNat ≤ (edited keys).length →
    ∀ used, (switched (typed s (keys ++ [0x0A])) { sched with used := used }).panicked = true

/-- Counting the keys of the line in a byte. -/
def countKey (n : Nat) (key : UInt8) : Nat :=
  if key = 0x08 then n - 1 else if key = 0x1B then 0 else (n + 1) % 256

def counted (keys : List UInt8) : Nat := keys.foldl countKey 0

/-- A line that fits the count has fewer than 255 keys, was not longer than a byte counts
before, still fits the low byte of the count, and a page is free for the copy; one that does not
fit is also too long for the low byte of the count. -/
def Narrow (c : UInt32) (keys : List UInt8) (used : Kheap) : Prop :=
  (c = 0 ∨ (edited keys).length + 1 ≤ c.toNat →
      counted keys = (edited keys).length ∧ (edited keys).length < 255 ∧
        (c.toNat % 256 = 0 ∨ (edited keys).length + 1 ≤ c.toNat % 256) ∧
          ∃ page < HEAP_PAGES, used page = false) ∧
    (c ≠ 0 → c.toNat ≤ (edited keys).length →
      c.toNat % 256 ≠ 0 ∧ c.toNat % 256 < (counted keys + 1) % 256)

theorem readDevice_tty {parts : Nat → UInt32} {fd : Fd} {dirents : Nat} {c : UInt32} {call : DevCall}
    (called : readDevice parts fd (ttyNode dirents) c = some call) :
    call = .sendbuffer c.toUInt8 := by
  obtain ⟨request, accepted, device⟩ := Option.bind_eq_some_iff.mp called
  have count : request.2.1 = c := by
    rw [read] at accepted
    split at accepted
    · cases accepted
    split at accepted
    · cases accepted
    split at accepted
    · cases accepted
    · obtain ⟨func, _, rfl⟩ := Option.map_eq_some_iff.mp accepted
      rfl
  split at device
  · have named : (ttyNode dirents).name = "tty".toList := rfl
    rw [devRead, if_pos named, count] at device
    exact (Option.some.inj device).symm
  · cases device

theorem edited_snoc (keys : List UInt8) (key : UInt8) :
    edited (keys ++ [key]) = editLine (edited keys) key := List.foldl_concat ..

theorem counted_snoc (keys : List UInt8) (key : UInt8) :
    counted (keys ++ [key]) = countKey (counted keys) key := List.foldl_concat ..

theorem typed_snoc (s : State) (keys : List UInt8) (key : UInt8) :
    typed s (keys ++ [key]) = lineKey (typed s keys) key := List.foldl_concat ..

theorem lineKey_cursor (s : State) (cursor : UInt16) (key : UInt8) :
    lineKey { s with cursor := cursor } key = { lineKey s key with cursor := cursor } := by
  by_cases backspace : key = 0x08
  · rw [backspace, lineKey_backspace, lineKey_backspace]
    split
    · rfl
    · rfl
  by_cases newline : key = 0x0A
  · rw [newline, lineKey_newline, lineKey_newline]
    split
    · rfl
    · rfl
  by_cases escape : key = 0x1B
  · rw [escape, lineKey_escape, lineKey_escape]
  · rw [lineKey_ordinary _ backspace newline escape, lineKey_ordinary _ backspace newline escape]

theorem typed_cursor (s : State) (cursor : UInt16) (keys : List UInt8) :
    typed { s with cursor := cursor } keys = { typed s keys with cursor := cursor } := by
  induction keys generalizing s with
  | nil => rfl
  | cons key keys ih =>
      have onward := ih (lineKey s key)
      rwa [← lineKey_cursor] at onward

theorem keybuffer_used (s : State) (key : UInt8) :
    (keybuffer s key).sched.used = s.sched.used := by
  rw [keybuffer_lineKey]
  by_cases newline : key = 0x0A
  · rw [newline, lineKey_newline]
    split
    · rfl
    · rfl
  · rcases lineKey_keeps s key newline with ⟨buffer, length, shape⟩
    rw [shape]

/-- With a page for `scroll`, `keybuffer` goes on and only moves the cursor besides. -/
theorem keybuffer_typed (s : State) (keys : List UInt8) (running : s.panicked = false)
    (room : ∃ page, page < HEAP_PAGES ∧ s.sched.used page = false) :
    ∃ cursor, keys.foldl keybuffer s = { typed s keys with cursor := cursor } := by
  induction keys generalizing s with
  | nil => exact ⟨s.cursor, rfl⟩
  | cons key keys ih =>
      have still := keybuffer_running s key running fun _ => room
      have same := keybuffer_used s key
      rcases ih (keybuffer s key) still (same.symm ▸ room) with ⟨cursor, rest⟩
      have moved : keybuffer s key = { lineKey s key with cursor := (keybuffer s key).cursor } := by
        have shape := keybuffer_lineKey s key
        have before : (lineKey s key).panicked = false := running
        rwa [still, ← before] at shape
      rw [moved, typed_cursor] at rest
      refine ⟨cursor, ?_⟩
      rw [List.foldl_cons, moved, rest]
      rfl

/-- The buffer against the line that the user sees: it counts no more keys, and where it
counts as many it holds them. -/
structure Tracks (s t : State) (keys : List UInt8) : Prop where
  same : ∃ buffer length, t = { s with buffer := buffer, length := length }
  counter : t.length.toNat = counted keys
  within : counted keys ≤ (edited keys).length
  content : counted keys = (edited keys).length → t.bytes = edited keys

theorem bytes_nil {t : State} (zero : t.length = 0) : t.bytes = [] := by
  rw [State.bytes, zero]
  rfl

theorem Tracks.backspace {s t : State} {keys : List UInt8} (tracks : Tracks s t keys) :
    Tracks s (lineKey t 0x08) (keys ++ [0x08]) := by
  obtain ⟨⟨buffer, length, shape⟩, counter, within, content⟩ := tracks
  have line : edited (keys ++ [0x08]) = (edited keys).dropLast := edited_snoc keys 0x08
  have count : counted (keys ++ [0x08]) = counted keys - 1 := counted_snoc keys 0x08
  have less : (edited (keys ++ [0x08])).length = (edited keys).length - 1 := by
    rw [line, List.length_dropLast]
  by_cases empty : t.length = 0
  · have zero : counted keys = 0 := by
      rw [← counter, empty]
      rfl
    have same : lineKey t 0x08 = t := by rw [lineKey_backspace, if_neg (not_not.mpr empty)]
    rw [same]
    refine ⟨⟨buffer, length, shape⟩, by omega, by omega, ?_⟩
    intro level
    rw [bytes_nil empty, List.length_eq_zero_iff.mp (by omega : (edited (keys ++ [0x08])).length = 0)]
  · have next : lineKey t 0x08 = { t with length := t.length - 1 } := by
      rw [lineKey_backspace, if_pos empty]
    have positive : t.length.toNat ≠ 0 := fun zero => empty (UInt8.toNat_inj.mp zero)
    have fewer : (lineKey t 0x08).length.toNat = t.length.toNat - 1 := by
      have one : (1 : UInt8) ≤ t.length :=
        UInt8.le_iff_toNat_le.mpr (Nat.one_le_iff_ne_zero.mpr positive)
      rw [next, UInt8.toNat_sub_of_le _ _ one]
      rfl
    refine ⟨⟨t.buffer, t.length - 1, by rw [next, shape]⟩, by omega, by omega, ?_⟩
    intro level
    have popped := bytes_pop t (lineKey t 0x08) empty (by rw [next]) (by rw [next])
    rw [popped, content (by omega), line]

theorem Tracks.escape {s t : State} {keys : List UInt8} (tracks : Tracks s t keys) :
    Tracks s (lineKey t 0x1B) (keys ++ [0x1B]) := by
  obtain ⟨⟨buffer, length, shape⟩, -, -, -⟩ := tracks
  have line : edited (keys ++ [0x1B]) = [] := edited_snoc keys 0x1B
  have count : counted (keys ++ [0x1B]) = 0 := counted_snoc keys 0x1B
  rw [lineKey_escape]
  refine ⟨⟨t.buffer, 0, by rw [shape]⟩, by rw [count]; rfl, by omega, ?_⟩
  intro _
  rw [line]
  exact bytes_nil rfl

theorem Tracks.ordinary {s t : State} {keys : List UInt8} {key : UInt8} (tracks : Tracks s t keys)
    (backspace : key ≠ 0x08) (newline : key ≠ 0x0A) (escape : key ≠ 0x1B) :
    Tracks s (lineKey t key) (keys ++ [key]) := by
  obtain ⟨⟨buffer, length, shape⟩, counter, within, content⟩ := tracks
  have line : edited (keys ++ [key]) = edited keys ++ [key] := by
    rw [edited_snoc, editLine, if_neg backspace, if_neg escape]
  have count : counted (keys ++ [key]) = (counted keys + 1) % 256 := by
    rw [counted_snoc, countKey, if_neg backspace, if_neg escape]
  have more : (edited (keys ++ [key])).length = (edited keys).length + 1 := by
    rw [line, List.length_append, List.length_singleton]
  have next := lineKey_ordinary t backspace newline escape
  have added : (lineKey t key).length.toNat = (t.length.toNat + 1) % 256 := by
    rw [next]
    exact UInt8.toNat_add ..
  have bound := t.length.toNat_lt
  refine ⟨⟨Function.update t.buffer t.length key, t.length + 1, by rw [next, shape]⟩, by omega,
    by omega, ?_⟩
  intro level
  have pushed := bytes_push t (lineKey t key) key (by omega) (by rw [next]) (by rw [next])
  rw [pushed, content (by omega), line]

theorem typed_tracks (s : State) (keys : List UInt8) (empty : s.length = 0)
    (noNewline : ∀ key ∈ keys, key ≠ 0x0A) : Tracks s (typed s keys) keys := by
  induction keys using List.reverseRecOn with
  | nil =>
      refine ⟨⟨s.buffer, s.length, rfl⟩, ?_, Nat.le_refl 0, fun _ => bytes_nil empty⟩
      change s.length.toNat = 0
      rw [empty]
      rfl
  | append_singleton keys key ih =>
      have before := ih fun earlier member => noNewline earlier (List.mem_append_left _ member)
      have newline := noNewline key (List.mem_append_right _ (List.mem_singleton_self key))
      rw [typed_snoc]
      by_cases backspace : key = 0x08
      · subst backspace
        exact before.backspace
      by_cases escape : key = 0x1B
      · subst escape
        exact before.escape
      exact before.ordinary backspace newline escape

theorem newline_completes {s : State} {p : Ptr} {count : UInt8} (reader : OneReader s p count)
    {keys : List UInt8} (noNewline : ∀ key ∈ keys, key ≠ 0x0A) :
    ∃ buffer length, typed s (keys ++ [0x0A]) = { s with
        buffer := buffer
        length := length
        sched := unblock s.sched p
        queueHead := s.queueHead + 1 } ∧
      length.toNat = (counted keys + 1) % 256 ∧
      (counted keys = (edited keys).length → (edited keys).length < 255 →
        (typed s (keys ++ [0x0A])).bytes = edited keys ++ [0]) := by
  obtain ⟨⟨buffer, length, shape⟩, counter, within, content⟩ :=
    typed_tracks s keys reader.empty noNewline
  have queued : (typed s keys).queueHead ≠ (typed s keys).queueTail := by
    rw [shape]
    change s.queueHead ≠ s.queueTail
    rw [reader.tail]
    omega
  have complete := (typed_snoc s keys 0x0A).trans (lineKey_newline (typed s keys))
  have slot : (typed s keys).slots (typed s keys).queueHead = p := by
    rw [shape]
    exact reader.slot
  refine ⟨Function.update (typed s keys).buffer (typed s keys).length 0,
    (typed s keys).length + 1, ?_, ?_, ?_⟩
  · rw [complete, if_neg queued, slot, shape]
  · rw [UInt8.toNat_add, counter]
    rfl
  · intro level short
    have pushed := bytes_push (typed s keys) (typed s (keys ++ [0x0A])) 0 (by omega)
      (by rw [complete, if_neg queued]) (by rw [complete, if_neg queued])
    rw [pushed, content level]

theorem resume_panics_iff {s : State} {count : UInt8}
    (call : s.calls s.sched.activeProc = some count) (running : s.panicked = false) :
    (resume s).panicked = true ↔
      (count < s.length ∧ count ≠ 0) ∨ memCopy s.sched.used = none := by
  rw [resume, call]
  by_cases large : s.length > count ∧ count ≠ 0
  · simp [large]
  · cases copy : memCopy s.sched.used with
    | none => simp [large]
    | some used => simp [large, running]

theorem resume_delivers {s : State} {count : UInt8}
    (call : s.calls s.sched.activeProc = some count) (fine : (resume s).panicked = false) :
    (resume s).trace = s.trace ++ [.deliver s.sched.activeProc s.bytes] := by
  rw [resume, call] at fine ⊢
  by_cases large : s.length > count ∧ count ≠ 0
  · simp [large] at fine
  · cases copy : memCopy s.sched.used with
    | none => simp [large, copy] at fine
    | some used => simp [large]

/-- For every state in which one reader waits, every count and all keys: the line is served
as the user typed it exactly when the bytes that the kernel counts in are wide enough. -/
theorem lineServed_iff (parts : Nat → UInt32) (fd : Fd) (dirents : Nat) (c : UInt32) (count : UInt8)
    (s : State) (p : Ptr) (keys : List UInt8) (sched : Scheduler.State)
    (called : readDevice parts fd (ttyNode dirents) c = some (.sendbuffer count))
    (reader : OneReader s p count) (noNewline : ∀ key ∈ keys, key ≠ 0x0A)
    (active : sched.activeProc = p) :
    LineServed s p c keys sched ↔ Narrow c keys sched.used := by
  have low : count = c.toUInt8 := DevCall.sendbuffer.inj (readDevice_tty called)
  have limit : count.toNat = c.toNat % 256 := by
    rw [low]
    exact UInt32.toNat_toUInt8 c
  have nonzero : count ≠ 0 ↔ c.toNat % 256 ≠ 0 := by
    rw [Ne, ← UInt8.toNat_inj, limit]
    rfl
  have tracked := typed_tracks s keys reader.empty noNewline
  have bound := (typed s keys).length.toNat_lt
  rw [tracked.counter] at bound
  have within := tracked.within
  obtain ⟨buffer, length, shape, counter, content⟩ := newline_completes reader noNewline
  have call (sched : Scheduler.State) (active : sched.activeProc = p) :
      ({ typed s (keys ++ [0x0A]) with sched := sched } : State).calls sched.activeProc =
        some count := by
    rw [shape, active]
    exact reader.call
  have panics (sched : Scheduler.State) (active : sched.activeProc = p) :
      (switched (typed s (keys ++ [0x0A])) sched).panicked = true ↔
        (c.toNat % 256 < (counted keys + 1) % 256 ∧ c.toNat % 256 ≠ 0) ∨
          memCopy sched.used = none := by
    have fresh : ({ typed s (keys ++ [0x0A]) with sched := sched } : State).panicked = false := by
      rw [shape]
      exact reader.running
    have size : ({ typed s (keys ++ [0x0A]) with sched := sched } : State).length = length := by
      rw [shape]
    rw [switched, resume_panics_iff (call sched active) fresh, size, nonzero,
      UInt8.lt_iff_toNat_lt, limit, counter]
  have delivered (fine : (switched (typed s (keys ++ [0x0A])) sched).panicked = false) :
      (switched (typed s (keys ++ [0x0A])) sched).trace =
        s.trace ++ [.deliver p (typed s (keys ++ [0x0A])).bytes] := by
    have handed := resume_delivers (call sched active) fine
    have before : ({ typed s (keys ++ [0x0A]) with sched := sched } : State).trace = s.trace := by
      rw [shape]
    rw [before] at handed
    rw [← active]
    exact handed
  have size : (typed s (keys ++ [0x0A])).bytes.length = (counted keys + 1) % 256 := by
    rw [bytes_length, ← counter, shape]
  constructor
  · intro ⟨_, served, oversized⟩
    refine ⟨?_, ?_⟩
    · intro fits
      obtain ⟨fine, trace⟩ := served fits
      have passed := (panics sched active).not.mp (by rw [fine]; decide)
      rw [not_or, memCopy_none_iff, not_not] at passed
      rw [delivered fine] at trace
      have same : (typed s (keys ++ [0x0A])).bytes = edited keys ++ [0] := by
        have last := List.append_cancel_left trace
        simpa using last
      rw [same, List.length_append, List.length_singleton] at size
      exact ⟨by omega, by omega, by omega, passed.2⟩
    · intro limited long
      have failed := oversized limited long fun _ => false
      rcases (panics { sched with used := fun _ => false } active).mp failed with large | full
      · exact ⟨large.2, large.1⟩
      · rw [memCopy_none_iff] at full
        exact absurd ⟨0, by decide, rfl⟩ full
  · intro ⟨fits, long⟩
    refine ⟨?_, ?_, ?_⟩
    · rw [shape]
      change (unblock s.sched p).ready p = true
      rw [unblock, setState_ready, if_pos rfl]
      rfl
    · intro served
      obtain ⟨level, short, low, page⟩ := fits served
      have fine : (switched (typed s (keys ++ [0x0A])) sched).panicked = false := by
        rw [Bool.eq_false_iff, Ne, panics sched active, not_or, memCopy_none_iff, not_not]
        exact ⟨by omega, page⟩
      exact ⟨fine, by rw [delivered fine, content level short]⟩
    · intro limited large used
      obtain ⟨positive, above⟩ := long limited large
      exact (panics { sched with used := used } active).mpr (.inl ⟨above, positive⟩)

def oneReader (count : UInt8) : Option State :=
  runList step sampleTerminal [.scheduler, .read count]

def readerSwitched (s : State) : Scheduler.State := { s.sched with activeProc := .heap 0 }

theorem short_line_served :
    ∃ s, oneReader 100 = some s ∧
      LineServed s (.heap 0) 100 [97, 98, 8, 99] (readerSwitched s) := by
  have waits : ((oneReader 100).map fun s =>
      decide (OneReader s (.heap 0) 100 ∧ s.sched.used 100 = false)) = some true := by
    decide +kernel
  obtain ⟨s, ran, holds⟩ := Option.map_eq_some_iff.mp waits
  obtain ⟨reader, free⟩ := of_decide_eq_true holds
  refine ⟨s, ran, (lineServed_iff (fun _ => 0) ⟨.dirent 1 2, 1, 0⟩ 4 100 100 s (.heap 0)
    [97, 98, 8, 99] (readerSwitched s) (by decide) reader (by simp) rfl).mpr
    ⟨fun _ => ⟨by decide, by decide, by decide, 100, by decide, free⟩, fun _ => by decide⟩⟩

theorem wide_count_panics :
    ¬ ∀ (parts : Nat → UInt32) (fd : Fd) (dirents : Nat) (c : UInt32) (count : UInt8) (s : State)
      (p : Ptr) (keys : List UInt8) (sched : Scheduler.State),
        readDevice parts fd (ttyNode dirents) c = some (.sendbuffer count) →
          OneReader s p count → (∀ key ∈ keys, key ≠ 0x0A) → sched.activeProc = p →
            (∃ page < HEAP_PAGES, sched.used page = false) → LineServed s p c keys sched := by
  intro claim
  have waits : ((oneReader 1).map fun s =>
      decide (OneReader s (.heap 0) 1 ∧ s.sched.used 100 = false ∧
        (switched (typed s ([97] ++ [0x0A])) (readerSwitched s)).panicked = true)) =
          some true := by
    decide +kernel
  obtain ⟨s, ran, holds⟩ := Option.map_eq_some_iff.mp waits
  obtain ⟨reader, free, panics⟩ := of_decide_eq_true holds
  have line := claim (fun _ => 0) ⟨.dirent 1 2, 1, 0⟩ 4 257 1 s (.heap 0) [97] (readerSwitched s)
    (by decide) reader (by simp) rfl ⟨100, by decide, free⟩
  have fine := (line.served (.inr (by decide))).1
  rw [panics] at fine
  cases fine

end TitorOS.Barrel.Terminal
