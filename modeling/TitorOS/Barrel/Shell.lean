import TitorOS.Barrel.Keyboard
import TitorOS.Barrel.Strings

/-! `user/shell.c`: what it prints when it starts, and its main loop, from the scancodes of a line to
the answer on the screen. -/

namespace TitorOS.Barrel.Shell

open TitorOS.Lib TitorOS.Barrel.Printf TitorOS.Barrel.Strtok

def ascii (text : String) : List UInt8 := text.toList.map fun c => .ofNat c.toNat

/-- Where the compiler has put the string literals that are printed or compared with. -/
structure Literals where
  contents : Nat
  test : Nat
  capital : Nat
  lowercase : Nat
  unsigned : Nat
  character : Nat
  string : Nat
  wooyeah : Nat
  child : Nat
  parent : Nat
  prompt : Nat
  space : Nat
  word : Nat
  complaint : Nat
  newline : Nat

def SPACE : UInt8 := 0x20
def PROMPT : List UInt8 := ascii "shell>"
def ECHO : List UInt8 := ascii "echo"

/-- The literals with their texts. -/
def Literals.texts (lit : Literals) : List (Nat × List UInt8) :=
  [(lit.contents, ascii "The written string was: %s\n"), (lit.test, ascii "PRINTF TEST\n"),
    (lit.capital, ascii "capital hex: %X\n"), (lit.lowercase, ascii "lowercase hex: %x\n"),
    (lit.unsigned, ascii "unsigned decimal: %u\n"), (lit.character, ascii "character: %c\n"),
    (lit.string, ascii "string: %s\n\n"), (lit.wooyeah, ascii "wooyeah"),
    (lit.child, ascii "I am the child of a fork"),
    (lit.parent, ascii "I am the parent and I am still a shell\n"), (lit.prompt, PROMPT),
    (lit.space, [SPACE]), (lit.word, ECHO), (lit.complaint, ascii "unrecognized command \"%s\"\n"),
    (lit.newline, [0x0A])]

/-- The libc of the process: the static variables of `strtok` with memory, the heap, and what has
been given to `write` for the screen. -/
structure State extends Strtok.State where
  heap : Malloc.Mem
  written : List UInt8

def State.printf (s : State) (string : Nat) (args : Nat → UInt32) : Option State :=
  (Printf.printf s.heap s.mem string args).map fun outcome =>
    { s with heap := outcome.heap, mem := outcome.mem, written := s.written ++ outcome.written.flatten }

def State.strtok (s : State) (str delim : Nat) : Option (State × Nat) :=
  (Strtok.strtok s.toState str delim).map fun r => ({ s with toState := r.1 }, r.2)

/-- The arguments of a call with one behind the format; `stack` is what lies behind those that are
passed. -/
def passing (arg : UInt32) (stack : Nat → UInt32) : Nat → UInt32 :=
  fun n => if n = 0 then arg else stack n

def echoLoop (lit : Literals) (stack : Nat → UInt32) : Nat → State → Nat → Option State
  | 0, _, _ => none
  | fuel + 1, s, token =>
      if token ≠ NULL then do
        let s ← s.printf token stack
        let s ← s.printf lit.space stack
        let (s, token) ← s.strtok NULL lit.space
        echoLoop lit stack fuel s token
      else s.printf lit.newline stack

def echo (lit : Literals) (stack : Nat → UInt32) (s : State) : Option State := do
  let (s, token) ← s.strtok NULL lit.space
  echoLoop lit stack (2 ^ 32) s token

/-- The body of the loop; `line` are the bytes that `read` puts into `command`. -/
def round (lit : Literals) (stack : Nat → UInt32) (command : Nat) (s : State) (line : List UInt8) :
    Option State := do
  let s ← s.printf lit.prompt stack
  let s := { s with mem := storeList command line s.mem }
  let (s, token) ← s.strtok command lit.space
  if token = NULL then return s
  else
    let order ← Strings.strcmp s.mem token lit.word
    if order = 0 then echo lit stack s
    else s.printf lit.complaint (passing (.ofNat token) stack)

def rounds (lit : Literals) (stack : Nat → UInt32) (command : Nat) :
    List (List UInt8) → State → Option State
  | [], s => some s
  | line :: rest, s => do
      let s ← round lit stack command s line
      rounds lit stack command rest s

/-- The calls under `PRINTF TEST`. -/
def printfTest (lit : Literals) (stack : Nat → UInt32) (s : State) : Option State := do
  let s ← s.printf lit.test stack
  let s ← s.printf lit.capital (passing 0x1234abcd stack)
  let s ← s.printf lit.lowercase (passing 0xabcd1234 stack)
  let s ← s.printf lit.unsigned (passing 123456789 stack)
  let s ← s.printf lit.character (passing 0x23 stack)
  s.printf lit.string (passing (.ofNat lit.wooyeah) stack)

/-- `main` after `init_libc`. `file` are the bytes that the first `read` puts into `command`, `pid`
is what `fork` returns, and `lines` have been read so far. In the child `exec` does not return. -/
def main (lit : Literals) (stack : Nat → UInt32) (file : List UInt8) (pid : UInt32)
    (lines : List (List UInt8)) (s : State) : Option State := do
  let (heap, command) ← Malloc.malloc (Malloc.initLibc s.heap) 100
  let s := { s with heap := heap, mem := storeList command.toNat file s.mem }
  let s ← s.printf lit.contents (passing command stack)
  let s ← printfTest lit stack s
  if pid = 0 then s.printf lit.child stack
  else
    let s ← s.printf lit.parent stack
    rounds lit stack command.toNat lines s

/-! What a user sees. -/

def words (line : List UInt8) : List (List UInt8) := (line.splitOn SPACE).filter (· ≠ [])

def answer (line : List UInt8) : List UInt8 :=
  match words line with
  | [] => []
  | first :: rest =>
      if first = ECHO then rest.flatMap (· ++ [SPACE]) ++ [0x0A]
      else ascii "unrecognized command \"" ++ first ++ ascii "\"\n"

def testText : List UInt8 :=
  ascii "PRINTF TEST\ncapital hex: 0x1234ABCD\nlowercase hex: 0xabcd1234\n" ++
    ascii "unsigned decimal: 123456789\ncharacter: #\nstring: wooyeah\n\n"

/-- `text` was in the file. -/
def greeting (text : List UInt8) (pid : UInt32) : List UInt8 :=
  ascii "The written string was: " ++ text ++ ascii "\n" ++ testText ++
    if pid = 0 then ascii "I am the child of a fork"
    else ascii "I am the parent and I am still a shell\n"

/-- The literals lie in the image of the program, below the heap. -/
def Placed (lit : Literals) (mem : Memory) : Prop :=
  ∀ x ∈ lit.texts, IsString mem x.1 x.2 ∧ x.1 + x.2.length < 0x10000000

section words

variable {text : List UInt8}

/-- The word that starts in a place. -/
def wordAt (text : List UInt8) (k : Nat) : List UInt8 := (text.drop k).takeWhile (· ≠ SPACE)

theorem delimiter_space {k : Nat} : Delimiter [SPACE] text k ↔ text[k]? = some SPACE := by
  simp [Delimiter]

theorem drop_space {k : Nat} (gap : Delimiter [SPACE] text k) :
    text.drop k = SPACE :: text.drop (k + 1) := by
  have here := delimiter_space.mp gap
  obtain ⟨inside, same⟩ := List.getElem?_eq_some_iff.mp here
  rw [List.drop_eq_getElem_cons inside, same]

theorem space_not_mem {k n : Nat} (run : MaximalRun (Delimiter [SPACE] text) text.length k n) :
    SPACE ∉ (text.drop k).take n := by
  intro member
  obtain ⟨i, below, same⟩ := List.getElem_of_mem member
  have within : i < n := by
    rw [List.length_take] at below
    omega
  refine run.solid (k + i) (by omega) (by omega) (delimiter_space.mpr ?_)
  rw [← List.getElem?_drop, ← List.getElem?_take_of_lt within, List.getElem?_eq_getElem below, same]

theorem drop_run {k n : Nat} (run : MaximalRun (Delimiter [SPACE] text) text.length k n) :
    text.drop k = (text.drop k).take n ∧ text.drop (k + n + 1) = [] ∨
      text.drop k = (text.drop k).take n ++ SPACE :: text.drop (k + n + 1) := by
  rcases run.right with last | gap
  · refine .inl ⟨(List.take_of_length_le ?_).symm, List.drop_eq_nil_of_le (by omega)⟩
    rw [List.length_drop]
    omega
  · refine .inr ?_
    have behind := drop_space gap
    rw [← List.drop_drop] at behind
    calc text.drop k = (text.drop k).take n ++ (text.drop k).drop n := (List.take_append_drop ..).symm
      _ = _ := by rw [behind]

theorem wordAt_run {k n : Nat} (run : MaximalRun (Delimiter [SPACE] text) text.length k n) :
    wordAt text k = (text.drop k).take n := by
  have letters : ∀ c ∈ (text.drop k).take n, (decide (c ≠ SPACE)) = true := by
    intro c member
    rw [decide_eq_true_eq]
    rintro rfl
    exact space_not_mem run member
  rw [wordAt]
  rcases drop_run run with ⟨all, _⟩ | split
  · rw [← all] at letters
    rw [List.takeWhile_eq_self_iff.mpr letters]
    exact all
  · rw [split, List.takeWhile_append_of_pos letters, List.takeWhile_cons_of_neg (by simp),
      List.append_nil, ← split]

theorem words_space (rest : List UInt8) : words (SPACE :: rest) = words rest := by
  rw [words, List.splitOn_cons_eq_if_modifyHead, if_pos (by simp), List.filter_cons_of_neg (by simp)]
  rfl

/-- The first word is the run that a text begins with. -/
theorem words_run {k n : Nat} (run : MaximalRun (Delimiter [SPACE] text) text.length k n) :
    words (text.drop k) = wordAt text k :: words (text.drop (k + n + 1)) := by
  have letters := space_not_mem run
  have some_letter : (text.drop k).take n ≠ [] := by
    intro none
    have length := run_length run
    rw [none] at length
    exact Nat.ne_of_lt run.nonempty length
  rw [wordAt_run run]
  rcases drop_run run with ⟨all, none⟩ | split
  · rw [none, words, words, List.splitOn_nil, all, List.take_take, Nat.min_self,
      List.splitOn_eq_singleton letters, List.filter_cons_of_pos (by simpa using some_letter)]
    rfl
  · rw [words, split, List.splitOn_append_cons_self_of_not_mem letters,
      List.filter_cons_of_pos (by simpa using some_letter), ← split, words]

/-- The words from a place on, if no word reaches into it. -/
theorem words_drop (k : Nat)
    (free : k = 0 ∨ text.length < k ∨ Delimiter [SPACE] text (k - 1)) :
    words (text.drop k) =
      (startsFrom (Delimiter [SPACE] text) text.length k).map (wordAt text) := by
  induction left : text.length - k using Nat.strong_induction_on generalizing k with
  | _ left ih =>
      rcases Nat.lt_or_ge k text.length with inside | outside
      · by_cases gap : Delimiter [SPACE] text k
        · rw [drop_space gap, words_space, startsFrom_next fun _ starts => starts.1 gap]
          exact ih _ (by omega) (k + 1) (.inr (.inr gap)) rfl
        · have starts : Starts (Delimiter [SPACE] text) k := by
            refine ⟨gap, ?_⟩
            rcases free with first | outside | before
            · exact .inl first
            · omega
            · exact .inr before
          obtain ⟨n, run⟩ := starts.run inside
          have behind : text.length < k + n + 1 ∨ Delimiter [SPACE] text (k + n) := by
            rcases run.right with last | delimiter
            · exact .inl (by omega)
            · exact .inr delimiter
          rw [words_run run, run.startsFrom_eq, List.map_cons,
            ih _ (by have := run.nonempty; omega) (k + n + 1) (.inr behind) rfl]
      · rw [List.drop_eq_nil_of_le outside, startsFrom_end outside]
        rfl

end words

section heap

open Malloc

/-- The block of `command`, the block that every `printf` takes and gives back, and the rest. -/
def BLOCKS : Blocks := [(100, true), (400, false), (40436, false)]

/-- Before the first `printf` the second block is not split off. -/
def Steady (mem : Mem) : Prop :=
  Holds mem Malloc.heap BLOCKS ∨ Holds mem Malloc.heap [(100, true), (40848, false)]

def COMMAND : UInt32 := 0x1000000C
def BUFFER : UInt32 := 0x1000007C

theorem initLibc_malloc (mem : Mem) :
    ∃ mem', malloc (initLibc mem) 100 = some (mem', COMMAND) ∧ Steady mem' := by
  have holds := (initial_tiled mem).holds
  have first : initLibc mem Malloc.heap = 40960 := rfl
  have found : firstFit (initLibc mem) (roundUp 100) = some Malloc.heap := by
    rw [firstFit, show (2 ^ 32 : Nat) = 4294967295 + 1 from rfl, search, first, if_neg (by decide)]
  refine ⟨place (initLibc mem) Malloc.heap (roundUp 100), by rw [malloc, found]; rfl, .inr ?_⟩
  exact (holds_place _ (roundUp 100) (by decide) _ (2 ^ 32) Malloc.heap Malloc.heap (by decide) holds
    found (by rw [show (initial mem).mem Malloc.heap = 40960 from first]; decide)).1

def SECOND : UInt32 := 0x10000070

/-- With a free block of 400 bytes or more behind that of `command`, `malloc` takes it. -/
theorem second_found {mem : Mem} {n : Nat} {rest : Blocks}
    (holds : Holds mem Malloc.heap ((100, true) :: (n, false) :: rest)) (large : 400 ≤ n) :
    (mem SECOND).toNat = n ∧ firstFit mem (roundUp 400) = some SECOND := by
  rcases holds with ⟨first, _, ⟨none, _⟩ | ⟨link, second, aligned, _⟩⟩
  · cases none
  · have link_word : mem (Malloc.heap + 4) = SECOND := link
    have word : (mem SECOND).toNat = n := second
    have first_word : mem Malloc.heap = 101 := UInt32.toNat_inj.mp first
    have free_word : ¬ (mem SECOND &&& 0b1 = 1 ∨ mem SECOND < roundUp 400) := by
      rw [skips_iff mem SECOND (roundUp 400) n false word aligned]
      rintro (used | less)
      · cases used
      · exact absurd less (Nat.not_lt.mpr large)
    refine ⟨word, ?_⟩
    rw [firstFit, show (2 ^ 32 : Nat) = 4294967294 + 1 + 1 from rfl, search, if_pos, link_word,
      if_neg (by decide), search, if_neg free_word]
    rw [first_word]
    exact .inl rfl

theorem buffer_taken {mem : Mem} {n : Nat} {rest : Blocks}
    (holds : Holds mem Malloc.heap ((100, true) :: (n, false) :: rest)) (large : 400 ≤ n)
    (fits : Malloc.heap.toNat + extent ((100, true) :: (n, false) :: rest) < 2 ^ 32)
    (split : allocate (roundUp 400).toNat ((100, true) :: (n, false) :: rest) =
      [(100, true), (400, true), (40436, false)])
    (room : 400 < n / 2 → 412 ≤ n) :
    ∃ mem', malloc mem 400 = some (mem', BUFFER) ∧ Steady (free mem' BUFFER) := by
  rcases second_found holds large with ⟨word, found⟩
  have rounded : (roundUp 400).toNat = 400 := by decide
  refine ⟨place mem SECOND (roundUp 400), by rw [malloc, found]; rfl, .inl ?_⟩
  have placed := (holds_place mem (roundUp 400) (by decide) _ (2 ^ 32) Malloc.heap SECOND fits holds
    found fun half => by
      rw [lt_half, word, rounded] at half
      rw [word, rounded]
      exact room half).1
  rw [split] at placed
  exact holds_release _ SECOND _ Malloc.heap 400 true (by decide) placed
    (List.mem_cons_of_mem _ (List.mem_cons_self ..))

theorem Steady.buffer {mem : Mem} (steady : Steady mem) :
    ∃ mem', malloc mem 400 = some (mem', BUFFER) ∧ Steady (free mem' BUFFER) := by
  rcases steady with again | first
  · exact buffer_taken again le_rfl (by decide) rfl fun half => absurd half (by decide)
  · exact buffer_taken first (by decide) (by decide) rfl fun _ => by decide

end heap

section plain

variable {before : List UInt8} (plain : ∀ c ∈ before, c ≠ PERCENT) (rest : List UInt8)
include plain

theorem expand_plain (mem : Memory) (args : Nat → UInt32) (arg : Nat) :
    expand mem args (before ++ rest) arg = before ++ expand mem args rest arg := by
  induction before with
  | nil => rfl
  | cons c before ih =>
      rw [List.cons_append, expand_ordinary (plain c (List.mem_cons_self ..)),
        ih fun d member => plain d (List.mem_cons_of_mem _ member)]
      rfl

theorem complete_plain : Complete (before ++ rest) ↔ Complete rest := by
  induction before with
  | nil => rfl
  | cons c before ih =>
      rw [List.cons_append, complete_ordinary (plain c (List.mem_cons_self ..)),
        ih fun d member => plain d (List.mem_cons_of_mem _ member)]

theorem strings_plain (args : Nat → UInt32) (arg : Nat) :
    strings args (before ++ rest) arg = strings args rest arg := by
  induction before with
  | nil => rfl
  | cons c before ih =>
      rw [List.cons_append, strings_ordinary (plain c (List.mem_cons_self ..)),
        ih fun d member => plain d (List.mem_cons_of_mem _ member)]

end plain

/-- Between two commands. -/
structure Idle (lit : Literals) (s : State) : Prop where
  heap : Steady s.heap
  placed : Placed lit s.mem

/-- A text has been printed, and everything below the buffer is as it was. -/
structure Prints (s : State) (text : List UInt8) (t : State) : Prop where
  heap : Steady t.heap
  written : t.written = s.written ++ text
  mem : ∀ a, a < BUFFER.toNat → t.mem a = s.mem a
  token : t.token = s.token
  strEnd : t.strEnd = s.strEnd

theorem Placed.congr {lit : Literals} {mem mem' : Memory} (placed : Placed lit mem)
    (same : ∀ a, a < 0x10000000 → mem' a = mem a) : Placed lit mem' := by
  intro x member
  rcases placed x member with ⟨string, low⟩
  exact ⟨isString_congr string fun k below => same _ (by omega), low⟩

theorem printf_heap {heap heap' : Malloc.Mem} {fstring : UInt32} {mem : Memory} {string : Nat}
    {args : Nat → UInt32} {outcome : Outcome}
    (buffer : Malloc.malloc heap 400 = some (heap', fstring))
    (ran : Printf.printf heap mem string args = some outcome) :
    outcome.heap = Malloc.free heap' fstring := by
  rw [Printf.printf, buffer, Option.bind_eq_bind, Option.bind_some] at ran
  rcases Option.bind_eq_some_iff.mp ran with ⟨s, _, made⟩
  cases made
  rfl

section print

variable {s : State} {string : Nat} {text : List UInt8}

theorem printf_prints (steady : Steady s.heap) (isString : IsString s.mem string text)
    (low : string + text.length < BUFFER.toNat) (complete : Complete text) (args : Nat → UInt32)
    (arguments : ∀ p ∈ strings args text 0,
      p.toNat + (cstr s.mem p.toNat).length < BUFFER.toNat) :
    ∃ t, s.printf string args = some t ∧ Prints s (expand s.mem args text 0) t := by
  obtain ⟨heap', buffer, after⟩ := steady.buffer
  have small : BUFFER.toNat < 2 ^ 32 := BUFFER.toNat_lt
  obtain ⟨outcome, ran, written, _, kept⟩ := printf_renders s.heap heap' BUFFER s.mem string args text
    isString (by omega) complete buffer (fun k below => .inl (by omega))
    (fun p member k below => .inl (by have := arguments p member; omega))
  have heap := printf_heap buffer ran
  refine ⟨⟨⟨outcome.mem, s.token, s.strEnd⟩, outcome.heap, s.written ++ outcome.written.flatten⟩,
    by rw [State.printf, ran, Option.map_some], ?_, ?_, ?_, rfl, rfl⟩
  · rw [heap]
    exact after
  · rw [written]
  · exact fun a below => kept a (.inl below)

/-- A text without directives is printed as it is. -/
theorem printf_plain (steady : Steady s.heap) (isString : IsString s.mem string text)
    (low : string + text.length < BUFFER.toNat) (plain : ∀ c ∈ text, c ≠ PERCENT)
    (args : Nat → UInt32) : ∃ t, s.printf string args = some t ∧ Prints s text t := by
  have expanded := expand_plain plain [] s.mem args 0
  have complete := complete_plain plain []
  have none := strings_plain plain [] args 0
  rw [List.append_nil] at expanded complete none
  obtain ⟨t, ran, prints⟩ := printf_prints steady isString low (complete.mpr trivial) args
    (by rw [none]; exact fun p member => absurd member List.not_mem_nil)
  rw [expanded, expand, List.append_nil] at prints
  exact ⟨t, ran, prints⟩

theorem Prints.idle {lit : Literals} {t : State} (prints : Prints s text t) (idle : Idle lit s) :
    Idle lit t :=
  ⟨prints.heap, idle.placed.congr fun a below => prints.mem a (Nat.lt_trans below (by decide))⟩

end print

section literal

variable {lit : Literals} {s : State} {a : Nat} {text before after : List UInt8}

theorem Idle.low (idle : Idle lit s) (member : (a, text) ∈ lit.texts) :
    a + text.length < BUFFER.toNat :=
  Nat.lt_trans (idle.placed _ member).2 (by decide)

theorem Idle.says (idle : Idle lit s) (member : (a, text) ∈ lit.texts)
    (plain : ∀ c ∈ text, c ≠ PERCENT) (args : Nat → UInt32) :
    ∃ t, s.printf a args = some t ∧ Prints s text t :=
  printf_plain idle.heap (idle.placed _ member).1 (idle.low member) plain args

/-- A literal with one directive. -/
theorem Idle.shows (idle : Idle lit s) {c : UInt8} (member : (a, text) ∈ lit.texts)
    (split : text = before ++ PERCENT :: c :: after) (plain : ∀ d ∈ before ++ after, d ≠ PERCENT)
    (arg : UInt32) (stack : Nat → UInt32)
    (pointed : c = LOWER_S → arg.toNat + (cstr s.mem arg.toNat).length < BUFFER.toNat) :
    ∃ t, s.printf a (passing arg stack) = some t ∧
      Prints s (before ++ conversion s.mem c arg ++ after) t := by
  have first : ∀ d ∈ before, d ≠ PERCENT := fun d inside =>
    plain d (List.mem_append_left _ inside)
  have last : ∀ d ∈ after, d ≠ PERCENT := fun d inside => plain d (List.mem_append_right _ inside)
  have ends (args : Nat → UInt32) (n : Nat) : expand s.mem args after n = after := by
    have expanded := expand_plain last [] s.mem args n
    rwa [List.append_nil, expand, List.append_nil] at expanded
  have none (args : Nat → UInt32) (n : Nat) : strings args after n = [] := by
    have left := strings_plain last [] args n
    rwa [List.append_nil] at left
  have complete : Complete text := by
    rw [split, complete_plain first]
    have rest := complete_plain last []
    rw [List.append_nil] at rest
    exact rest.mpr trivial
  obtain ⟨t, ran, prints⟩ := printf_prints idle.heap (idle.placed _ member).1 (idle.low member)
    complete (passing arg stack) (by
      intro p inside
      rw [split, strings_plain first] at inside
      change p ∈ (if c = LOWER_S then [arg] else []) ++ strings (passing arg stack) after _ at inside
      rw [none, List.append_nil] at inside
      split at inside
      · rename_i asks
        rw [List.mem_singleton.mp inside]
        exact pointed asks
      · cases inside)
  refine ⟨t, ran, ?_⟩
  rw [split, expand_plain first] at prints
  have shown : expand s.mem (passing arg stack) (PERCENT :: c :: after) 0 =
      conversion s.mem c arg ++ after := by
    change conversion s.mem c arg ++ expand s.mem (passing arg stack) after _ = _
    rw [ends]
  rwa [shown, ← List.append_assoc] at prints

theorem Idle.shows_string (idle : Idle lit s) (member : (a, text) ∈ lit.texts)
    (split : text = before ++ PERCENT :: LOWER_S :: after)
    (plain : ∀ d ∈ before ++ after, d ≠ PERCENT) {token : Nat} {word : List UInt8}
    (string : IsString s.mem token word) (low : token + word.length < BUFFER.toNat)
    (stack : Nat → UInt32) :
    ∃ t, s.printf a (passing (.ofNat token) stack) = some t ∧
      Prints s (before ++ word ++ after) t := by
  have small : BUFFER.toNat < 2 ^ 32 := BUFFER.toNat_lt
  have pointed : (UInt32.ofNat token).toNat = token := by
    rw [UInt32.toNat_ofNat', Nat.mod_eq_of_lt (by omega)]
  have shown : cstr s.mem (UInt32.ofNat token).toNat = word := by
    rw [pointed]
    exact string.cstr_eq (by omega)
  obtain ⟨t, ran, prints⟩ := idle.shows member split plain (.ofNat token) stack
    (fun _ => by rw [shown, pointed]; exact low)
  have conversion_eq : conversion s.mem LOWER_S (.ofNat token) = word := shown
  exact ⟨t, ran, by rwa [conversion_eq] at prints⟩

end literal

section round

variable {lit : Literals} {s : State} {text : List UInt8}

def STR : Nat := COMMAND.toNat

theorem wordAt_letters (letters : ∀ c ∈ text, c ≠ PERCENT) (k : Nat) :
    ∀ c ∈ wordAt text k, c ≠ PERCENT := by
  intro c member
  exact letters c (List.mem_of_mem_drop (List.takeWhile_subset _ member))

theorem token_word {s : Strtok.State} {k : Nat} {rest : List Nat}
    (after : After STR [SPACE] text s (k :: rest)) :
    IsString s.mem (STR + k) (wordAt text k) ∧ k + (wordAt text k).length ≤ text.length := by
  rcases after.first k rfl with ⟨inside, starts, _⟩
  obtain ⟨n, run⟩ := starts.run inside
  have length := run_length run
  have within := run.inside
  rw [wordAt_run run, length]
  exact ⟨after.split.token run, within⟩

theorem Prints.after {t : State} {printed : List UInt8} {rest : List Nat}
    (prints : Prints s printed t) (short : text.length < 100)
    (after : After STR [SPACE] text s.toState rest) : After STR [SPACE] text t.toState rest := by
  have same : t.toState = { s.toState with mem := t.mem } := by
    have token := prints.token
    have strEnd := prints.strEnd
    rcases s with ⟨⟨mem, s_token, s_strEnd⟩, heap, output⟩
    rcases t with ⟨⟨mem', t_token, t_strEnd⟩, heap', output'⟩
    simp_all
  rw [same]
  refine after.work fun a _ high => prints.mem a ?_
  rw [STR] at high
  have apart : COMMAND.toNat + 100 < BUFFER.toNat := by decide
  omega

theorem strtok_null_mem {s t : Strtok.State} {delim r : Nat}
    (taken : Strtok.strtok s NULL delim = some (t, r)) : t.mem = s.mem := by
  rw [Strtok.strtok, if_neg (not_not_intro rfl)] at taken
  split at taken
  · cases taken
    rfl
  · cases taken
    rfl

theorem Idle.next (idle : Idle lit s) {rest : List Nat} (short : text.length < 100)
    (after : After STR [SPACE] text s.toState rest) :
    ∃ t, s.strtok NULL lit.space = some (t, pointer STR rest.tail.head?) ∧ Idle lit t ∧
      After STR [SPACE] text t.toState rest.tail ∧ t.written = s.written := by
  obtain ⟨t, ran, behind⟩ := after.next (by decide) (by omega) lit.space
  have mem := strtok_null_mem ran
  refine ⟨{ s with toState := t }, ?_, ⟨idle.heap, ?_⟩, behind, rfl⟩
  · rw [State.strtok, ran, Option.map_some, behind.token]
  · exact idle.placed.congr fun a _ => congrFun mem a

theorem space_mem (lit : Literals) : (lit.space, [SPACE]) ∈ lit.texts := by simp [Literals.texts]

theorem echoLoop_prints (stack : Nat → UInt32) (letters : ∀ c ∈ text, c ≠ PERCENT)
    (short : text.length < 100) (rest : List Nat) (fuel : Nat) (enough : rest.length < fuel)
    (idle : Idle lit s) (after : After STR [SPACE] text s.toState rest) :
    ∃ t, echoLoop lit stack fuel s (pointer STR rest.head?) = some t ∧ Idle lit t ∧
      t.written = s.written ++ (rest.map (wordAt text)).flatMap (· ++ [SPACE]) ++ [0x0A] := by
  have apart : COMMAND.toNat + 100 < BUFFER.toNat := by decide
  induction rest generalizing s fuel with
  | nil =>
      obtain ⟨fuel, rfl⟩ := Nat.exists_eq_succ_of_ne_zero (Nat.ne_of_gt enough)
      have member : (lit.newline, [0x0A]) ∈ lit.texts := by simp [Literals.texts]
      obtain ⟨t, ran, prints⟩ := idle.says member (by decide +kernel) stack
      refine ⟨t, ?_, prints.idle idle, ?_⟩
      · have null : pointer STR ([] : List Nat).head? = NULL := rfl
        rw [null, echoLoop, if_neg (not_not_intro rfl), ran]
      · rw [prints.written]
        simp
  | cons k rest ih =>
      obtain ⟨fuel, rfl⟩ := Nat.exists_eq_succ_of_ne_zero (Nat.ne_of_gt (Nat.lt_of_le_of_lt
        (Nat.zero_le _) enough))
      rcases token_word after with ⟨word, within⟩
      have nonNull : STR + k ≠ NULL := by
        rw [STR, COMMAND, NULL]
        exact Nat.ne_of_gt (Nat.lt_of_lt_of_le (by decide) (Nat.le_add_right _ k))
      obtain ⟨s1, ran1, prints1⟩ := printf_plain idle.heap word (by rw [STR]; omega)
        (wordAt_letters letters k) stack
      have idle1 := prints1.idle idle
      obtain ⟨s2, ran2, prints2⟩ := idle1.says (space_mem lit) (by decide +kernel) stack
      have idle2 := prints2.idle idle1
      obtain ⟨s3, ran3, idle3, after3, written3⟩ := idle2.next short
        (prints2.after short (prints1.after short after))
      obtain ⟨t, ran, idle_t, written⟩ := ih fuel (Nat.lt_of_succ_lt_succ enough) idle3 after3
      refine ⟨t, ?_, idle_t, ?_⟩
      · change echoLoop lit stack (fuel + 1) s (STR + k) = some t
        rw [echoLoop, if_pos nonNull, ran1]
        change ((s1.printf lit.space stack).bind fun s => (s.strtok NULL lit.space).bind fun r =>
          echoLoop lit stack fuel r.1 r.2) = some t
        rw [ran2, Option.bind_some, ran3, Option.bind_some]
        exact ran
      · rw [written, written3, prints2.written, prints1.written]
        simp

theorem line_string (nonzero : ∀ c ∈ text, c ≠ 0) (mem : Memory) :
    IsString (storeList STR (text ++ [0]) mem) STR text := by
  constructor
  · intro k below
    have stored := storeList_inside STR k (text ++ [0]) mem (by rw [List.length_append]; omega)
    rw [List.getElem?_append_left below] at stored
    refine ⟨stored, nonzero _ ?_⟩
    exact List.mem_of_getElem? stored
  · have stored := storeList_inside STR text.length (text ++ [0]) mem (by simp)
    rw [List.getElem?_append_right le_rfl, Nat.sub_self] at stored
    exact (Option.some.inj stored).symm

/-- The first word of a line, with the words behind it to come. -/
theorem Idle.first (idle : Idle lit s) (short : text.length < 100)
    (string : IsString s.mem STR text) :
    ∃ t rest, s.strtok STR lit.space = some (t, pointer STR rest.head?) ∧ Idle lit t ∧
      After STR [SPACE] text t.toState rest ∧ t.written = s.written ∧
      words text = rest.map (wordAt text) ∧ rest.length ≤ text.length := by
  have space : IsString s.mem lit.space [SPACE] := (idle.placed _ (space_mem lit)).1
  have low : lit.space + 1 < 0x10000000 := (idle.placed _ (space_mem lit)).2
  have high : 0x10000000 < STR := by decide
  have ran := strtok_cut s.toState lit.space string space (by decide) (by decide)
    (by omega) fun k within i _ => by
      rw [List.length_singleton] at within
      omega
  have after : After STR [SPACE] text _ _ := first_after string (by omega)
  have words_eq : words (text.drop 0) = _ := words_drop 0 (.inl rfl)
  rw [List.drop_zero] at words_eq
  have few : (startsFrom (Delimiter [SPACE] text) text.length 0).length ≤ text.length := by
    refine (List.length_filter_le ..).trans ?_
    rw [List.length_range', Nat.sub_zero]
  refine ⟨⟨(advance ⟨cut [SPACE] text STR 0 s.mem, STR, STR + text.length⟩).1, s.heap, s.written⟩,
    _, ?_, ⟨idle.heap, ?_⟩, after, rfl, words_eq, few⟩
  · rw [State.strtok, ran, Option.map_some, ← after.token]
    rfl
  · refine idle.placed.congr fun a below => ?_
    change cut [SPACE] text STR 0 s.mem a = s.mem a
    rw [cut, if_neg fun both => by have := both.1; omega]

theorem answer_echo {rest : List (List UInt8)} (split : words text = ECHO :: rest) :
    answer text = rest.flatMap (· ++ [SPACE]) ++ [0x0A] := by
  rw [answer, split]
  exact if_pos rfl

theorem answer_other {first : List UInt8} {rest : List (List UInt8)}
    (split : words text = first :: rest) (other : first ≠ ECHO) :
    answer text = ascii "unrecognized command \"" ++ first ++ ascii "\"\n" := by
  rw [answer, split]
  exact if_neg other

theorem round_prints (stack : Nat → UInt32) (idle : Idle lit s) (short : text.length < 100)
    (nonzero : ∀ c ∈ text, c ≠ 0) (letters : ∀ c ∈ text, c ≠ PERCENT) :
    ∃ t, round lit stack STR s (text ++ [0]) = some t ∧ Idle lit t ∧
      t.written = s.written ++ (PROMPT ++ answer text) := by
  have apart : STR + 100 < BUFFER.toNat := by decide
  have prompt : (lit.prompt, PROMPT) ∈ lit.texts := by simp [Literals.texts]
  obtain ⟨s1, ran1, prints1⟩ := idle.says prompt (by decide +kernel) stack
  have idle1 := prints1.idle idle
  have idle2 : Idle lit { s1 with mem := storeList STR (text ++ [0]) s1.mem } := by
    refine ⟨idle1.heap, idle1.placed.congr fun a below => ?_⟩
    have high : 0x10000000 < STR := by decide
    exact storeList_outside STR a _ _ (.inl (by omega))
  obtain ⟨s3, rest, ran3, idle3, after, written3, split, few⟩ :=
    idle2.first short (line_string nonzero s1.mem)
  have written : s3.written = s.written ++ PROMPT := written3.trans prints1.written
  have unfolded : round lit stack STR s (text ++ [0]) =
      if pointer STR rest.head? = NULL then some s3
      else (Strings.strcmp s3.mem (pointer STR rest.head?) lit.word).bind fun order =>
        if order = 0 then echo lit stack s3
        else s3.printf lit.complaint (passing (.ofNat (pointer STR rest.head?)) stack) := by
    rw [round, ran1]
    change (State.strtok { s1 with mem := storeList STR (text ++ [0]) s1.mem } STR lit.space).bind _ = _
    rw [ran3]
    rfl
  rw [unfolded]
  cases rest with
  | nil =>
      refine ⟨s3, if_pos rfl, idle3, ?_⟩
      rw [written, answer, split, List.map_nil, List.append_nil]
  | cons k rest =>
      rcases token_word after with ⟨word, within⟩
      have nonNull : pointer STR (k :: rest).head? ≠ NULL :=
        Nat.ne_of_gt (Nat.lt_of_lt_of_le (show 0 < STR by decide) (Nat.le_add_right _ k))
      rw [if_neg nonNull]
      change ∃ t, ((Strings.strcmp s3.mem (STR + k) lit.word).bind _) = some t ∧ _
      have order : IsString s3.mem lit.word ECHO :=
        (idle3.placed (lit.word, ECHO) (by simp [Literals.texts])).1
      rw [Strings.strcmp_eq word order, List.take_of_length_le (by omega),
        List.take_of_length_le (by decide), if_pos (show (wordAt text k).length < 65536 by omega)]
      rw [List.map_cons] at split
      by_cases same : wordAt text k = ECHO
      · rw [if_pos same, Option.bind_some, if_pos rfl]
        obtain ⟨s4, ran4, idle4, after4, written4⟩ := idle3.next short after
        rw [List.length_cons] at few
        obtain ⟨t, ran, idle_t, output⟩ := echoLoop_prints stack letters short rest (2 ^ 32)
          (by omega) idle4 after4
        refine ⟨t, ?_, idle_t, ?_⟩
        · rw [echo, ran4]
          exact ran
        · rw [same] at split
          rw [output, written4, written, answer_echo split, List.append_assoc, List.append_assoc]
      · rw [if_neg same, Option.bind_some, if_neg (by decide)]
        have complaint : (lit.complaint, ascii "unrecognized command \"%s\"\n") ∈ lit.texts := by
          simp [Literals.texts]
        obtain ⟨t, ran, prints⟩ := idle3.shows_string complaint
          (show _ = ascii "unrecognized command \"" ++ PERCENT :: LOWER_S :: ascii "\"\n" by decide)
          (by decide +kernel) word (by omega) stack
        refine ⟨t, ran, prints.idle idle3, ?_⟩
        rw [prints.written, written, answer_other split same, List.append_assoc]

end round

theorem rounds_print {lit : Literals} (stack : Nat → UInt32) (lines : List (List UInt8))
    (typeable : ∀ line ∈ lines, line.length < 100 ∧ ∀ c ∈ line, c ≠ 0 ∧ c ≠ PERCENT) {s : State}
    (idle : Idle lit s) :
    ∃ t, rounds lit stack STR (lines.map (· ++ [0])) s = some t ∧ Idle lit t ∧
      t.written = s.written ++ lines.flatMap fun line => PROMPT ++ answer line := by
  induction lines generalizing s with
  | nil => exact ⟨s, rfl, idle, (List.append_nil _).symm⟩
  | cons line rest ih =>
      rcases typeable line (List.mem_cons_self ..) with ⟨short, letters⟩
      obtain ⟨t, ran, idle_t, written⟩ := round_prints stack idle short
        (fun c member => (letters c member).1) fun c member => (letters c member).2
      obtain ⟨u, onward, idle_u, more⟩ := ih
        (fun line member => typeable line (List.mem_cons_of_mem _ member)) idle_t
      refine ⟨u, Option.bind_eq_some_iff.mpr ⟨t, ran, onward⟩, idle_u, ?_⟩
      rw [more, written, List.append_assoc]
      rfl

theorem typeable_plain {c : UInt8} (typeable : Terminal.Typeable c) : c ≠ 0 ∧ c ≠ PERCENT := by
  constructor
  · rintro rfl
    exact absurd typeable (by decide)
  · rintro rfl
    exact absurd typeable (by decide)

theorem printfTest_prints {lit : Literals} (stack : Nat → UInt32) {s : State} (idle : Idle lit s) :
    ∃ t, printfTest lit stack s = some t ∧ Idle lit t ∧ t.written = s.written ++ testText := by
  have test : (lit.test, ascii "PRINTF TEST\n") ∈ lit.texts := by simp [Literals.texts]
  have capital : (lit.capital, ascii "capital hex: %X\n") ∈ lit.texts := by simp [Literals.texts]
  have lowercase : (lit.lowercase, ascii "lowercase hex: %x\n") ∈ lit.texts := by
    simp [Literals.texts]
  have unsigned : (lit.unsigned, ascii "unsigned decimal: %u\n") ∈ lit.texts := by
    simp [Literals.texts]
  have character : (lit.character, ascii "character: %c\n") ∈ lit.texts := by simp [Literals.texts]
  have string : (lit.string, ascii "string: %s\n\n") ∈ lit.texts := by simp [Literals.texts]
  have wooyeah : (lit.wooyeah, ascii "wooyeah") ∈ lit.texts := by simp [Literals.texts]
  obtain ⟨s1, ran1, prints1⟩ := idle.says test (by decide +kernel) stack
  have idle1 := prints1.idle idle
  obtain ⟨s2, ran2, prints2⟩ := idle1.shows capital
    (show _ = ascii "capital hex: " ++ PERCENT :: UPPER_X :: [0x0A] by decide) (by decide +kernel)
    0x1234abcd stack fun asks => absurd asks (by decide)
  have idle2 := prints2.idle idle1
  obtain ⟨s3, ran3, prints3⟩ := idle2.shows lowercase
    (show _ = ascii "lowercase hex: " ++ PERCENT :: LOWER_X :: [0x0A] by decide) (by decide +kernel)
    0xabcd1234 stack fun asks => absurd asks (by decide)
  have idle3 := prints3.idle idle2
  obtain ⟨s4, ran4, prints4⟩ := idle3.shows unsigned
    (show _ = ascii "unsigned decimal: " ++ PERCENT :: LOWER_U :: [0x0A] by decide)
    (by decide +kernel) 123456789 stack fun asks => absurd asks (by decide)
  have idle4 := prints4.idle idle3
  obtain ⟨s5, ran5, prints5⟩ := idle4.shows character
    (show _ = ascii "character: " ++ PERCENT :: LOWER_C :: [0x0A] by decide) (by decide +kernel)
    0x23 stack fun asks => absurd asks (by decide)
  have idle5 := prints5.idle idle4
  obtain ⟨s6, ran6, prints6⟩ := idle5.shows_string string
    (show _ = ascii "string: " ++ PERCENT :: LOWER_S :: [0x0A, 0x0A] by decide) (by decide +kernel)
    (idle5.placed _ wooyeah).1 (idle5.low wooyeah) stack
  refine ⟨s6, ?_, prints6.idle idle5, ?_⟩
  · simp only [printfTest, ran1, ran2, ran3, ran4, ran5, Option.bind_eq_bind, Option.bind_some]
    exact ran6
  · rw [prints6.written, prints5.written, prints4.written, prints3.written, prints2.written,
      prints1.written]
    simp only [List.append_assoc]
    -- the conversions of the constants compute
    rfl

/-- `main` up to what `fork` returns. -/
theorem main_starts (lit : Literals) (stack : Nat → UInt32) (s : State) (placed : Placed lit s.mem)
    (text : List UInt8) (short : text.length < 100) (nonzero : ∀ c ∈ text, c ≠ 0) (pid : UInt32)
    (lines : List (List UInt8)) :
    ∃ t, main lit stack (text ++ [0]) pid lines s =
        (if pid = 0 then t.printf lit.child stack
        else (t.printf lit.parent stack).bind (rounds lit stack STR lines)) ∧
      Idle lit t ∧
      t.written = s.written ++ (ascii "The written string was: " ++ text ++ ascii "\n") ++ testText := by
  obtain ⟨heap, taken, steady⟩ := initLibc_malloc s.heap
  have high : 0x10000000 < STR := by decide
  have apart : STR + 100 < BUFFER.toNat := by decide
  have idle : Idle lit { s with heap := heap, mem := storeList STR (text ++ [0]) s.mem } := by
    refine ⟨steady, placed.congr fun a below => ?_⟩
    exact storeList_outside STR a _ _ (.inl (by omega))
  have contents : (lit.contents, ascii "The written string was: %s\n") ∈ lit.texts := by
    simp [Literals.texts]
  obtain ⟨t, ran, prints⟩ := idle.shows_string contents
    (show _ = ascii "The written string was: " ++ PERCENT :: LOWER_S :: ascii "\n" by decide)
    (by decide +kernel) (line_string nonzero s.mem) (by omega) stack
  obtain ⟨u, tested, idle_u, written⟩ := printfTest_prints stack (prints.idle idle)
  refine ⟨u, ?_, idle_u, by rw [written, prints.written]⟩
  have passed : UInt32.ofNat STR = COMMAND := by decide
  rw [passed] at ran
  change (Malloc.malloc (Malloc.initLibc s.heap) 100).bind _ = _
  rw [taken, Option.bind_some]
  change (State.printf { s with heap := heap, mem := storeList STR (text ++ [0]) s.mem } lit.contents
    (passing COMMAND stack)).bind _ = _
  rw [ran, Option.bind_some]
  change (printfTest lit stack t).bind _ = _
  rw [tested, Option.bind_some]
  rfl

/-- Whatever was in the file, and whatever is typed on the keyboard, line after line and each of them
shorter than the buffer of `command`: the shell comes back for the next line every time, and has
printed a prompt and the answer for each. Its child stops before that. -/
theorem shell_answers (lit : Literals) (stack : Nat → UInt32) (s : State)
    (placed : Placed lit s.mem) (text : List UInt8) (content : text.length < 100 ∧ ∀ c ∈ text, c ≠ 0)
    (pid : UInt32) (lines : List (List UInt8))
    (entered : ∀ scancodes ∈ lines, some 0x0A ∉ scancodes.map Terminal.keypress)
    (short : ∀ scancodes ∈ lines, (Terminal.lineOf scancodes).length < 100) :
    ∃ t, main lit stack (text ++ [0]) pid
        (lines.map fun scancodes => Terminal.lineOf scancodes ++ [0]) s = some t ∧
      t.written = s.written ++ greeting text pid ++
        if pid = 0 then []
        else lines.flatMap fun scancodes => PROMPT ++ answer (Terminal.lineOf scancodes) := by
  obtain ⟨u, started, idle, printed⟩ := main_starts lit stack s placed text content.1 content.2 pid
    (lines.map fun scancodes => Terminal.lineOf scancodes ++ [0])
  rw [started, greeting]
  by_cases child : pid = 0
  · have literal : (lit.child, ascii "I am the child of a fork") ∈ lit.texts := by
      simp [Literals.texts]
    obtain ⟨t, ran, prints⟩ := idle.says literal (by decide +kernel) stack
    refine ⟨t, by rw [if_pos child, ran], ?_⟩
    rw [prints.written, printed, if_pos child, if_pos child]
    simp only [List.append_assoc, List.append_nil]
  · have literal : (lit.parent, ascii "I am the parent and I am still a shell\n") ∈ lit.texts := by
      simp [Literals.texts]
    obtain ⟨v, ran, prints⟩ := idle.says literal (by decide +kernel) stack
    have typeable : ∀ line ∈ lines.map Terminal.lineOf,
        line.length < 100 ∧ ∀ c ∈ line, c ≠ 0 ∧ c ≠ PERCENT := by
      intro line member
      obtain ⟨scancodes, typed, rfl⟩ := List.mem_map.mp member
      refine ⟨short scancodes typed, fun c inside => typeable_plain ?_⟩
      exact (Terminal.typed_line_iff _).mp ⟨scancodes, entered scancodes typed, rfl⟩ c inside
    obtain ⟨t, answered, _, written⟩ := rounds_print stack (lines.map Terminal.lineOf) typeable
      (prints.idle idle)
    rw [List.map_map] at answered
    refine ⟨t, by rw [if_neg child, ran, Option.bind_some]; exact answered, ?_⟩
    rw [written, prints.written, printed, List.flatMap_map, if_neg child, if_neg child]
    simp only [List.append_assoc]

def sampleLiterals : Literals :=
  ⟨0x1000, 0x101c, 0x1029, 0x103a, 0x104d, 0x1063, 0x1072, 0x107f, 0x1087, 0x10a0, 0x10c8, 0x10cf,
    0x10d1, 0x10d6, 0x10f1⟩

def sampleImage : List UInt8 := sampleLiterals.texts.flatMap fun x => x.2 ++ [0]

def sampleStart : State :=
  ⟨⟨fun a => (sampleImage[a - 0x1000]?).getD 0, NULL, NULL⟩, fun _ => 0, []⟩

theorem sample_placed : Placed sampleLiterals sampleStart.mem := by
  have check : ∀ x ∈ sampleLiterals.texts,
      ((∀ k < x.2.length, x.2[k]? = some (sampleStart.mem (x.1 + k)) ∧ sampleStart.mem (x.1 + k) ≠ 0) ∧
        sampleStart.mem (x.1 + x.2.length) = 0) ∧ x.1 + x.2.length < 0x10000000 := by
    decide +kernel
  intro x member
  rcases check x member with ⟨⟨characters, ends⟩, low⟩
  exact ⟨⟨characters, ends⟩, low⟩

theorem two_lines_answered :
    ∃ t, main sampleLiterals (fun _ => 0) (ascii "YO HELLO" ++ [0]) 2
        ([[0x12, 0x92, 0x2E, 0x23, 0x18, 0x39, 0x23, 0x17], [0x26, 0x1F, 0x1F, 0x0E]].map
          fun scancodes => Terminal.lineOf scancodes ++ [0]) sampleStart = some t ∧
      t.written = greeting (ascii "YO HELLO") 2 ++
        ascii "shell>hi \nshell>unrecognized command \"ls\"\n" := by
  obtain ⟨t, ran, written⟩ := shell_answers sampleLiterals (fun _ => 0) sampleStart sample_placed
    (ascii "YO HELLO") (by decide +kernel) 2
    [[0x12, 0x92, 0x2E, 0x23, 0x18, 0x39, 0x23, 0x17], [0x26, 0x1F, 0x1F, 0x0E]]
    (by decide +kernel) (by decide +kernel)
  refine ⟨t, ran, written.trans ?_⟩
  decide +kernel

end TitorOS.Barrel.Shell
