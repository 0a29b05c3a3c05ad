import TitorOS.Lib.Fill
import TitorOS.Lib.Numeral
import TitorOS.Barrel.MallocList

/-! `printf` of `libc/stdio.c` on the bytes of memory. The format is split in place: a
directive ends the text before it with a NUL, which is then put back. The descriptors of
the heap are kept apart from the bytes, as in `Malloc`; the arguments are the words
behind `string` on the stack. -/

namespace TitorOS.Barrel.Printf

open TitorOS.Lib

abbrev Memory := Nat → UInt8

def PERCENT : UInt8 := 0x25
def ZERO : UInt8 := 0x30
def UPPER_X : UInt8 := 0x58
def LOWER_C : UInt8 := 0x63
def LOWER_S : UInt8 := 0x73
def LOWER_U : UInt8 := 0x75
def LOWER_X : UInt8 := 0x78

/-- The characters from an address to the next NUL. -/
def cstrFrom (mem : Memory) : Nat → Nat → List UInt8
  | 0, _ => []
  | fuel + 1, a => if mem a = 0 then [] else mem a :: cstrFrom mem fuel (a + 1)

def cstr (mem : Memory) (a : Nat) : List UInt8 := cstrFrom mem (2 ^ 32) a

/-- `arg` counts the arguments taken; `written` are the strings given to `write`. -/
structure State where
  mem : Memory
  part : Nat
  i : Nat
  arg : Nat
  written : List (List UInt8)

def State.store (s : State) (a : Nat) (byte : UInt8) : State :=
  { s with mem := Function.update s.mem a byte }

def State.writeText (s : State) (text : List UInt8) : State :=
  { s with written := s.written ++ [text] }

/-- `write(stdout, a, 0)`: a count of 0 stands for the whole string. -/
def State.write (s : State) (a : Nat) : State := s.writeText (cstr s.mem a)

def State.next (s : State) : State := { s with arg := s.arg + 1 }

/-- Ten digits; `left` of them are still to come. -/
def decimalLoop (fstring : Nat) : Nat → Nat → UInt32 → UInt32 → Memory → Memory
  | 0, _, _, _, mem => mem
  | left + 1, j, value, divisor, mem =>
      decimalLoop fstring left (j + 1) (value - value / divisor * divisor) (divisor / 10)
        (Function.update mem (fstring + j) (value / divisor + 0x30).toUInt8)

/-- Eight digits. `letter` is the address of the `x` or `X`. -/
def hexLoop (fstring letter : Nat) (value : UInt32) : Nat → Nat → Memory → Memory
  | 0, _, mem => mem
  | left + 1, j, mem =>
      let mem := Function.update mem (fstring + j)
        (((value >>> .ofNat (28 - 4 * j)) &&& 0xF) + 0x30).toUInt8
      let mem :=
        if mem (fstring + j) > 0x39 then
          Function.update mem (fstring + j) (mem (fstring + j) + 7 + mem letter - UPPER_X)
        else mem
      hexLoop fstring letter value left (j + 1) mem

/-- The loops that move `part` past leading zeros, `width` characters at a time. -/
def skipZeros (zero : Nat → Bool) (width : Nat) : Nat → Nat → Nat → Nat
  | 0, _, part => part
  | left + 1, j, part =>
      if zero j then skipZeros zero width left (j + 1) (part + width) else part

def printUnsigned (fstring : Nat) (value : UInt32) (s : State) : State :=
  let s := { s with mem := decimalLoop fstring 10 0 value 1000000000 s.mem }
  let s := s.store (fstring + 10) 0
  let zero := fun j => s.mem (fstring + j) == ZERO
  let s := { s with part := skipZeros zero 1 9 0 fstring }
  s.write s.part

def printHex (fstring letter : Nat) (value : UInt32) (s : State) : State :=
  let s := { s with mem := hexLoop fstring letter value 8 0 s.mem }
  let s := s.writeText [ZERO, LOWER_X]
  let s := s.store (fstring + 8) 0
  let zero := fun j => s.mem (fstring + 2 * j) == ZERO && s.mem (fstring + 2 * j + 1) == ZERO
  let s := { s with part := skipZeros zero 2 3 0 fstring }
  s.write s.part

def printChar (fstring : Nat) (character : UInt8) (s : State) : State :=
  ((s.store fstring character).store (fstring + 1) 0).write fstring

/-- The `switch` over the character after a `%`. -/
def directive (string fstring : Nat) (args : Nat → UInt32) (s : State) : State :=
  let character := s.mem (string + s.i)
  if character = PERCENT then printChar fstring PERCENT s
  else if character = LOWER_U then printUnsigned fstring (args s.arg) s.next
  else if character = LOWER_X ∨ character = UPPER_X then
    printHex fstring (string + s.i) (args s.arg) s.next
  else if character = LOWER_C then printChar fstring (args s.arg).toUInt8 s.next
  else if character = LOWER_S then s.next.write (args s.arg).toNat
  else printChar fstring character (s.writeText [PERCENT])

/-- The body of the loop, and its `i++`. -/
def step (string fstring : Nat) (args : Nat → UInt32) (s : State) : State :=
  if s.mem (string + s.i) = PERCENT then
    let s := s.store (string + s.i) 0
    let s := s.write s.part
    let s := s.store (string + s.i) PERCENT
    let s := directive string fstring args { s with i := s.i + 1 }
    { s with part := string + s.i + 1, i := s.i + 1 }
  else { s with i := s.i + 1 }

def loop (string fstring : Nat) (args : Nat → UInt32) : Nat → State → Option State
  | 0, _ => none
  | fuel + 1, s =>
      if s.mem (string + s.i) = 0 then some s
      else loop string fstring args fuel (step string fstring args s)

structure Outcome where
  heap : Malloc.Mem
  mem : Memory
  written : List (List UInt8)

def printf (heap : Malloc.Mem) (mem : Memory) (string : Nat) (args : Nat → UInt32) :
    Option Outcome := do
  let (heap, fstring) ← Malloc.malloc heap 400
  let s ← loop string fstring.toNat args (2 ^ 32) ⟨mem, string, 0, 0, []⟩
  let s := s.write s.part
  return ⟨Malloc.free heap fstring, s.mem, s.written⟩

/-! What it should print. -/

def decimal (value : UInt32) : List UInt8 :=
  (numeral 10 value.toNat).map fun d => .ofNat (d + 0x30)

def hexDigit (upper : Bool) (d : Nat) : UInt8 :=
  if d < 10 then .ofNat (d + 0x30) else .ofNat (d - 10 + if upper then 0x41 else 0x61)

/-- In whole bytes, as few as the value has. -/
def hexadecimal (upper : Bool) (value : UInt32) : List UInt8 :=
  (numeral 256 value.toNat).flatMap fun byte =>
    [hexDigit upper (byte / 16), hexDigit upper (byte % 16)]

/-- Whether a directive takes an argument. -/
def takes (character : UInt8) : Bool :=
  character = LOWER_U ∨ character = LOWER_X ∨ character = UPPER_X ∨ character = LOWER_C ∨
    character = LOWER_S

def conversion (mem : Memory) (character : UInt8) (arg : UInt32) : List UInt8 :=
  if character = PERCENT then [PERCENT]
  else if character = LOWER_U then decimal arg
  else if character = LOWER_X then [ZERO, LOWER_X] ++ hexadecimal false arg
  else if character = UPPER_X then [ZERO, LOWER_X] ++ hexadecimal true arg
  else if character = LOWER_C then if arg.toUInt8 = 0 then [] else [arg.toUInt8]
  else if character = LOWER_S then cstr mem arg.toNat
  else [PERCENT, character]

/-- The reference expansion, with `arg` arguments taken before. -/
def expand (mem : Memory) (args : Nat → UInt32) : List UInt8 → Nat → List UInt8
  | [], _ => []
  | first :: rest, arg =>
      if first = PERCENT then
        match rest with
        | [] => [PERCENT]
        | second :: rest =>
            conversion mem second (args arg) ++ expand mem args rest (arg + (takes second).toNat)
      else first :: expand mem args rest arg

/-- Each `%` that starts a directive has a character after it. -/
def Complete : List UInt8 → Prop
  | [] => True
  | first :: rest =>
      if first = PERCENT then
        match rest with
        | [] => False
        | _ :: rest => Complete rest
      else Complete rest

/-- The arguments that `%s` directives take. -/
def strings (args : Nat → UInt32) : List UInt8 → Nat → List UInt32
  | [], _ => []
  | first :: rest, arg =>
      if first = PERCENT then
        match rest with
        | [] => []
        | second :: rest =>
            (if second = LOWER_S then [args arg] else []) ++
              strings args rest (arg + (takes second).toNat)
      else strings args rest arg

section ordinary

variable {first : UInt8} (ordinary : first ≠ PERCENT) (rest : List UInt8)
include ordinary

theorem expand_ordinary (mem : Memory) (args : Nat → UInt32) (arg : Nat) :
    expand mem args (first :: rest) arg = first :: expand mem args rest arg := by
  cases rest with
  | nil => exact if_neg ordinary
  | cons second rest => exact if_neg ordinary

theorem complete_ordinary : Complete (first :: rest) ↔ Complete rest := by
  cases rest with
  | nil => exact iff_of_eq (if_neg ordinary)
  | cons second rest => exact iff_of_eq (if_neg ordinary)

theorem strings_ordinary (args : Nat → UInt32) (arg : Nat) :
    strings args (first :: rest) arg = strings args rest arg := by
  cases rest with
  | nil => exact if_neg ordinary
  | cons second rest => exact if_neg ordinary

end ordinary

/-- A string of these characters lies at `a`. -/
structure IsString (mem : Memory) (a : Nat) (text : List UInt8) : Prop where
  characters : ∀ k < text.length, text[k]? = some (mem (a + k)) ∧ mem (a + k) ≠ 0
  ends : mem (a + text.length) = 0

/-- The string and its NUL lie outside of the buffer. -/
def Clear (fstring a : Nat) (text : List UInt8) : Prop :=
  ∀ k ≤ text.length, a + k < fstring ∨ fstring + 400 ≤ a + k

instance (fstring a : Nat) (text : List UInt8) : Decidable (Clear fstring a text) :=
  inferInstanceAs (Decidable (∀ k, k ≤ text.length → _))

theorem cstrFrom_congr (mem mem' : Memory) (fuel a : Nat)
    (same : ∀ k ≤ (cstrFrom mem fuel a).length, mem' (a + k) = mem (a + k)) :
    cstrFrom mem' fuel a = cstrFrom mem fuel a := by
  induction fuel generalizing a with
  | zero => rfl
  | succ fuel ih =>
      have here := same 0 (Nat.zero_le _)
      rw [Nat.add_zero] at here
      rw [cstrFrom, cstrFrom, here]
      by_cases ends : mem a = 0
      · rw [if_pos ends, if_pos ends]
      · rw [if_neg ends, if_neg ends]
        congr 1
        apply ih
        intro k within
        have later := same (k + 1) (by rw [cstrFrom, if_neg ends, List.length_cons]; omega)
        rw [Nat.add_assoc, Nat.add_comm 1 k]
        exact later

theorem IsString.cstrFrom_eq {mem : Memory} {a : Nat} {text : List UInt8}
    (isString : IsString mem a text) (fuel : Nat) (room : text.length < fuel) :
    cstrFrom mem fuel a = text := by
  induction text generalizing a fuel with
  | nil =>
      obtain ⟨fuel, rfl⟩ := Nat.exists_eq_add_of_lt room
      exact if_pos isString.ends
  | cons first rest ih =>
      obtain ⟨fuel, rfl⟩ := Nat.exists_eq_succ_of_ne_zero (Nat.ne_zero_of_lt room)
      have here := isString.characters 0 (by simp)
      have same : first = mem a := by simpa using here.1
      have nonzero : mem a ≠ 0 := here.2
      have onward : IsString mem (a + 1) rest := by
        constructor
        · intro k inside
          have later := isString.characters (k + 1) (by simpa using inside)
          rw [List.getElem?_cons_succ, Nat.add_comm k 1, ← Nat.add_assoc] at later
          exact later
        · have ends := isString.ends
          rw [List.length_cons, Nat.add_comm rest.length 1, ← Nat.add_assoc] at ends
          exact ends
      rw [cstrFrom, if_neg nonzero, ih onward fuel (by simpa using room), same]

theorem IsString.cstr_eq {mem : Memory} {a : Nat} {text : List UInt8}
    (isString : IsString mem a text) (room : text.length < 2 ^ 32) : cstr mem a = text :=
  isString.cstrFrom_eq _ room

theorem cstr_storeList (a k : Nat) (text : List UInt8) (mem : Memory)
    (characters : ∀ character ∈ text, character ≠ 0) (inside : k ≤ text.length)
    (room : text.length < 2 ^ 32) : cstr (storeList a (text ++ [0]) mem) (a + k) = text.drop k := by
  have word (j : Nat) (within : j < text.length + 1) :
      (text ++ [0])[j]? = some (storeList a (text ++ [0]) mem (a + j)) :=
    storeList_inside a j _ mem (by simpa using within)
  refine IsString.cstr_eq ⟨?_, ?_⟩ (by rw [List.length_drop]; omega)
  · intro j within
    rw [List.length_drop] at within
    have here := word (k + j) (by omega)
    rw [List.getElem?_append_left (by omega)] at here
    rw [List.getElem?_drop, Nat.add_assoc]
    exact ⟨here, characters _ (List.mem_of_getElem? here)⟩
  · have last := word text.length (by omega)
    rw [List.getElem?_append_right (Nat.le_refl _), Nat.sub_self] at last
    rw [List.length_drop, Nat.add_assoc, Nat.add_sub_cancel' inside]
    simpa using last.symm

theorem skipZeros_eq (zero : Nat → Bool) (width : Nat) (digits : List Nat) (left j part : Nat)
    (agree : ∀ k, ∀ inside : k < digits.length, zero k = true ↔ digits[k] = 0)
    (room : j + left ≤ digits.length) :
    skipZeros zero width left j part = part + width * leadingZeros left (digits.drop j) := by
  induction left generalizing j part with
  | zero => simp [skipZeros, leadingZeros]
  | succ left ih =>
      have inside : j < digits.length := by omega
      rw [List.drop_eq_getElem_cons inside, skipZeros]
      by_cases isZero : zero j = true
      · rw [if_pos isZero, ih (j + 1) (part + width) (by omega), (agree j inside).mp isZero,
          leadingZeros, Nat.mul_succ]
        omega
      · have digit : digits[j] ≠ 0 := fun same => isZero ((agree j inside).mpr same)
        have noneZero : leadingZeros (left + 1) (digits[j] :: digits.drop (j + 1)) = 0 := by
          rw [leadingZeros]
          intro most rest _ same
          exact digit (List.cons.inj same).1
        rw [if_neg isZero, noneZero, Nat.mul_zero, Nat.add_zero]

def decimalDigit (d : Nat) : UInt8 := .ofNat (d + 0x30)

theorem decimalLoop_eq (fstring left j : Nat) (value divisor : UInt32) (mem : Memory)
    (bound : value.toNat < 10 ^ left)
    (power : ∀ less, left = less + 1 → divisor.toNat = 10 ^ less) :
    decimalLoop fstring left j value divisor mem =
      storeList (fstring + j) ((fixedDigits 10 left value.toNat).map decimalDigit) mem := by
  induction left generalizing j value divisor mem with
  | zero => rfl
  | succ left ih =>
      have weight := power left rfl
      have quotient : (value / divisor).toNat = value.toNat / 10 ^ left := by
        rw [UInt32.toNat_div, weight]
      have small : value.toNat / 10 ^ left < 10 := by
        rw [Nat.div_lt_iff_lt_mul (Nat.pow_pos (by decide)), ← Nat.pow_succ']
        exact bound
      have remainder : (value - value / divisor * divisor).toNat = value.toNat % 10 ^ left := by
        have split := Nat.div_add_mod' value.toNat (10 ^ left)
        have whole := value.toNat_lt
        have product : (value / divisor * divisor).toNat =
            value.toNat / 10 ^ left * 10 ^ left := by
          rw [UInt32.toNat_mul, quotient, weight, Nat.mod_eq_of_lt (by omega)]
        have less : value / divisor * divisor ≤ value := by
          rw [UInt32.le_iff_toNat_le, product]
          omega
        rw [UInt32.toNat_sub_of_le _ _ less, product]
        omega
      have digit : (value / divisor + 0x30).toUInt8 =
          decimalDigit (value.toNat / 10 ^ left % 10) := by
        rw [decimalDigit, Nat.mod_eq_of_lt small, ← quotient]
        apply UInt8.toNat_inj.mp
        simp [UInt32.toNat_toUInt8]
      rw [decimalLoop, ih (j + 1) _ _ _ ?_ ?_, remainder, fixedDigits_mod, digit, fixedDigits,
        List.map_cons, storeList, Nat.add_assoc]
      · rw [remainder]
        exact Nat.mod_lt _ (Nat.pow_pos (by decide))
      · rintro less rfl
        rw [UInt32.toNat_div, weight, Nat.pow_succ]
        exact Nat.mul_div_cancel _ (by decide)

theorem hexDigit_bits (value : UInt32) (left j : Nat) (eight : left + 1 + j = 8) :
    (((value >>> UInt32.ofNat (28 - 4 * j)) &&& 0xF) + 0x30).toUInt8 =
      decimalDigit (value.toNat / 16 ^ left % 16) := by
  have shift : (UInt32.ofNat (28 - 4 * j)).toNat % 32 = 4 * left := by
    rw [UInt32.toNat_ofNat', Nat.mod_eq_of_lt (by omega)]
    omega
  have nibble : ((value >>> UInt32.ofNat (28 - 4 * j)) &&& 0xF).toNat =
      value.toNat / 16 ^ left % 16 := by
    rw [UInt32.toNat_and, UInt32.toNat_shiftRight, shift, Nat.shiftRight_eq_div_pow, Nat.pow_mul]
    exact Nat.and_two_pow_sub_one_eq_mod _ 4
  rw [decimalDigit, ← nibble]
  apply UInt8.toNat_inj.mp
  simp [UInt32.toNat_toUInt8]
theorem hexDigit_ascii (d : Nat) (bound : d < 16) (upper : Bool) :
    (if decimalDigit d > 0x39 then
      decimalDigit d + 7 + (if upper then UPPER_X else LOWER_X) - UPPER_X
    else decimalDigit d) = hexDigit upper d := by
  interval_cases d <;> cases upper <;> rfl

theorem hexLoop_eq (fstring letter : Nat) (value : UInt32) (upper : Bool) (left j : Nat)
    (mem : Memory) (eight : left + j = 8) (apart : letter < fstring ∨ fstring + 8 ≤ letter)
    (reads : mem letter = if upper then UPPER_X else LOWER_X) :
    hexLoop fstring letter value left j mem =
      storeList (fstring + j) ((fixedDigits 16 left value.toNat).map (hexDigit upper)) mem := by
  induction left generalizing j mem with
  | zero => rfl
  | succ left ih =>
      have digit : (((value >>> UInt32.ofNat (28 - 4 * j)) &&& 0xF) + 0x30).toUInt8 =
          decimalDigit (value.toNat / 16 ^ left % 16) := hexDigit_bits value left j eight
      have bound : value.toNat / 16 ^ left % 16 < 16 := Nat.mod_lt _ (by decide)
      have other : letter ≠ fstring + j := by omega
      rw [hexLoop, digit]
      simp only [Function.update_self, Function.update_of_ne other, reads, Function.update_idem]
      have stored : (if decimalDigit (value.toNat / 16 ^ left % 16) > 0x39 then
            Function.update mem (fstring + j) (decimalDigit (value.toNat / 16 ^ left % 16) + 7 +
              (if upper then UPPER_X else LOWER_X) - UPPER_X)
          else Function.update mem (fstring + j) (decimalDigit (value.toNat / 16 ^ left % 16))) =
          Function.update mem (fstring + j) (hexDigit upper (value.toNat / 16 ^ left % 16)) := by
        rw [← hexDigit_ascii _ bound]
        split <;> rfl
      rw [stored, ih (j + 1) _ (by omega) ((Function.update_of_ne other ..).trans reads),
        fixedDigits, List.map_cons, storeList, Nat.add_assoc]

/-- What a directive does besides taking its argument: it uses the buffer and writes. -/
structure Printed (fstring : Nat) (s t : State) (text : List UInt8) : Prop where
  mem : ∀ a, a < fstring ∨ fstring + 400 ≤ a → t.mem a = s.mem a
  i : t.i = s.i
  arg : t.arg = s.arg
  written : t.written.flatten = s.written.flatten ++ text

theorem writeText_flatten (s : State) (text : List UInt8) :
    (s.writeText text).written.flatten = s.written.flatten ++ text := by
  simp [State.writeText]

theorem printChar_printed (fstring : Nat) (character : UInt8) (s : State) :
    Printed fstring s (printChar fstring character s)
      (if character = 0 then [] else [character]) where
  mem := by
    intro a outside
    have two : [character, 0].length = 2 := rfl
    exact storeList_outside fstring a [character, 0] s.mem (by omega)
  i := rfl
  arg := rfl
  written := by
    have text : cstr (storeList fstring [character, 0] s.mem) fstring =
        if character = 0 then [] else [character] := by
      by_cases nul : character = 0
      · rw [if_pos nul, nul]
        refine IsString.cstr_eq ⟨fun k inside => absurd inside k.not_lt_zero, ?_⟩ (by decide)
        have first := storeList_inside fstring 0 [(0 : UInt8), 0] s.mem (by decide)
        simpa using first.symm
      · rw [if_neg nul]
        exact cstr_storeList fstring 0 [character] s.mem (by simpa using nul) (by simp) (by simp)
    rw [← text]
    exact writeText_flatten _ _

theorem write_printed (fstring k : Nat) (text : List UInt8) (s : State)
    (characters : ∀ character ∈ text, character ≠ 0) (inside : k ≤ text.length)
    (room : text.length < 400) :
    Printed fstring s ({ s with mem := storeList fstring (text ++ [0]) s.mem, part := fstring + k
      }.write (fstring + k)) (text.drop k) where
  mem := by
    intro a outside
    apply storeList_outside
    rw [List.length_append, List.length_singleton]
    omega
  i := rfl
  arg := rfl
  written := by
    rw [← cstr_storeList fstring k text s.mem characters inside (by omega)]
    exact writeText_flatten _ _

theorem decimalDigit_eq_zero (d : Nat) (bound : d < 10) : decimalDigit d = ZERO ↔ d = 0 := by
  interval_cases d <;> decide

theorem decimalDigit_ne_nul (d : Nat) (bound : d < 10) : decimalDigit d ≠ 0 := by
  interval_cases d <;> decide

theorem hexDigit_eq_zero (upper : Bool) (d : Nat) (bound : d < 16) :
    hexDigit upper d = ZERO ↔ d = 0 := by
  interval_cases d <;> cases upper <;> decide

theorem hexDigit_ne_nul (upper : Bool) (d : Nat) (bound : d < 16) : hexDigit upper d ≠ 0 := by
  interval_cases d <;> cases upper <;> decide

theorem printUnsigned_printed (fstring : Nat) (value : UInt32) (s : State) :
    Printed fstring s (printUnsigned fstring value s) (decimal value) := by
  set digits := fixedDigits 10 10 value.toNat with shape
  have length : digits.length = 10 := fixedDigits_length ..
  have small (d : Nat) (member : d ∈ digits) : d < 10 := fixedDigits_lt 10 10 _ d (by decide) member
  have bound : value.toNat < 10 ^ 10 := lt_of_lt_of_le value.toNat_lt (by decide)
  have power : ∀ less, 10 = less + 1 → (1000000000 : UInt32).toNat = 10 ^ less := by
    rintro less same
    obtain rfl : less = 9 := by omega
    rfl
  have loop : decimalLoop fstring 10 0 value 1000000000 s.mem =
      storeList fstring (digits.map decimalDigit) s.mem :=
    decimalLoop_eq fstring 10 0 value 1000000000 s.mem bound power
  have stored : Function.update (decimalLoop fstring 10 0 value 1000000000 s.mem) (fstring + 10) 0 =
      storeList fstring (digits.map decimalDigit ++ [0]) s.mem := by
    rw [loop, storeList_snoc, List.length_map, length]
  set mem := storeList fstring (digits.map decimalDigit ++ [0]) s.mem with result
  have agree (k : Nat) (inside : k < digits.length) :
      (mem (fstring + k) == ZERO) = true ↔ digits[k] = 0 := by
    have word := storeList_inside fstring k (digits.map decimalDigit ++ [0]) s.mem (by simp; omega)
    rw [List.getElem?_append_left (by simpa using inside), List.getElem?_map,
      List.getElem?_eq_getElem inside] at word
    rw [beq_iff_eq, result, ← Option.some.inj word]
    exact decimalDigit_eq_zero _ (small _ (List.getElem_mem inside))
  have skips : skipZeros (fun j => mem (fstring + j) == ZERO) 1 9 0 fstring =
      fstring + leadingZeros 9 digits := by
    rw [skipZeros_eq _ 1 digits 9 0 fstring agree (by omega), Nat.one_mul, List.drop_zero]
  have whole : printUnsigned fstring value s =
      { s with
        mem := mem
        part := fstring + leadingZeros 9 digits }.write (fstring + leadingZeros 9 digits) := by
    rw [← skips]
    simp only [printUnsigned, State.store, stored]
  have text : (digits.map decimalDigit).drop (leadingZeros 9 digits) = decimal value := by
    rw [← List.map_drop, fixedDigits_drop 10 9 _ (by decide) bound]
    rfl
  rw [whole, ← text]
  apply write_printed
  · intro character member
    obtain ⟨d, inside, rfl⟩ := List.mem_map.mp member
    exact decimalDigit_ne_nul d (small d inside)
  · rw [List.length_map]
    exact leadingZeros_le 9 digits
  · rw [List.length_map, length]
    decide

theorem printHex_printed (fstring letter : Nat) (value : UInt32) (upper : Bool) (s : State)
    (apart : letter < fstring ∨ fstring + 400 ≤ letter)
    (reads : s.mem letter = if upper then UPPER_X else LOWER_X) :
    Printed fstring s (printHex fstring letter value s)
      ([ZERO, LOWER_X] ++ hexadecimal upper value) := by
  set bytes := fixedDigits 256 4 value.toNat with shape
  have length : bytes.length = 4 := fixedDigits_length ..
  have small (d : Nat) (member : d ∈ bytes) : d < 256 :=
    fixedDigits_lt 256 4 _ d (by decide) member
  have bound : value.toNat < 256 ^ 4 := lt_of_lt_of_le value.toNat_lt (by decide)
  set text := bytes.flatMap fun d => [hexDigit upper (d / 16), hexDigit upper (d % 16)] with chars
  have digits : (fixedDigits 16 8 value.toNat).map (hexDigit upper) = text := by
    have pairs := fixedDigits_pairs 16 4 value.toNat
    rw [pairs, List.map_flatMap]
    rfl
  have eight : text.length = 8 := by rw [← digits, List.length_map, fixedDigits_length]
  have stored : Function.update (hexLoop fstring letter value 8 0 s.mem) (fstring + 8) 0 =
      storeList fstring (text ++ [0]) s.mem := by
    rw [hexLoop_eq fstring letter value upper 8 0 s.mem rfl (by omega) reads, digits,
      storeList_snoc, eight]
    rfl
  set mem := storeList fstring (text ++ [0]) s.mem with result
  have word (k : Nat) (inside : k < 8) : text[k]? = some (mem (fstring + k)) := by
    have here := storeList_inside fstring k (text ++ [0]) s.mem (by simp; omega)
    rw [List.getElem?_append_left (by omega)] at here
    exact here
  have agree (k : Nat) (inside : k < bytes.length) :
      (mem (fstring + 2 * k) == ZERO && mem (fstring + 2 * k + 1) == ZERO) = true ↔
        bytes[k] = 0 := by
    have byte := small _ (List.getElem_mem inside)
    obtain ⟨high, low⟩ := pairs_getElem (fun d => hexDigit upper (d / 16))
      (fun d => hexDigit upper (d % 16)) bytes k inside
    have first := Option.some.inj ((word (2 * k) (by omega)).symm.trans high)
    have second := Option.some.inj ((word (2 * k + 1) (by omega)).symm.trans low)
    rw [← Nat.add_assoc] at second
    rw [Bool.and_eq_true, beq_iff_eq, beq_iff_eq, first, second,
      hexDigit_eq_zero upper _ (by omega), hexDigit_eq_zero upper _ (by omega)]
    omega
  have skips : skipZeros
      (fun j => mem (fstring + 2 * j) == ZERO && mem (fstring + 2 * j + 1) == ZERO) 2 3 0 fstring =
      fstring + 2 * leadingZeros 3 bytes := by
    rw [skipZeros_eq _ 2 bytes 3 0 fstring agree (by omega), List.drop_zero]
  have whole : printHex fstring letter value s =
      { s.writeText [ZERO, LOWER_X] with
        mem := mem
        part := fstring + 2 * leadingZeros 3 bytes }.write (fstring + 2 * leadingZeros 3 bytes) := by
    rw [← skips]
    simp only [printHex, State.store, State.writeText, stored]
  have rest : text.drop (2 * leadingZeros 3 bytes) = hexadecimal upper value := by
    rw [chars, pairs_drop, fixedDigits_drop 256 3 _ (by decide) bound]
    rfl
  have printed := write_printed fstring (2 * leadingZeros 3 bytes) text
    (s.writeText [ZERO, LOWER_X]) ?_ ?_ (by omega)
  · rw [whole, ← rest]
    refine ⟨printed.mem, rfl, rfl, ?_⟩
    refine printed.written.trans ?_
    rw [writeText_flatten, List.append_assoc]
  · intro character member
    obtain ⟨d, inside, listed⟩ := List.mem_flatMap.mp member
    have byte := small d inside
    rcases List.mem_cons.mp listed with rfl | last
    · exact hexDigit_ne_nul upper _ (by omega)
    · rw [List.mem_singleton.mp last]
      exact hexDigit_ne_nul upper _ (by omega)
  · have most := leadingZeros_le 3 bytes
    omega

theorem directive_printed (string fstring : Nat) (args : Nat → UInt32) (mem : Memory) (s : State)
    (character : UInt8) (reads : s.mem (string + s.i) = character) (nonzero : character ≠ 0)
    (apart : string + s.i < fstring ∨ fstring + 400 ≤ string + s.i)
    (argument : character = LOWER_S → cstr s.mem (args s.arg).toNat = cstr mem (args s.arg).toNat) :
    ∃ arg, arg = s.arg + (takes character).toNat ∧
      Printed fstring { s with arg := arg } (directive string fstring args s)
        (conversion mem character (args s.arg)) := by
  rw [directive, reads]
  by_cases percent : character = PERCENT
  · rw [if_pos percent, conversion, if_pos percent, percent]
    exact ⟨_, rfl, printChar_printed fstring PERCENT s⟩
  rw [if_neg percent, conversion, if_neg percent]
  by_cases unsigned : character = LOWER_U
  · rw [if_pos unsigned, if_pos unsigned, unsigned]
    exact ⟨_, rfl, printUnsigned_printed fstring (args s.arg) s.next⟩
  rw [if_neg unsigned, if_neg unsigned]
  by_cases lower : character = LOWER_X
  · rw [if_pos (.inl lower), if_pos lower, lower]
    refine ⟨_, rfl, printHex_printed fstring _ (args s.arg) false s.next apart ?_⟩
    exact reads.trans lower
  by_cases upper : character = UPPER_X
  · rw [if_pos (.inr upper), if_neg lower, if_pos upper, upper]
    refine ⟨_, rfl, printHex_printed fstring _ (args s.arg) true s.next apart ?_⟩
    exact reads.trans upper
  rw [if_neg (by simp [lower, upper]), if_neg lower, if_neg upper]
  by_cases char : character = LOWER_C
  · rw [if_pos char, if_pos char, char]
    exact ⟨_, rfl, printChar_printed fstring _ s.next⟩
  rw [if_neg char, if_neg char]
  by_cases text : character = LOWER_S
  · rw [if_pos text, if_pos text, text]
    refine ⟨_, rfl, fun _ _ => rfl, rfl, rfl, ?_⟩
    rw [← argument text]
    exact writeText_flatten _ _
  · rw [if_neg text, if_neg text]
    have takesNone : (takes character).toNat = 0 := by
      simp [takes, unsigned, lower, upper, char, text]
    have printed := printChar_printed fstring character (s.writeText [PERCENT])
    rw [if_neg nonzero] at printed
    refine ⟨s.arg, by rw [takesNone]; rfl, printed.mem, printed.i, printed.arg, ?_⟩
    refine printed.written.trans ?_
    rw [writeText_flatten, List.append_assoc]
    rfl

theorem cstr_clear (fstring a : Nat) (mem mem' : Memory) (clear : Clear fstring a (cstr mem a))
    (same : ∀ a, a < fstring ∨ fstring + 400 ≤ a → mem' a = mem a) : cstr mem' a = cstr mem a :=
  cstrFrom_congr mem mem' _ a fun k within => same _ (clear k within)

section loop

variable {mem : Memory} {string fstring : Nat} {text : List UInt8} {args : Nat → UInt32}

/-- Between two directives: `lit` is what has been passed since the last of them. -/
structure Between (mem : Memory) (string fstring : Nat) (text : List UInt8) (s : State)
    (done lit rest : List UInt8) : Prop where
  split : text = done ++ lit ++ rest
  part : s.part = string + done.length
  i : s.i = (done ++ lit).length
  mem : ∀ a, a < fstring ∨ fstring + 400 ≤ a → s.mem a = mem a

theorem between_start (mem : Memory) (string fstring : Nat) (text : List UInt8) :
    Between mem string fstring text ⟨mem, string, 0, 0, []⟩ [] [] text :=
  ⟨rfl, rfl, rfl, fun _ _ => rfl⟩

theorem Between.character {s : State} {done lit rest : List UInt8} {first : UInt8}
    (between : Between mem string fstring text s done lit (first :: rest))
    (isString : IsString mem string text) (clear : Clear fstring string text) :
    s.mem (string + s.i) = first ∧ first ≠ 0 ∧
      (string + s.i < fstring ∨ fstring + 400 ≤ string + s.i) := by
  have length := congrArg List.length between.split
  rw [List.length_append, ← between.i, List.length_cons] at length
  have outside := clear s.i (by omega)
  obtain ⟨here, nonzero⟩ := isString.characters s.i (by omega)
  have found : text[s.i]? = some first := by
    rw [between.split, List.getElem?_append_right (by rw [between.i]), between.i]
    simp
  have same : mem (string + s.i) = first := Option.some.inj (here.symm.trans found)
  rw [between.mem _ outside, ← same]
  exact ⟨rfl, nonzero, outside⟩

theorem Between.end_ {s : State} {done lit : List UInt8}
    (between : Between mem string fstring text s done lit [])
    (isString : IsString mem string text) (clear : Clear fstring string text) :
    s.i = text.length ∧ s.mem (string + s.i) = 0 := by
  have all : s.i = text.length := by rw [between.split, List.append_nil, between.i]
  refine ⟨all, ?_⟩
  rw [between.mem _ (clear s.i (by omega)), all]
  exact isString.ends

theorem Between.literal {s : State} {done lit rest : List UInt8} {mem' : Memory}
    (between : Between mem string fstring text s done lit rest)
    (isString : IsString mem string text) (clear : Clear fstring string text)
    (room : text.length < 2 ^ 32) (nul : mem' (string + s.i) = 0)
    (same : ∀ a, a ≠ string + s.i → mem' a = s.mem a) : cstr mem' s.part = lit := by
  have length := congrArg List.length between.split
  have position := between.i
  simp only [List.length_append] at length position
  refine IsString.cstr_eq ⟨?_, ?_⟩ (by omega)
  · intro k inside
    obtain ⟨here, nonzero⟩ := isString.characters (done.length + k) (by omega)
    have outside := clear (done.length + k) (by omega)
    rw [between.part, Nat.add_assoc, same _ (by omega), between.mem _ outside]
    refine ⟨?_, nonzero⟩
    rw [← here, between.split, List.append_assoc, List.getElem?_append_right (by omega),
      Nat.add_sub_cancel_left, List.getElem?_append_left inside]
  · rw [between.part, Nat.add_assoc, ← position]
    exact nul

theorem Between.passed (args : Nat → UInt32) {s : State} {done lit rest : List UInt8}
    {first : UInt8} (between : Between mem string fstring text s done lit (first :: rest))
    (isString : IsString mem string text) (clear : Clear fstring string text)
    (ordinary : first ≠ PERCENT) :
    step string fstring args s = { s with i := s.i + 1 } ∧
      Between mem string fstring text { s with i := s.i + 1 } done (lit ++ [first]) rest := by
  obtain ⟨here, _, _⟩ := between.character isString clear
  refine ⟨if_neg (by rw [here]; exact ordinary), ?_, between.part, ?_, between.mem⟩
  · rw [between.split]
    simp
  · have position := between.i
    simp only [List.length_append, List.length_singleton] at position ⊢
    omega

/-- What `part` becomes a string of when the `%` is overwritten, and the directive that is
then served. -/
theorem Between.step_eq (args : Nat → UInt32) {s : State} {done lit rest : List UInt8}
    (between : Between mem string fstring text s done lit (PERCENT :: rest))
    (isString : IsString mem string text) (clear : Clear fstring string text)
    (room : text.length < 2 ^ 32) (ready : State)
    (shape : ready = { s with written := s.written ++ [lit], i := s.i + 1 }) :
    step string fstring args s =
      { directive string fstring args ready with
        part := string + (directive string fstring args ready).i + 1
        i := (directive string fstring args ready).i + 1 } := by
  obtain ⟨here, _, _⟩ := between.character isString clear
  have written : cstr (Function.update s.mem (string + s.i) 0) s.part = lit :=
    between.literal isString clear room (Function.update_self ..)
      fun a other => Function.update_of_ne other ..
  have restored : Function.update (Function.update s.mem (string + s.i) 0) (string + s.i) PERCENT =
      s.mem := by
    rw [Function.update_idem, ← here, Function.update_eq_self]
  rw [step, if_pos here]
  simp only [State.store, State.write, State.writeText, written, restored, shape]

theorem Between.opened {s : State} {done lit rest : List UInt8}
    (between : Between mem string fstring text s done lit (PERCENT :: rest)) :
    Between mem string fstring text { s with i := s.i + 1 } done (lit ++ [PERCENT]) rest := by
  refine ⟨?_, between.part, ?_, between.mem⟩
  · rw [between.split]
    simp
  · have position := between.i
    simp only [List.length_append, List.length_singleton] at position ⊢
    omega

theorem Between.closed {s t : State} {done lit rest printed : List UInt8} {second : UInt8}
    (between : Between mem string fstring text s done lit (PERCENT :: second :: rest))
    (ready : State) (index : ready.i = s.i + 1) (same : ready.mem = s.mem)
    (kept : Printed fstring ready t printed) :
    Between mem string fstring text { t with part := string + t.i + 1, i := t.i + 1 }
      (done ++ lit ++ [PERCENT, second]) [] rest := by
  have position := between.i
  have unmoved : t.i = s.i + 1 := kept.i.trans index
  refine ⟨?_, ?_, ?_, ?_⟩
  · rw [between.split]
    simp
  · simp only [List.length_append, List.length_cons, List.length_nil] at position ⊢
    omega
  · simp only [List.length_append, List.length_cons, List.length_nil] at position ⊢
    omega
  · intro a other
    exact (kept.mem a other).trans ((congrFun same a).trans (between.mem a other))

/-- The text before the directive is written, the `%` is put back, and the directive is
served. -/
theorem Between.served {s : State} {done lit rest : List UInt8} {second : UInt8}
    (between : Between mem string fstring text s done lit (PERCENT :: second :: rest))
    (isString : IsString mem string text) (clear : Clear fstring string text)
    (room : text.length < 2 ^ 32)
    (argument : second = LOWER_S →
      Clear fstring (args s.arg).toNat (cstr mem (args s.arg).toNat)) :
    Between mem string fstring text (step string fstring args s)
        (done ++ lit ++ [PERCENT, second]) [] rest ∧
      (step string fstring args s).arg = s.arg + (takes second).toNat ∧
      (step string fstring args s).written.flatten =
        s.written.flatten ++ lit ++ conversion mem second (args s.arg) := by
  set ready : State := { s with written := s.written ++ [lit], i := s.i + 1 } with shape
  obtain ⟨reads, nonzero, outside⟩ := between.opened.character isString clear
  obtain ⟨arg, taken, printed⟩ := directive_printed string fstring args mem ready second reads
    nonzero outside fun text => cstr_clear fstring _ mem _ (argument text) between.mem
  rw [between.step_eq args isString clear room ready shape]
  refine ⟨between.closed { ready with arg := arg } rfl rfl printed, printed.arg.trans taken, ?_⟩
  refine printed.written.trans ?_
  simp [shape]

/-- What the loop and the last `write` make of the rest of the format. -/
structure Rendered (mem : Memory) (string fstring : Nat) (args : Nat → UInt32) (s : State)
    (fuel : Nat) (printed : List UInt8) (t : State) : Prop where
  ran : loop string fstring args fuel s = some t
  mem : ∀ a, a < fstring ∨ fstring + 400 ≤ a → t.mem a = mem a
  written : (t.write t.part).written.flatten = s.written.flatten ++ printed

theorem Between.rendered {s : State} {done lit rest : List UInt8} {arg fuel : Nat}
    (isString : IsString mem string text) (clear : Clear fstring string text)
    (room : text.length < 2 ^ 32) (between : Between mem string fstring text s done lit rest)
    (taken : s.arg = arg) (complete : Complete rest)
    (arguments : ∀ p ∈ strings args rest arg, Clear fstring p.toNat (cstr mem p.toNat))
    (enough : rest.length < fuel) :
    ∃ t, Rendered mem string fstring args s fuel (lit ++ expand mem args rest arg) t := by
  induction rest, arg using expand.induct generalizing s done lit fuel with
  | case1 arg =>
      obtain ⟨fuel, rfl⟩ := Nat.exists_eq_succ_of_ne_zero (Nat.ne_zero_of_lt enough)
      obtain ⟨_, ends⟩ := between.end_ isString clear
      refine ⟨s, if_pos ends, between.mem, ?_⟩
      rw [State.write, between.literal isString clear room ends fun _ _ => rfl, expand,
        List.append_nil]
      exact writeText_flatten s lit
  | case2 => exact complete.elim
  | case3 arg second rest ih =>
      obtain ⟨fuel, rfl⟩ := Nat.exists_eq_succ_of_ne_zero (Nat.ne_zero_of_lt enough)
      obtain ⟨here, nonzero, _⟩ := between.character isString clear
      have listed : strings args (PERCENT :: second :: rest) arg =
          (if second = LOWER_S then [args arg] else []) ++
            strings args rest (arg + (takes second).toNat) := if_pos rfl
      rw [listed] at arguments
      obtain ⟨onward, next, written⟩ := between.served isString clear room fun isText => by
        rw [taken]
        exact arguments _ (List.mem_append_left _ (by rw [if_pos isText]; exact List.mem_cons_self))
      obtain ⟨t, rendered⟩ := @ih _ _ _ fuel onward (by rw [next, taken]) complete
        (fun p member => arguments p (List.mem_append_right _ member))
        (by simp only [List.length_cons] at enough; omega)
      refine ⟨t, ?_, rendered.mem, ?_⟩
      · rw [loop, if_neg (by rw [here]; exact nonzero)]
        exact rendered.ran
      · rw [rendered.written, written, taken]
        have expands : expand mem args (PERCENT :: second :: rest) arg =
            conversion mem second (args arg) ++
              expand mem args rest (arg + (takes second).toNat) := if_pos rfl
        rw [expands, List.nil_append]
        simp only [List.append_assoc]
  | case4 first rest arg ordinary ih =>
      obtain ⟨fuel, rfl⟩ := Nat.exists_eq_succ_of_ne_zero (Nat.ne_zero_of_lt enough)
      obtain ⟨here, nonzero, _⟩ := between.character isString clear
      obtain ⟨steps, onward⟩ := between.passed args isString clear ordinary
      rw [strings_ordinary ordinary] at arguments
      rw [complete_ordinary ordinary] at complete
      obtain ⟨t, rendered⟩ := @ih _ _ _ fuel onward taken complete arguments
        (by rw [List.length_cons] at enough; omega)
      refine ⟨t, ?_, rendered.mem, ?_⟩
      · rw [loop, if_neg (by rw [here]; exact nonzero), steps]
        exact rendered.ran
      · rw [rendered.written, expand_ordinary ordinary]
        simp

end loop

/-- The strings written make up the expansion, and outside of its buffer `printf` leaves
memory as it was. -/
theorem printf_renders (heap heap' : Malloc.Mem) (fstring : UInt32) (mem : Memory) (string : Nat)
    (args : Nat → UInt32) (text : List UInt8) (isString : IsString mem string text)
    (fits : string + text.length < 2 ^ 32) (complete : Complete text)
    (buffer : Malloc.malloc heap 400 = some (heap', fstring))
    (clear : Clear fstring.toNat string text)
    (arguments : ∀ p ∈ strings args text 0, Clear fstring.toNat p.toNat (cstr mem p.toNat)) :
    ∃ outcome, printf heap mem string args = some outcome ∧
      outcome.written.flatten = expand mem args text 0 ∧ IsString outcome.mem string text ∧
      ∀ a, a < fstring.toNat ∨ fstring.toNat + 400 ≤ a → outcome.mem a = mem a := by
  have start := between_start mem string fstring.toNat text
  obtain ⟨t, rendered⟩ := @Between.rendered mem string fstring.toNat text args _ [] [] text 0
    (2 ^ 32) isString clear (by omega) start rfl complete arguments (by omega)
  refine ⟨⟨Malloc.free heap' fstring, t.mem, (t.write t.part).written⟩, ?_, rendered.written, ?_,
    rendered.mem⟩
  · rw [printf, buffer, Option.bind_eq_bind, Option.bind_some]
    simp only [rendered.ran, Option.bind_eq_bind, Option.bind_some]
    rfl
  · constructor
    · intro k inside
      have same := rendered.mem _ (clear k (by omega))
      have here := isString.characters k inside
      rw [← same] at here
      exact here
    · exact (rendered.mem _ (clear _ le_rfl)).trans isString.ends

theorem buffer_splitFits (s : Malloc.State) : Malloc.SplitFits s (.malloc 400) := by
  intro block _ splits
  have rounded : Malloc.roundUp 400 = 400 := by decide
  have half := (Malloc.lt_half _ _).mp splits
  rw [rounded] at half ⊢
  simp only [UInt32.reduceToNat] at half ⊢
  omega

theorem buffer_recorded {s : Malloc.State} {blocks : Malloc.Blocks} (inv : Malloc.Tiled s blocks)
    (b : UInt32) (found : Malloc.firstFit s.mem (Malloc.roundUp 400) = some b) :
    400 ≤ Malloc.recorded (Malloc.place s.mem b (Malloc.roundUp 400)) b := by
  have rounded : (Malloc.roundUp 400).toNat = 400 := by decide
  have multiple := Malloc.roundUp_aligned 400
  have room := buffer_splitFits s b found
  obtain ⟨_, _, ⟨n, target⟩, _⟩ := Malloc.holds_place s.mem _ multiple blocks _ Malloc.heap b
    inv.fits inv.holds found room
  obtain ⟨word, aligned⟩ := Malloc.holds_word s.mem blocks Malloc.heap b n false inv.holds target
  rw [Bool.toNat_false, Nat.add_zero] at word
  have bounds := Malloc.starts_bounds blocks Malloc.heap b n false inv.fits target
  have fits := inv.fits
  have fit := Malloc.search_found s.mem (Malloc.roundUp 400) _ Malloc.heap b found
  rw [not_or, UInt32.not_lt, UInt32.le_iff_toNat_le] at fit
  rw [Malloc.place_recorded s.mem b _ (by omega) multiple (by omega) room]
  split <;> omega

/-- A text in a block that is in use is clear of the buffer, provided that the splits of
the heap so far had room for their second descriptors. -/
theorem buffer_clear {mem : Malloc.Mem} {s : Malloc.State}
    (run : Run Malloc.step Malloc.SplitFits (Malloc.initial mem) s) (heap' : Malloc.Mem)
    (fstring p : UInt32) (buffer : Malloc.malloc s.mem 400 = some (heap', fstring))
    (live : p ∈ s.live) (a : Nat) (text : List UInt8) (low : p.toNat ≤ a)
    (high : a + text.length < p.toNat + Malloc.recorded heap' (p - 12)) :
    Clear fstring.toNat a text := by
  obtain ⟨blocks, inv, _⟩ := Malloc.run_tiled run
  obtain ⟨b, found, pair⟩ := Option.map_eq_some_iff.mp buffer
  obtain ⟨rfl, rfl⟩ := Prod.mk.inj pair
  have after := (Malloc.place_tiled inv (buffer_splitFits s) found).1
  have size := buffer_recorded inv b found
  have back : b + 12 - 12 = b := UInt32.add_sub_cancel b 12
  set heap' := Malloc.place s.mem b (Malloc.roundUp 400) with shape
  have apart : Malloc.Apart (b + 12).toNat (Malloc.recorded heap' (b + 12 - 12)) p.toNat
      (Malloc.recorded heap' (p - 12)) :=
    List.rel_of_pairwise_cons (Malloc.tiled_disjoint _ _ after).payloads live
  rw [Malloc.Apart, back] at apart
  intro k within
  omega

/-- `n=%u %x%X%c%s%%%k` -/
def sampleFormat : List UInt8 :=
  [0x6e, 0x3d, 0x25, 0x75, 0x20, 0x25, 0x78, 0x25, 0x58, 0x25, 0x63, 0x25, 0x73, 0x25, 0x25, 0x25,
    0x6b]

def sampleMemory (a : Nat) : UInt8 :=
  if a < 0x3000 then (sampleFormat[a - 0x2000]?).getD 0 else ([0x79, 0x65][a - 0x3000]?).getD 0

/-- 1207, 0x0f, 0xABCD, NUL and the string `ye`. -/
def sampleArgs (n : Nat) : UInt32 := ([1207, 0xf, 0xabcd, 0x100, 0x3000][n]?).getD 0

theorem sample_rendered :
    ∃ outcome, printf (Malloc.initLibc fun _ => 0) sampleMemory 0x2000 sampleArgs = some outcome ∧
      outcome.written.flatten =
        [0x6e, 0x3d, 0x31, 0x32, 0x30, 0x37, 0x20, 0x30, 0x78, 0x30, 0x66, 0x30, 0x78, 0x41, 0x42,
          0x43, 0x44, 0x79, 0x65, 0x25, 0x25, 0x6b] := by
  have buffer : Malloc.malloc (Malloc.initLibc fun _ => 0) 400 = some (_, 0x1000000c) := rfl
  have passed : strings sampleArgs sampleFormat 0 = [0x3000] := by decide +kernel
  have apart : ∀ p ∈ strings sampleArgs sampleFormat 0,
      Clear (0x1000000c : UInt32).toNat p.toNat (cstr sampleMemory p.toNat) := by
    intro p member
    rw [passed] at member
    rw [List.mem_singleton.mp member]
    decide +kernel
  obtain ⟨outcome, ran, written, _⟩ :=
    printf_renders _ _ 0x1000000c sampleMemory 0x2000 sampleArgs sampleFormat
      ⟨by decide +kernel, by decide +kernel⟩ (by decide) trivial buffer
      (by decide +kernel) apart
  exact ⟨outcome, ran, written.trans (by decide +kernel)⟩

end TitorOS.Barrel.Printf
