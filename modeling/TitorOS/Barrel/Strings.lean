import TitorOS.Barrel.Strtok
import TitorOS.Barrel.Tmpfs

/-! `strcmp` and `strcat` of `libc/string.c` on the bytes of memory. -/

namespace TitorOS.Barrel.Strings

open TitorOS.Lib TitorOS.Barrel.Printf TitorOS.Barrel.Strtok

/-- The loop of `strcmp`, whose index is sixteen bits wide. `none` is one that never ends. -/
def strcmpFrom (mem : Memory) (string1 string2 : Nat) : Nat → UInt16 → Option UInt8
  | 0, _ => none
  | fuel + 1, i =>
      if mem (string1 + i.toNat) = 0 ∧ mem (string2 + i.toNat) = 0 then some 0
      else if mem (string1 + i.toNat) ≠ mem (string2 + i.toNat) then some 1
      else strcmpFrom mem string1 string2 fuel (i + 1)

def strcmp (mem : Memory) (string1 string2 : Nat) : Option UInt8 :=
  strcmpFrom mem string1 string2 (2 ^ 32) 0

/-- `dest` and `src` are the source's `to` and `from`. -/
def strcat (mem : Memory) (dest src : Nat) : Option Memory :=
  Tmpfs.strcpy Tmpfs.ADDRESSES (dest + strlen mem dest) src mem

section strcmp

variable {mem : Memory} {string1 string2 : Nat} {text1 text2 : List UInt8}

theorem strcmpFrom_round {fuel i : Nat} (small : i < 65536)
    (same : mem (string1 + i) = mem (string2 + i)) (inside : mem (string1 + i) ≠ 0) :
    strcmpFrom mem string1 string2 (fuel + 1) (.ofNat i) =
      strcmpFrom mem string1 string2 fuel (.ofNat ((i + 1) % 65536)) := by
  have index : (UInt16.ofNat i).toNat = i := by
    rw [UInt16.toNat_ofNat', Nat.mod_eq_of_lt small]
  rw [strcmpFrom, index, if_neg fun both => inside both.1, if_neg (not_not_intro same)]
  congr 1
  apply UInt16.toNat_inj.mp
  rw [UInt16.toNat_add, index, UInt16.toNat_ofNat', Nat.mod_mod]
  rfl

theorem strcmpFrom_rounds (mem : Memory) (string1 string2 k fuel : Nat) (small : k < 65536)
    (same : ∀ j < k, mem (string1 + j) = mem (string2 + j) ∧ mem (string1 + j) ≠ 0) :
    strcmpFrom mem string1 string2 (fuel + k) 0 =
      strcmpFrom mem string1 string2 fuel (.ofNat k) := by
  induction k generalizing fuel with
  | zero => rfl
  | succ k ih =>
      rcases same k (Nat.lt_succ_self k) with ⟨equal, inside⟩
      have before := ih (fuel + 1) (by omega) fun j below => same j (by omega)
      rw [Nat.add_right_comm, Nat.add_assoc] at before
      rw [before, strcmpFrom_round (by omega) equal inside, Nat.mod_eq_of_lt small]

theorem strcmpFrom_never
    (same : ∀ j < 65536, mem (string1 + j) = mem (string2 + j) ∧ mem (string1 + j) ≠ 0)
    (fuel i : Nat) (small : i < 65536) : strcmpFrom mem string1 string2 fuel (.ofNat i) = none := by
  induction fuel generalizing i with
  | zero => rfl
  | succ fuel ih =>
      rcases same i small with ⟨equal, inside⟩
      rw [strcmpFrom_round small equal inside]
      exact ih _ (Nat.mod_lt _ (by decide))

theorem agree_inside {d : Nat} (agree : ∀ j < d, text1[j]? = text2[j]?)
    (differ : text1[d]? ≠ text2[d]?) : d ≤ text1.length ∧ d ≤ text2.length := by
  by_contra outside
  have short : text1.length < d ∨ text2.length < d := by omega
  have ends : min text1.length text2.length < d := by omega
  have here := agree _ ends
  apply differ
  rcases Nat.le_total text1.length text2.length with order | order
  · rw [Nat.min_eq_left order, List.getElem?_eq_none le_rfl] at here
    have second := List.getElem?_eq_none_iff.mp here.symm
    rw [List.getElem?_eq_none (by omega), List.getElem?_eq_none (by omega)]
  · rw [Nat.min_eq_right order, List.getElem?_eq_none (l := text2) le_rfl] at here
    have first := List.getElem?_eq_none_iff.mp here
    rw [List.getElem?_eq_none (by omega), List.getElem?_eq_none (by omega)]

theorem same_bytes (first : IsString mem string1 text1) (second : IsString mem string2 text2) {j : Nat}
    (below1 : j < text1.length) (below2 : j < text2.length) (agree : text1[j]? = text2[j]?) :
    mem (string1 + j) = mem (string2 + j) ∧ mem (string1 + j) ≠ 0 := by
  rcases first.characters j below1 with ⟨here1, inside⟩
  rw [here1, (second.characters j below2).1] at agree
  exact ⟨Option.some.inj agree, inside⟩

/-- What `strcmp` returns, if it does: it only sees the first 65536 characters, and does not come
to an end if these are all there and the same. -/
theorem strcmp_eq (first : IsString mem string1 text1) (second : IsString mem string2 text2) :
    strcmp mem string1 string2 =
      if text1.take 65536 = text2.take 65536 then
        if text1.length < 65536 then some 0 else none
      else some 1 := by
  rw [strcmp]
  by_cases agree : text1.take 65536 = text2.take 65536
  · rw [if_pos agree]
    have places (j : Nat) (small : j < 65536) : text1[j]? = text2[j]? := by
      rw [← List.getElem?_take_of_lt small, agree, List.getElem?_take_of_lt small]
    have lengths := congrArg List.length agree
    rw [List.length_take, List.length_take] at lengths
    split
    · rename_i short
      have rounds := strcmpFrom_rounds mem string1 string2 text1.length
        (2 ^ 32 - text1.length) short fun j below =>
          same_bytes first second below (by omega) (places j (by omega))
      rw [Nat.sub_add_cancel (by omega)] at rounds
      obtain ⟨fuel, more⟩ : ∃ fuel, 2 ^ 32 - text1.length = fuel + 1 :=
        ⟨2 ^ 32 - text1.length - 1, by omega⟩
      have index : (UInt16.ofNat text1.length).toNat = text1.length := by
        rw [UInt16.toNat_ofNat', Nat.mod_eq_of_lt short]
      have second_end := second.ends
      rw [show text2.length = text1.length by omega] at second_end
      rw [rounds, more, strcmpFrom, index, if_pos ⟨first.ends, second_end⟩]
    · refine strcmpFrom_never (fun j small => ?_) (2 ^ 32) 0 (by decide)
      exact same_bytes first second (by omega) (by omega) (places j small)
  · rw [if_neg agree]
    have found : ∃ d, d < 65536 ∧ text1[d]? ≠ text2[d]? := by
      by_contra none
      apply agree
      apply List.ext_getElem?
      intro j
      rw [List.getElem?_take, List.getElem?_take]
      split
      · rename_i small
        by_contra differ
        exact none ⟨j, small, differ⟩
      · rfl
    obtain ⟨d, ⟨small, differ⟩, least⟩ : ∃ d, (d < 65536 ∧ text1[d]? ≠ text2[d]?) ∧
        ∀ j < d, ¬ (j < 65536 ∧ text1[j]? ≠ text2[j]?) :=
      ⟨Nat.find found, Nat.find_spec found, fun j below => Nat.find_min found below⟩
    have places (j : Nat) (below : j < d) : text1[j]? = text2[j]? := by
      by_contra apart
      exact least j below ⟨by omega, apart⟩
    rcases agree_inside places differ with ⟨inside1, inside2⟩
    have rounds := strcmpFrom_rounds mem string1 string2 d (2 ^ 32 - d) small
      fun j below => same_bytes first second (by omega) (by omega) (places j below)
    rw [Nat.sub_add_cancel (by omega)] at rounds
    obtain ⟨fuel, more⟩ : ∃ fuel, 2 ^ 32 - d = fuel + 1 := ⟨2 ^ 32 - d - 1, by omega⟩
    have index : (UInt16.ofNat d).toNat = d := by
      rw [UInt16.toNat_ofNat', Nat.mod_eq_of_lt small]
    have bytes : mem (string1 + d) ≠ mem (string2 + d) := by
      rcases Nat.lt_or_eq_of_le inside1 with below1 | last1
      · rcases Nat.lt_or_eq_of_le inside2 with below2 | last2
        · rw [(first.characters d below1).1, (second.characters d below2).1] at differ
          exact fun same => differ (congrArg some same)
        · rw [last2, second.ends, ← last2]
          exact (first.characters d below1).2
      · rcases Nat.lt_or_eq_of_le inside2 with below2 | last2
        · rw [last1, first.ends, ← last1]
          exact (second.characters d below2).2.symm
        · rw [List.getElem?_eq_none last1.ge, List.getElem?_eq_none last2.ge] at differ
          exact absurd rfl differ
    rw [rounds, more, strcmpFrom, index, if_neg, if_pos bytes]
    rintro ⟨zero1, zero2⟩
    exact bytes (zero1.trans zero2.symm)

end strcmp

/-- `abc` at 0x2000, `abd` at 0x3000. -/
def sampleStrings (a : Nat) : UInt8 :=
  if a < 0x3000 then ([0x61, 0x62, 0x63][a - 0x2000]?).getD 0
  else ([0x61, 0x62, 0x64][a - 0x3000]?).getD 0

theorem sample_differ : strcmp sampleStrings 0x2000 0x3000 = some 1 := by
  have first : IsString sampleStrings 0x2000 [0x61, 0x62, 0x63] := ⟨by decide, by decide⟩
  have second : IsString sampleStrings 0x3000 [0x61, 0x62, 0x64] := ⟨by decide, by decide⟩
  rw [strcmp_eq first second]
  decide

/-- `strcat` puts the one string behind the other and touches nothing else, provided that the
place for both does not reach into the second string. -/
theorem strcat_appends {mem : Memory} {dest src : Nat} {text more : List UInt8}
    (first : IsString mem dest text) (second : IsString mem src more)
    (fits : dest + text.length + more.length < 2 ^ 32)
    (apart : dest + text.length + more.length < src ∨ src + more.length < dest) :
    ∃ result, strcat mem dest src = some result ∧ IsString result dest (text ++ more) ∧
      IsString result src more ∧
      ∀ a, a < dest + text.length ∨ dest + text.length + more.length < a → result a = mem a := by
  have length : strlen mem dest = text.length := strlen_eq first (by omega)
  obtain ⟨result, ran, copied, kept⟩ := Tmpfs.strcpy_copied mem (dest + text.length) src more.length
    (fun i below => (second.characters i below).2) second.ends (by omega)
    (by rw [Tmpfs.ADDRESSES]; omega)
  refine ⟨result, by rw [strcat, length, ran], ⟨fun k below => ?_, ?_⟩, ?_, kept⟩
  · rw [List.length_append] at below
    by_cases inside : k < text.length
    · rw [kept _ (.inl (by omega)), List.getElem?_append_left inside]
      exact first.characters k inside
    · obtain ⟨j, rfl⟩ := Nat.exists_eq_add_of_le (Nat.le_of_not_lt inside)
      rw [← Nat.add_assoc, copied j (by omega), List.getElem?_append_right (Nat.le_add_right ..),
        Nat.add_sub_cancel_left]
      exact second.characters j (by omega)
  · rw [List.length_append, ← Nat.add_assoc, copied _ le_rfl]
    exact second.ends
  · refine isString_congr second fun k below => kept _ ?_
    rcases apart with before | behind
    · exact .inr (by omega)
    · exact .inl (by omega)

theorem sample_appended :
    ∃ result, strcat sampleStrings 0x2000 0x3000 = some result ∧
      IsString result 0x2000 [0x61, 0x62, 0x63, 0x61, 0x62, 0x64] := by
  have first : IsString sampleStrings 0x2000 [0x61, 0x62, 0x63] := ⟨by decide, by decide⟩
  have second : IsString sampleStrings 0x3000 [0x61, 0x62, 0x64] := ⟨by decide, by decide⟩
  obtain ⟨result, ran, appended, _⟩ := strcat_appends first second (by decide) (.inl (by decide))
  exact ⟨result, ran, appended⟩

end TitorOS.Barrel.Strings
