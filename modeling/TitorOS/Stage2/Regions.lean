import TitorOS.Stage2.Memtable
import Mathlib.Data.Finset.Card
import Mathlib.Order.Interval.Finset.Nat
import Mathlib.Data.Set.Card

/-! The regions of the memory map as `init_pmm` of the kernel counts them: whether
they are disjoint, and what the sum of their sizes says. -/

namespace TitorOS.Stage2

open TitorOS.Lib

def initPmm (regions : List Memtable) : UInt64 :=
  regions.foldl (fun total e => total + e.size) 0

def Memtable.Disjoint (e o : Memtable) : Prop := ∀ b, e.Covers b → ¬o.Covers b

/-- No byte lies in two regions, and the total is the number of bytes that lie in one. -/
structure CountedOnce (regions : List Memtable) : Prop where
  disjoint : regions.Pairwise Memtable.Disjoint
  total : (initPmm regions).toNat = {b | ∃ e ∈ regions, e.Covers b}.ncard

/-- Every usable entry ends at or below 1 MiB or has a whole page above it. -/
def WholePages (table : List Memtable) : Prop :=
  ∀ e ∈ table, e.type = USABLE → e.address.toNat + e.size.toNat ≤ 0x100000 ∨
    ∃ page, 0x100000 ≤ page * 4096 ∧ e.address.toNat ≤ page * 4096 ∧
      (page + 1) * 4096 ≤ e.address.toNat + e.size.toNat

/-- The entries of the group of entry `i` cover every byte of a page. -/
def GroupCovers (table : List Memtable) (i page : Nat) : Prop :=
  ∀ b, b / 4096 = page → ∃ k t, (table.map Memtable.span)[k]? = some (some t) ∧
    Owns (table.map Memtable.span) i k ∧ t.Covers b

def GroupsApart (table : List Memtable) : Prop :=
  ∀ i j page, i < j → 0x100000 ≤ page * 4096 → GroupCovers table i page →
    ¬GroupCovers table j page

theorem groupCovers_iff (table : List Memtable) (i page : Nat) (u : Span Nat)
    (merged : Cells.Holds (merge (table.map Memtable.span)) i u) :
    GroupCovers table i page ↔ u.lo ≤ page * 4096 ∧ (page + 1) * 4096 ≤ u.hi := by
  have parts : GroupCovers table i page ↔ ∀ b, b / 4096 = page → u.Covers b :=
    forall₂_congr fun b _ => (merge_ofPart (covers_ofPart b) _ i u merged).symm
  rw [parts]
  simp only [Span.Covers]
  constructor
  · intro covered
    have first := (covered (page * 4096) (by omega)).1
    have last := (covered ((page + 1) * 4096 - 1) (by omega)).2
    exact ⟨first, by omega⟩
  · intro whole b inside
    omega

theorem merged_wholePage (table : List Memtable) (whole : WholePages table) (i : Nat)
    (u : Span Nat) (merged : Cells.Holds (merge (table.map Memtable.span)) i u)
    (above : 0x100000 < u.hi) :
    ∃ page, 0x100000 ≤ page * 4096 ∧ u.lo ≤ page * 4096 ∧ (page + 1) * 4096 ≤ u.hi := by
  have reaches : OfPart fun s : Span Nat => 0x100000 < s.hi := by
    intro s t _
    exact lt_max_iff
  rcases (merge_ofPart reaches _ i u merged).mp above with ⟨k, t, holds, owns, high⟩
  rcases holds_span table k t holds with ⟨e, listed, usable, low, top⟩
  rcases whole e listed usable with ends | ⟨page, mib, start, stop⟩
  · omega
  · refine ⟨page, mib, (groupCovers_iff table i page u merged).mp ?_⟩
    intro b inside
    exact ⟨k, t, holds, owns, by omega, by omega⟩

theorem wholePage_crosses (s : Span Nat) (o : Memtable) (region : Region s o)
    (whole : ∃ page, 0x100000 ≤ page * 4096 ∧ s.lo ≤ page * 4096 ∧ (page + 1) * 4096 ≤ s.hi) :
    pageAbove o.address.toNat ≤ s.hi := by
  rcases whole with ⟨page, mib, low, high⟩
  have first : (max s.lo 0x100000 + 4095) / 4096 ≤ page := by omega
  rw [pageAbove, region.low]
  calc
    _ ≤ page * 4096 := Nat.mul_le_mul_right _ first
    _ ≤ (page + 1) * 4096 := Nat.mul_le_mul_right _ page.le_succ
    _ ≤ s.hi := high

/-- The region left of a group that reaches a page boundary holds the whole pages of its
span above 1 MiB. -/
theorem region_covers (s : Span Nat) (o : Memtable) (region : Region s o)
    (crossing : pageAbove o.address.toNat ≤ s.hi) (b : Nat) :
    (align o).Covers b ↔
      0x100000 ≤ b / 4096 * 4096 ∧ s.lo ≤ b / 4096 * 4096 ∧ (b / 4096 + 1) * 4096 ≤ s.hi := by
  have start := region.low
  have bound := region.bound
  rcases align_toNat o s.hi region.high bound with ⟨first, last⟩
  have shrunk := align_shrinks o s.hi region.high bound crossing
  rw [pageAbove, start] at crossing
  rw [pageAbove, start, Nat.mod_eq_of_lt (by omega)] at first
  rw [Memtable.Covers]
  omega

/-- Two cells left by the merge: their regions are disjoint when no page above 1 MiB is
covered by both groups. -/
theorem align_disjoint_iff (table : List Memtable) (whole : WholePages table) (i j : Nat)
    (s t : Span Nat) (o p : Memtable)
    (first : Cells.Holds (merge (table.map Memtable.span)) i s)
    (second : Cells.Holds (merge (table.map Memtable.span)) j t)
    (regionS : Region s o) (regionT : Region t p) :
    (align o).Disjoint (align p) ↔
      ∀ page, 0x100000 ≤ page * 4096 → GroupCovers table i page → ¬GroupCovers table j page := by
  have crossS := wholePage_crosses s o regionS (merged_wholePage table whole i s first regionS.above)
  have crossT := wholePage_crosses t p regionT (merged_wholePage table whole j t second regionT.above)
  constructor
  · intro apart page above coversI coversJ
    rw [groupCovers_iff table i page s first] at coversI
    rw [groupCovers_iff table j page t second] at coversJ
    have same : page * 4096 / 4096 = page := Nat.mul_div_cancel _ (by decide)
    apply apart (page * 4096)
    · rw [region_covers s o regionS crossS, same]
      exact ⟨above, coversI⟩
    · rw [region_covers t p regionT crossT, same]
      exact ⟨above, coversJ⟩
  · intro apart b coversO coversP
    rw [region_covers s o regionS crossS] at coversO
    rw [region_covers t p regionT crossT] at coversP
    apply apart (b / 4096) coversO.1
    · exact (groupCovers_iff table i _ s first).mpr coversO.2
    · exact (groupCovers_iff table j _ t second).mpr coversP.2

theorem regions_disjoint_iff (ksize : UInt32) (table : List Memtable) (reported : Reported table)
    (whole : WholePages table) :
    (mmap ksize table).regions.Pairwise Memtable.Disjoint ↔ GroupsApart table := by
  have cuts := combine_spec table.length table le_rfl reported
  rcases List.forall₂_iff_get.mp cuts with ⟨same, pointwise⟩
  rw [regions_eq ksize table, List.pairwise_filter, List.pairwise_map,
    List.pairwise_iff_getElem]
  simp only [align_type, decide_eq_true_eq]
  constructor
  · intro apart i j page before above coversI coversJ
    have mergedOf : ∀ i, GroupCovers table i page →
        ∃ u o, Cells.Holds (merge (table.map Memtable.span)) i u ∧
          (combine table.length table)[i]? = some o ∧ o.type = USABLE ∧ Region u o := by
      intro i covers
      rcases covers (page * 4096) (Nat.mul_div_cancel _ (by decide)) with ⟨_, _, _, owns, _⟩
      rcases (merge_root _ i).mpr owns.root with ⟨u, merged⟩
      have part := (groupCovers_iff table i page u merged).mp covers
      rcases exists_region table reported i u merged (by omega) with ⟨o, here, usable, region⟩
      exact ⟨u, o, merged, here, usable, region⟩
    rcases mergedOf i coversI with ⟨s, o, first, hereO, usableO, regionS⟩
    rcases mergedOf j coversJ with ⟨t, p, second, hereP, usableP, regionT⟩
    rcases List.getElem?_eq_some_iff.mp hereO with ⟨insideI, rfl⟩
    rcases List.getElem?_eq_some_iff.mp hereP with ⟨insideJ, rfl⟩
    exact (align_disjoint_iff table whole i j s t _ _ first second regionS regionT).mp
      (apart i j insideI insideJ before usableO usableP) page above coversI coversJ
  · intro apart i j insideI insideJ before usableI usableJ
    have regionOf : ∀ (i : Nat) (inside : i < (combine table.length table).length),
        (combine table.length table)[i].type = USABLE →
          ∃ u, Cells.Holds (merge (table.map Memtable.span)) i u ∧
            Region u (combine table.length table)[i] := by
      intro i inside usable
      have cut := pointwise i (same ▸ inside) inside
      rw [List.get_eq_getElem, List.get_eq_getElem] at cut
      rcases cut_usable _ _ cut usable with ⟨u, cell, region⟩
      exact ⟨u, by rw [Cells.Holds, List.getElem?_eq_getElem (same ▸ inside), cell], region⟩
    rcases regionOf i insideI usableI with ⟨s, first, regionS⟩
    rcases regionOf j insideJ usableJ with ⟨t, second, regionT⟩
    rw [align_disjoint_iff table whole i j s t _ _ first second regionS regionT]
    intro page
    exact apart i j page before

def coveredBytes : List Memtable → Finset Nat
  | [] => ∅
  | e :: rest => Finset.Ico e.address.toNat (e.address.toNat + e.size.toNat) ∪ coveredBytes rest

theorem mem_coveredBytes (regions : List Memtable) (b : Nat) :
    b ∈ coveredBytes regions ↔ ∃ e ∈ regions, e.Covers b := by
  induction regions with
  | nil => simp [coveredBytes]
  | cons e rest ih => simp [coveredBytes, ih, Memtable.Covers]

theorem card_coveredBytes (regions : List Memtable) (apart : regions.Pairwise Memtable.Disjoint) :
    (coveredBytes regions).card = (regions.map fun e => e.size.toNat).sum := by
  induction regions with
  | nil => rfl
  | cons e rest ih =>
      rw [List.pairwise_cons] at apart
      have separate : Disjoint
          (Finset.Ico e.address.toNat (e.address.toNat + e.size.toNat)) (coveredBytes rest) := by
        rw [Finset.disjoint_left]
        intro b inside later
        rcases (mem_coveredBytes rest b).mp later with ⟨o, member, covers⟩
        exact apart.1 o member b (Finset.mem_Ico.mp inside) covers
      rw [coveredBytes, Finset.card_union_of_disjoint separate, Nat.card_Ico, ih apart.2,
        List.map_cons, List.sum_cons, Nat.add_sub_cancel_left]

theorem initPmm_toNat (regions : List Memtable) :
    (initPmm regions).toNat = (regions.map fun e => e.size.toNat).sum % 2 ^ 64 := by
  have general : ∀ total : UInt64,
      (regions.foldl (fun total e => total + e.size) total).toNat =
        (total.toNat + (regions.map fun e => e.size.toNat).sum) % 2 ^ 64 := by
    induction regions with
    | nil =>
        intro total
        exact (Nat.mod_eq_of_lt total.toNat_lt).symm
    | cons e rest ih =>
        intro total
        rw [List.foldl_cons, ih, UInt64.toNat_add, Nat.mod_add_mod, List.map_cons, List.sum_cons,
          Nat.add_assoc]
  rw [initPmm, general]
  simp

theorem regions_below (ksize : UInt32) (table : List Memtable) (reported : Reported table)
    (whole : WholePages table) (e : Memtable) (member : e ∈ (mmap ksize table).regions) (b : Nat)
    (covered : e.Covers b) : b < 2 ^ 64 - 1 := by
  rcases (mem_regions ksize table reported e).mp member with ⟨i, s, o, merged, region, _, _, rfl⟩
  have page := merged_wholePage table whole i s merged region.above
  rw [region_covers s o region (wholePage_crosses s o region page)] at covered
  have bound := region.bound
  omega

/-- The regions count every byte once exactly when no page above 1 MiB is covered by the
entries of two groups. -/
theorem mmap_countedOnce_iff (ksize : UInt32) (table : List Memtable) (reported : Reported table)
    (whole : WholePages table) :
    CountedOnce (mmap ksize table).regions ↔ GroupsApart table := by
  rw [← regions_disjoint_iff ksize table reported whole]
  constructor
  · intro counted
    exact counted.disjoint
  · intro apart
    refine ⟨apart, ?_⟩
    have bytes : {b | ∃ e ∈ (mmap ksize table).regions, e.Covers b} =
        (coveredBytes (mmap ksize table).regions : Set Nat) := by
      ext b
      rw [Finset.mem_coe, mem_coveredBytes, Set.mem_ofPred_eq]
    have few : (coveredBytes (mmap ksize table).regions).card ≤ 2 ^ 64 - 1 := by
      rw [← Finset.card_range (2 ^ 64 - 1)]
      apply Finset.card_le_card
      intro b member
      rcases (mem_coveredBytes _ b).mp member with ⟨e, listed, covered⟩
      exact Finset.mem_range.mpr (regions_below ksize table reported whole e listed b covered)
    rw [bytes, Set.ncard_coe_finset, initPmm_toNat, ← card_coveredBytes _ apart,
      Nat.mod_eq_of_lt (by omega)]

theorem oneRegion_countedOnce :
    Reported oneRegion ∧ WholePages oneRegion ∧ CountedOnce (mmap 0x1000 oneRegion).regions := by
  have reported : Reported oneRegion := by
    rw [Reported]
    decide
  have whole : WholePages oneRegion := by
    intro e listed _
    rw [List.mem_singleton.mp listed]
    exact .inr ⟨0x100, by decide, by decide, by decide⟩
  refine ⟨reported, whole, (mmap_countedOnce_iff 0x1000 oneRegion reported whole).mpr ?_⟩
  intro i j page before _ _ covers
  rcases covers (page * 4096) (Nat.mul_div_cancel _ (by decide)) with ⟨_, _, _, owns, _⟩
  rcases owns.root.1 with ⟨t, holds⟩
  have inside := (List.getElem?_eq_some_iff.mp holds).1
  have single : (oneRegion.map Memtable.span).length = 1 := rfl
  omega

def bridged : List Memtable :=
  [⟨0x100000, 0x100000, USABLE, 1⟩, ⟨0x300000, 0x100000, USABLE, 1⟩,
    ⟨0x180000, 0x200000, USABLE, 1⟩]

theorem bridged_countedTwice :
    ¬∀ (ksize : UInt32) (table : List Memtable), Reported table → WholePages table →
      CountedOnce (mmap ksize table).regions := by
  intro claim
  have reported : Reported bridged := by
    rw [Reported]
    decide
  have whole : WholePages bridged := by
    intro e listed _
    right
    simp only [bridged, List.mem_cons, List.not_mem_nil, or_false] at listed
    rcases listed with rfl | rfl | rfl
    · exact ⟨0x100, by decide, by decide, by decide⟩
    · exact ⟨0x300, by decide, by decide, by decide⟩
    · exact ⟨0x180, by decide, by decide, by decide⟩
  have regions : (mmap 0x1000 bridged).regions =
      [⟨0x100000, 0x280000, USABLE, 1⟩, ⟨0x300000, 0x100000, USABLE, 1⟩] := by
    decide
  have apart := (claim 0x1000 bridged reported whole).disjoint
  rw [regions, List.pairwise_cons] at apart
  refine apart.1 _ List.mem_cons_self 0x300000 ?_ ?_
  · rw [Memtable.Covers]
    decide
  · rw [Memtable.Covers]
    decide

end TitorOS.Stage2
