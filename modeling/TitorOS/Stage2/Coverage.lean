import TitorOS.Stage2.Regions

/-! What the memory map keeps of the usable memory: every byte up to the alignment, and then
the pages that one group of merged entries covers. -/

namespace TitorOS.Stage2

open TitorOS.Lib

/-- The bytes of the usable entries. -/
def usableBytes (table : List Memtable) : Set Nat := {b | ∃ e ∈ table, e.type = USABLE ∧ e.Covers b}

theorem mem_usableBytes (table : List Memtable) (b : Nat) :
    b ∈ usableBytes table ↔ ∃ k t, Cells.Holds (table.map Memtable.span) k t ∧ t.Covers b := by
  constructor
  · rintro ⟨e, listed, usable, covered⟩
    rcases span_usable e usable with ⟨t, shape, low, high⟩
    rcases List.mem_iff_getElem?.mp listed with ⟨k, here⟩
    refine ⟨k, t, ?_, ?_⟩
    · rw [Cells.Holds, List.getElem?_map, here, Option.map_some, shape]
    · rw [Span.Covers, low, high]
      exact covered
  · rintro ⟨k, t, holds, covered⟩
    rcases holds_span table k t holds with ⟨e, listed, usable, low, high⟩
    rw [Span.Covers, low, high] at covered
    exact ⟨e, listed, usable, covered⟩

theorem combine_region (table : List Memtable) (reported : Reported table) (o : Memtable)
    (listed : o ∈ combine table.length table) (usable : o.type = USABLE) :
    ∃ i s, Cells.Holds (merge (table.map Memtable.span)) i s ∧ Region s o := by
  have cuts := combine_spec table.length table le_rfl reported
  rcases List.forall₂_iff_get.mp cuts with ⟨same, pointwise⟩
  rcases List.mem_iff_getElem.mp listed with ⟨i, inside, here⟩
  have cut := pointwise i (same ▸ inside) inside
  rw [List.get_eq_getElem, List.get_eq_getElem, here] at cut
  rcases cut_usable _ o cut usable with ⟨s, cell, region⟩
  refine ⟨i, s, ?_, region⟩
  rw [Cells.Holds, List.getElem?_eq_getElem (same ▸ inside), cell]

theorem Region.covers {s : Span Nat} {o : Memtable} (region : Region s o) (b : Nat) :
    o.Covers b ↔ s.Covers b ∧ 0x100000 ≤ b := by
  have low := region.low
  have high := region.high
  rw [Memtable.Covers, Span.Covers]
  omega

/-- The merge and the cut at 1 MiB neither lose nor invent a usable byte. -/
theorem combine_usableBytes (table : List Memtable) (reported : Reported table) :
    usableBytes (combine table.length table) =
      usableBytes table ∩ Set.Ico 0x100000 (2 ^ 64) := by
  ext b
  rw [Set.mem_inter_iff, Set.mem_Ico, mem_usableBytes table, ← merge_exists (covers_ofPart b)]
  constructor
  · rintro ⟨o, listed, usable, covered⟩
    rcases combine_region table reported o listed usable with ⟨i, s, merged, region⟩
    rcases (region.covers b).mp covered with ⟨inside, above⟩
    exact ⟨⟨i, s, merged, inside⟩, above, inside.2.trans region.bound⟩
  · rintro ⟨⟨i, s, merged, inside⟩, above, _⟩
    rcases exists_region table reported i s merged (above.trans_lt inside.2) with
      ⟨o, here, usable, region⟩
    exact ⟨o, List.mem_of_getElem? here, usable, (region.covers b).mpr ⟨inside, above⟩⟩

/-- Entries that overlap, one inside another, an empty one and one to be cut. -/
def overlapping : List Memtable :=
  [⟨0x80000, 0x100000, USABLE, 1⟩, ⟨0x100000, 0x1000, USABLE, 1⟩, ⟨0x180000, 0, USABLE, 1⟩,
    ⟨0x170000, 0x90000, USABLE, 1⟩]

theorem overlapping_usableBytes :
    usableBytes (combine overlapping.length overlapping) =
      usableBytes overlapping ∩ Set.Ico 0x100000 (2 ^ 64) := by
  apply combine_usableBytes
  rw [Reported]
  decide

def Memtable.CoversPage (e : Memtable) (page : Nat) : Prop := ∀ b, b / 4096 = page → e.Covers b

/-- A page above 1 MiB of which every byte is usable. -/
def UsablePage (table : List Memtable) (page : Nat) : Prop :=
  0x100000 ≤ page * 4096 ∧ ∀ b, b / 4096 = page → b ∈ usableBytes table

/-- Every such page is whole in one region. -/
def MapComplete (reported : List Memtable) (boot : BootInfo) : Prop :=
  ∀ page, UsablePage reported page → ∃ e ∈ boot.regions, e.CoversPage page

/-- Entry `i` starts a group that lies strictly inside a page above 1 MiB. -/
def GroupWithin (table : List Memtable) (i page : Nat) : Prop :=
  0x100000 ≤ page * 4096 ∧ Root (table.map Memtable.span) i ∧
    ∀ k t, (table.map Memtable.span)[k]? = some (some t) → Owns (table.map Memtable.span) i k →
      t.Within (page * 4096) ((page + 1) * 4096)

/-- Every usable page is covered by one group, or comes after a page with a group strictly
inside; the region such a group leaves has wrapped around and goes on to the end of memory. -/
def PagesInGroups (table : List Memtable) : Prop :=
  ∀ page, UsablePage table page → (∃ i, GroupCovers table i page) ∨
    ∃ i q, GroupWithin table i q ∧ (q < page ∨ (q + 1) * 4096 = 2 ^ 64)

theorem UsablePage.bound {table : List Memtable} (reported : Reported table) {page : Nat}
    (usable : UsablePage table page) : (page + 1) * 4096 < 2 ^ 64 := by
  rcases usable.2 ((page + 1) * 4096 - 1) (by omega) with ⟨e, listed, _, _, high⟩
  have fits := reported e listed
  omega

theorem groupWithin_iff (table : List Memtable) (i page : Nat) (u : Span Nat)
    (merged : Cells.Holds (merge (table.map Memtable.span)) i u) :
    GroupWithin table i page ↔
      0x100000 ≤ page * 4096 ∧ u.Within (page * 4096) ((page + 1) * 4096) := by
  have root := (merge_root _ i).mp ⟨u, merged⟩
  rw [GroupWithin, merged_within table i page u merged]
  constructor
  · rintro ⟨above, _, parts⟩
    exact ⟨above, parts⟩
  · rintro ⟨above, parts⟩
    exact ⟨above, root, parts⟩

theorem pageAbove_le (a : Nat) : pageAbove a ≤ (a / 4096 + 1) * 4096 := by
  rw [pageAbove]
  omega

theorem pageAbove_within {a q : Nat} (low : q * 4096 < a) (high : a < (q + 1) * 4096) :
    pageAbove a = (q + 1) * 4096 := by
  rw [pageAbove]
  omega

theorem pageAbove_self {a : Nat} (aligned : a % 4096 = 0) : pageAbove a = a := by
  rw [pageAbove]
  omega

theorem nextPage_lt {q a : Nat} (low : q * 4096 < a) (bound : a < 2 ^ 64)
    (last : (q + 1) * 4096 ≠ 2 ^ 64) : (q + 1) * 4096 < 2 ^ 64 := by
  have pages : 2 ^ 52 * 4096 = 2 ^ 64 := by decide
  rw [← pages] at bound last ⊢
  have below : q < 2 ^ 52 := Nat.lt_of_mul_lt_mul_right (low.trans bound)
  have other : q + 1 ≠ 2 ^ 52 := fun equal => last (by rw [equal])
  exact Nat.mul_lt_mul_of_pos_right (by omega) (by decide)

theorem region_within (u : Span Nat) (o : Memtable) (region : Region u o) :
    u.hi < pageAbove o.address.toNat ↔
      ∃ q, 0x100000 ≤ q * 4096 ∧ u.Within (q * 4096) ((q + 1) * 4096) := by
  have low := region.low
  have above := region.above
  have ordered := u.ordered
  rw [low]
  simp only [Span.Within]
  rcases Nat.le_total u.lo 0x100000 with cut | whole
  · rw [max_eq_right cut, show pageAbove 0x100000 = 0x100000 from rfl]
    constructor
    · intro short
      omega
    · rintro ⟨q, mib, first, _⟩
      omega
  · rw [max_eq_left whole]
    constructor
    · intro short
      have strict : u.lo / 4096 * 4096 ≠ u.lo := by
        intro aligned
        rw [pageAbove_self (by omega)] at short
        exact absurd ordered (Nat.not_le_of_lt short)
      exact ⟨u.lo / 4096, by omega, by omega, short.trans_le (pageAbove_le u.lo)⟩
    · rintro ⟨q, _, first, last⟩
      rw [pageAbove_within first (ordered.trans_lt last)]
      exact last

theorem align_coversPage_iff (table : List Memtable) (i page : Nat) (u : Span Nat) (o : Memtable)
    (merged : Cells.Holds (merge (table.map Memtable.span)) i u) (region : Region u o)
    (mib : 0x100000 ≤ page * 4096) (bound : (page + 1) * 4096 < 2 ^ 64) :
    (align o).CoversPage page ↔ GroupCovers table i page ∨
      ∃ q, GroupWithin table i q ∧ (q < page ∨ (q + 1) * 4096 = 2 ^ 64) := by
  have within (q : Nat) := groupWithin_iff table i q u merged
  rw [groupCovers_iff table i page u merged]
  simp only [within]
  by_cases crossing : pageAbove o.address.toNat ≤ u.hi
  · have outside : ¬ ∃ q, 0x100000 ≤ q * 4096 ∧ u.Within (q * 4096) ((q + 1) * 4096) := by
      rw [← region_within u o region]
      exact Nat.not_lt_of_le crossing
    constructor
    · intro covers
      have first := (region_covers u o region crossing (page * 4096)).mp
        (covers _ (Nat.mul_div_cancel _ (by decide)))
      rw [Nat.mul_div_cancel _ (by decide)] at first
      exact .inl first.2
    · rintro (⟨low, high⟩ | ⟨q, inside, _⟩)
      · intro b here
        rw [region_covers u o region crossing b, here]
        exact ⟨mib, low, high⟩
      · exact absurd ⟨q, inside⟩ outside
  · rcases (region_within u o region).mp (Nat.lt_of_not_le crossing) with ⟨q, above, inside⟩
    rcases align_wraps o u.hi region.high region.bound (Nat.lt_of_not_le crossing) with
      ⟨address, size⟩
    have start := region.low
    rcases inside with ⟨low, high⟩
    have ordered := u.ordered
    have next : pageAbove o.address.toNat = (q + 1) * 4096 := by
      have from_lo : o.address.toNat = u.lo := by omega
      rw [from_lo]
      exact pageAbove_within low (ordered.trans_lt high)
    rw [next] at address
    have onward := nextPage_lt low (ordered.trans_lt region.bound)
    constructor
    · intro covers
      refine .inr ⟨q, ⟨above, low, high⟩, ?_⟩
      have first := (covers (page * 4096) (Nat.mul_div_cancel _ (by decide))).1
      rw [address] at first
      by_cases last : (q + 1) * 4096 = 2 ^ 64
      · exact .inr last
      · left
        rw [Nat.mod_eq_of_lt (onward last)] at first
        omega
    · rintro (⟨first, last⟩ | ⟨r, ⟨_, lowR, highR⟩, past⟩)
      · omega
      · have same : r = q := by omega
        subst same
        intro b here
        rw [Memtable.Covers, address, size]
        by_cases last : (r + 1) * 4096 = 2 ^ 64
        · rw [last, Nat.mod_self]
          omega
        · rw [Nat.mod_eq_of_lt (onward last)]
          omega

theorem mmap_complete_iff (ksize : UInt32) (table : List Memtable) (reported : Reported table) :
    MapComplete table (mmap ksize table) ↔ PagesInGroups table := by
  constructor
  · intro complete page usable
    rcases complete page usable with ⟨e, listed, covers⟩
    rcases (mem_regions ksize table reported e).mp listed with
      ⟨i, u, o, merged, region, _, _, rfl⟩
    rcases (align_coversPage_iff table i page u o merged region usable.1
      (usable.bound reported)).mp covers with group | ⟨q, inside, past⟩
    · exact .inl ⟨i, group⟩
    · exact .inr ⟨i, q, inside, past⟩
  · intro groups page usable
    have found : ∃ i, Root (table.map Memtable.span) i ∧ (GroupCovers table i page ∨
        ∃ q, GroupWithin table i q ∧ (q < page ∨ (q + 1) * 4096 = 2 ^ 64)) := by
      rcases groups page usable with ⟨i, group⟩ | ⟨i, q, inside, past⟩
      · rcases group (page * 4096) (Nat.mul_div_cancel _ (by decide)) with ⟨_, _, _, owns, _⟩
        exact ⟨i, owns.root, .inl group⟩
      · exact ⟨i, inside.2.1, .inr ⟨q, inside, past⟩⟩
    rcases found with ⟨i, root, either⟩
    rcases (merge_root _ i).mpr root with ⟨u, merged⟩
    have above : 0x100000 < u.hi := by
      have mib := usable.1
      rcases either with group | ⟨q, inside, _⟩
      · have whole := (groupCovers_iff table i page u merged).mp group
        omega
      · have strict := (groupWithin_iff table i q u merged).mp inside
        have ordered := u.ordered
        rw [Span.Within] at strict
        omega
    rcases exists_region table reported i u merged above with ⟨o, here, kept, region⟩
    refine ⟨align o, (mem_regions ksize table reported _).mpr
      ⟨i, u, o, merged, region, kept, here, rfl⟩, ?_⟩
    exact (align_coversPage_iff table i page u o merged region usable.1
      (usable.bound reported)).mpr either

theorem oneRegion_complete : MapComplete oneRegion (mmap 0x1000 oneRegion) := by
  have reported : Reported oneRegion := by
    rw [Reported]
    decide
  rw [mmap_complete_iff 0x1000 oneRegion reported]
  intro page usable
  refine .inl ⟨0, ?_⟩
  intro b here
  rcases (mem_usableBytes oneRegion b).mp (usable.2 b here) with ⟨k, t, holds, covered⟩
  have first : k = 0 := by
    have inside := (List.getElem?_eq_some_iff.mp holds).1
    have single : (oneRegion.map Memtable.span).length = 1 := rfl
    omega
  rw [first] at holds
  exact ⟨0, t, holds, (root_zero _ _).owns, covered⟩

/-- The third entry joins the first, and its last page is shared with the second, which
has its own group. -/
def sharedPage : List Memtable :=
  [⟨0x100000, 0x100000, USABLE, 1⟩, ⟨0x201800, 0xFE800, USABLE, 1⟩, ⟨0x200000, 0x1900, USABLE, 1⟩]

theorem sharedPage_lost :
    ¬∀ (ksize : UInt32) (table : List Memtable), Reported table →
      MapComplete table (mmap ksize table) := by
  intro claim
  have reported : Reported sharedPage := by
    rw [Reported]
    decide
  have regions : (mmap 0x1000 sharedPage).regions =
      [⟨0x100000, 0x101000, USABLE, 1⟩, ⟨0x202000, 0xFE000, USABLE, 1⟩] := by
    decide
  have usable : UsablePage sharedPage 0x201 := by
    refine ⟨by decide, ?_⟩
    intro b here
    by_cases low : b < 0x201900
    · refine ⟨⟨0x200000, 0x1900, USABLE, 1⟩, by decide, rfl, ?_, ?_⟩
      · change 0x200000 ≤ b
        omega
      · change b < 0x201900
        exact low
    · refine ⟨⟨0x201800, 0xFE800, USABLE, 1⟩, by decide, rfl, ?_, ?_⟩
      · change 0x201800 ≤ b
        omega
      · change b < 0x300000
        omega
  rcases claim 0x1000 sharedPage reported 0x201 usable with ⟨e, listed, covers⟩
  have covered := covers 0x201000 rfl
  rw [regions, List.mem_pair, Memtable.Covers] at *
  rcases listed with rfl | rfl
  · exact absurd covered (by decide)
  · exact absurd covered (by decide)

end TitorOS.Stage2
