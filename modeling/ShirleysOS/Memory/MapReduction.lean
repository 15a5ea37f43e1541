import ShirleysOS.Memory.MemoryMap

/-!
# What `initialize` makes of a memory map

The managed extents are the canonical form of a set of pages: those that lie inside one usable
region and touch no region of another kind. A sorted table without extents that touch is determined
by the pages it covers, so the result does not depend on the order in which the firmware lists the
regions.

This holds for a map during which no table needs more than `maxExtents` extents, if the insertions
are `MergeSafe`.
-/

namespace ShirleysOS.Memory

open Lib

/-! ## The pages of a map -/

/-- Every byte of the page belongs to the region. -/
def BootMemoryRegion.Holds (region : BootMemoryRegion) (page : ℕ) : Prop :=
  ∀ a, page ≤ a → a < page + pageSize → region.Contains a

/-- Some byte of the page belongs to the region. -/
def BootMemoryRegion.Touches (region : BootMemoryRegion) (page : ℕ) : Prop :=
  ∃ a, page ≤ a ∧ a < page + pageSize ∧ region.Contains a

/-- A page other than that at address 0 that lies wholly inside a single usable region of `usable`
and touches no other region of `others`. -/
structure MapPage (usable others : List BootMemoryRegion) (page : ℕ) : Prop where
  aligned : pageSize ∣ page
  ne_zero : page ≠ 0
  inside : ∃ region ∈ usable, region.type = .usable ∧ region.Holds page
  untouched : ∀ region ∈ others, region.type ≠ .usable → ¬ region.Touches page

def mapPages (usable others : List BootMemoryRegion) : Set ℕ := {page | MapPage usable others page}

/-- The pages that the memory map has to give. -/
def managedPages (regions : List BootMemoryRegion) : Set ℕ := mapPages regions regions

/-- **No step needs more extents than the table holds**: neither after the first usable regions,
nor after all of them without the first of the others, do the pages make up more than `maxExtents`
runs. -/
def Roomy (regions : List BootMemoryRegion) : Prop :=
  ∀ before, before <+: regions →
    (runStarts (mapPages before [])).ncard ≤ maxExtents ∧
      (runStarts (mapPages regions before)).ncard ≤ maxExtents

variable {region : BootMemoryRegion} {page a : ℕ} {info : BootInfo}

theorem BootMemoryRegion.holds_iff :
    region.Holds page ↔ region.physicalStart.toNat ≤ page ∧
      page + pageSize ≤ region.physicalStart.toNat + region.length.toNat := by
  constructor
  · intro h
    have hfirst := h page (Nat.le_refl _) (by simp only [pageSize]; omega)
    have hlast := h (page + 4095) (by omega) (by simp only [pageSize]; omega)
    simp only [Contains, pageSize] at *
    omega
  · intro h a hlo hhi
    simp only [Contains]
    omega

theorem BootMemoryRegion.touches_iff :
    region.Touches page ↔ region.length.toNat ≠ 0 ∧
      region.physicalStart.toNat < page + pageSize ∧
      page < region.physicalStart.toNat + region.length.toNat := by
  constructor
  · rintro ⟨a, hlo, hhi, hin⟩
    simp only [Contains] at hin
    omega
  · intro h
    refine ⟨max page region.physicalStart.toNat, ?_, ?_, ?_, ?_⟩ <;>
      simp only [pageSize] at * <;> omega

/-- `align_usable` finds the pages inside the region, except that at address 0. -/
theorem alignUsable_iff (hend : region.physicalStart.toNat + region.length.toNat < wordSize)
    (hpage : pageSize ∣ page) :
    (∃ extent, alignUsable region = some extent ∧ extent.Contains page) ↔
      page ≠ 0 ∧ region.Holds page := by
  rw [BootMemoryRegion.holds_iff]
  simp only [alignUsable, Option.ite_none_left_eq_some, Option.some.injEq, Extent.Contains]
  generalize region.physicalStart.toNat = start at *
  generalize region.length.toNat = length at *
  have hbegin : ∃ begin, (if alignDown (start + pageSize - 1) = 0 then pageSize
      else alignDown (start + pageSize - 1)) = begin ∧
        (begin ≤ page ↔ page ≠ 0 ∧ start ≤ page) := by
    refine ⟨_, rfl, ?_⟩
    split_ifs with hzero <;> simp only [alignDown, pageSize] at * <;> omega
  have hstop : page < alignDown (start + length) ↔ page + pageSize ≤ start + length := by
    simp only [alignDown, pageSize] at *
    omega
  obtain ⟨begin, heq, hbegin⟩ := hbegin
  rw [heq]
  constructor
  · rintro ⟨extent, ⟨-, -, rfl⟩, hlo, hhi⟩
    exact ⟨(hbegin.mp hlo).1, (hbegin.mp hlo).2, hstop.mp hhi⟩
  · rintro ⟨hne, hlo, hhi⟩
    have hlo' := hbegin.mpr ⟨hne, hlo⟩
    have hhi' := hstop.mpr hhi
    refine ⟨_, ⟨?_, by omega, rfl⟩, hlo', hhi'⟩
    simp only [pageSize, wordSize] at *
    omega

/-- `align_reserved` finds the pages the region touches, up to the last page of memory. -/
theorem alignReserved_iff (hend : region.physicalStart.toNat + region.length.toNat < wordSize)
    (hpage : pageSize ∣ page) (hlast : page < wordSize - pageSize) :
    (∃ extent, alignReserved region = some extent ∧ extent.Contains page) ↔
      region.Touches page := by
  rw [BootMemoryRegion.touches_iff]
  simp only [alignReserved, Option.ite_none_left_eq_some, Option.some.injEq, Extent.Contains]
  generalize region.physicalStart.toNat = start at *
  generalize region.length.toNat = length at *
  have hbegin : alignDown start ≤ page ↔ start < page + pageSize := by
    simp only [alignDown, pageSize] at *
    omega
  have hstop : ∃ stop, (if (start + length) % pageSize = 0 then start + length
      else if start + length > wordSize - 1 - (pageSize - 1) then wordSize - 1
      else alignDown (start + length + pageSize - 1)) = stop ∧
        (page < stop ↔ page < start + length) := by
    refine ⟨_, rfl, ?_⟩
    split_ifs with hwhole htop <;> simp only [alignDown, pageSize, wordSize] at * <;> omega
  obtain ⟨stop, heq, hstop⟩ := hstop
  rw [heq]
  constructor
  · rintro ⟨extent, ⟨hbad, -, rfl⟩, hlo, hhi⟩
    exact ⟨by omega, hbegin.mp hlo, hstop.mp hhi⟩
  · rintro ⟨hne, hlo, hhi⟩
    have hlo' := hbegin.mpr hlo
    have hhi' := hstop.mpr hhi
    exact ⟨_, ⟨by omega, by omega, rfl⟩, hlo', hhi'⟩

/-! ## Tables in canonical form -/

section Canonical

variable {t t' : Table} {i : ℕ}

/-- Where the entries in front of `i` agree, entry `i` of a table that covers as much is there, and
begins no later. -/
theorem Table.Sorted.begin_le (hs : t.Sorted) (hs' : t'.Sorted)
    (hcov : ∀ a, t.Covers a → t'.Covers a)
    (hfront : ∀ k < i, k < t'.count → t'.extents k = t.extents k) (hi : i < t.count) :
    i < t'.count ∧ (t'.extents i).begin ≤ (t.extents i).begin := by
  obtain ⟨j, hj, hlo, hhi⟩ := hcov _ ⟨i, hi, Nat.le_refl _, hs.proper i hi⟩
  have hij : i ≤ j := by
    by_contra hlt
    rw [hfront j (by omega) hj] at hhi
    have := hs.apart j i (by omega) hi
    omega
  refine ⟨by omega, ?_⟩
  rcases Nat.eq_or_lt_of_le hij with rfl | hlt
  · exact hlo
  · have := hs'.apart i j hlt hj
    have := hs'.proper i (by omega)
    omega

/-- An entry does not end inside a table that covers no more. -/
theorem Table.Sorted.stop_le (hs' : t'.Sorted) (hcov : ∀ a, t.Covers a → t'.Covers a)
    (hi : i < t.count) (hi' : i < t'.count) (hbegin : (t'.extents i).begin = (t.extents i).begin) :
    (t.extents i).stop ≤ (t'.extents i).stop := by
  by_contra hlt
  have hproper := hs'.proper i hi'
  obtain ⟨k, hk, hlo, hhi⟩ := hcov (t'.extents i).stop ⟨i, hi, by omega, by omega⟩
  rcases lt_trichotomy k i with hki | rfl | hik
  · have := hs'.apart k i hki hi'
    omega
  · omega
  · have := hs'.apart i k hik hk
    omega

/-- **A table in canonical form** is determined by the addresses it covers. -/
theorem Table.Sorted.ext (hs : t.Sorted) (hs' : t'.Sorted) (hcov : ∀ a, t.Covers a ↔ t'.Covers a) :
    t.count = t'.count ∧ ∀ i < t.count, t.extents i = t'.extents i := by
  have hsame : ∀ i, (i < t.count ↔ i < t'.count) ∧
      (i < t.count → t.extents i = t'.extents i) := by
    intro i
    induction i using Nat.strong_induction_on with
    | h i ih =>
      have hthere := hs.begin_le hs' (i := i) (fun a => (hcov a).mp)
        fun k hk hk' => ((ih k hk).2 ((ih k hk).1.mpr hk')).symm
      have hback := hs'.begin_le hs (i := i) (fun a => (hcov a).mpr)
        fun k hk hk' => (ih k hk).2 hk'
      refine ⟨⟨fun hi => (hthere hi).1, fun hi => (hback hi).1⟩, fun hi => ?_⟩
      obtain ⟨hi', hle⟩ := hthere hi
      have hbegin : (t'.extents i).begin = (t.extents i).begin :=
        Nat.le_antisymm hle (hback hi').2
      have hstop : (t.extents i).stop = (t'.extents i).stop :=
        Nat.le_antisymm (hs'.stop_le (fun a => (hcov a).mp) hi hi' hbegin)
          (hs.stop_le (fun a => (hcov a).mpr) hi' hi hbegin.symm)
      rw [show t.extents i = ⟨(t.extents i).begin, (t.extents i).stop⟩ from rfl, ← hbegin, hstop]
  refine ⟨Nat.le_antisymm ?_ ?_, fun i hi => (hsame i).2 hi⟩
  · by_contra hlt
    exact Nat.lt_irrefl _ ((hsame t'.count).1.mp (by omega))
  · by_contra hlt
    exact Nat.lt_irrefl _ ((hsame t.count).1.mpr (by omega))

/-- A table of whole pages covers the addresses of its pages. -/
theorem Table.Paged.covers_iff (hp : t.Paged) (a : ℕ) : t.Covers a ↔ alignDown a ∈ t.pages := by
  have hdown : pageSize ∣ alignDown a := Nat.dvd_sub_mod a
  constructor
  · rintro ⟨i, hi, hlo, hhi⟩
    refine ⟨hdown, i, hi, ?_, ?_⟩
    · have hb := hp.begin_dvd i hi
      simp only [alignDown, pageSize] at *
      omega
    · simp only [alignDown]
      omega
  · intro hpage
    refine hp.covers_page hpage (Nat.sub_le _ _) ?_
    simp only [alignDown, pageSize]
    omega

end Canonical

/-! ## Exact subtraction -/

section Subtract

variable {t : Table} {removed : Extent} {i : ℕ}

/-- Subtracting `removed` cuts the extent in two. -/
def Splits (removed current : Extent) : Prop :=
  current.begin < removed.begin ∧ removed.stop < current.stop

/-- From entry `i` on, a split finds room for the upper half. -/
def SplitRoom (removed : Extent) (t : Table) (i : ℕ) : Prop :=
  t.count < maxExtents ∨ ∀ k, i ≤ k → k < t.count → ¬ Splits removed (t.extents k)

/-- A round that finds room leaves room for the next ones. -/
theorem SplitRoom.step (ht : t.Sorted) (hr : removed.begin < removed.stop) (hi : i < t.count)
    (hroom : SplitRoom removed t i) :
    SplitRoom removed (subtractStep removed t i).1 (subtractStep removed t i).2 := by
  have hstep : Subtracts removed t i (subtractStep removed t i) := subtractStep_spec hi
  by_cases hsplit : Splits removed (t.extents i)
  · -- what comes after a split begins behind `removed`
    refine .inr fun k hk hk' ⟨hlo, hhi⟩ => ?_
    rcases hstep.ahead k hk hk' with ⟨j, hj, hj', he⟩ | ⟨he, -⟩
    · have := ht.apart i j hj hj'
      have := hsplit.2
      rw [he] at hlo
      omega
    · rw [he] at hlo
      simp only at hlo
      omega
  · have hcount : (subtractStep removed t i).1.count ≤ t.count := by
      simp only [Splits] at hsplit
      simp only [subtractStep]
      split_ifs <;> simp only <;> omega
    refine hroom.imp (fun h => by omega) fun hnone k hk hk' => ?_
    rcases hstep.ahead k hk hk' with ⟨j, hj, hj', he⟩ | ⟨he, -⟩
    · rw [he]
      exact hnone j (by omega) hj'
    · rw [he, Splits]
      simp only
      omega

/-- The entries a round moves down, or up to make room for the upper half of a split. -/
theorem subtractStep_covers (hi : i < t.count) (hroom : SplitRoom removed t i)
    (ha : ¬ removed.Contains a) (hcov : t.Covers a) : (subtractStep removed t i).1.Covers a := by
  obtain ⟨k, hk, hlo, hhi⟩ := hcov
  simp only [Extent.Contains] at ha
  simp only [subtractStep]
  split_ifs with h₁ h₂ h₃ h₄ h₅
  · exact ⟨k, hk, hlo, hhi⟩
  · -- entry `i` lies in `removed`
    have hki : k ≠ i := by
      rintro rfl
      omega
    rcases Nat.lt_or_ge k i with hlt | hge
    · refine ⟨k, by simp only; omega, ?_⟩
      dsimp only
      rw [closeGap_apply _ _ _ _ (by omega), if_neg (by omega)]
      exact ⟨hlo, hhi⟩
    · refine ⟨k - 1, by simp only; omega, ?_⟩
      dsimp only
      rw [closeGap_apply _ _ _ _ (by omega), if_pos (by omega), Nat.sub_add_cancel (by omega)]
      exact ⟨hlo, hhi⟩
  · refine ⟨k, hk, ?_⟩
    rcases eq_or_ne k i with rfl | hne
    · simp only [Function.update_self]
      omega
    · simp only [Function.update_of_ne hne]
      exact ⟨hlo, hhi⟩
  · refine ⟨k, hk, ?_⟩
    rcases eq_or_ne k i with rfl | hne
    · simp only [Function.update_self]
      omega
    · simp only [Function.update_of_ne hne]
      exact ⟨hlo, hhi⟩
  · rcases lt_trichotomy k i with hki | rfl | hik
    · refine ⟨k, by simp only; omega, ?_⟩
      dsimp only
      rw [Function.update_of_ne (by omega), openGap_apply, if_neg (by omega),
        Function.update_of_ne (by omega)]
      exact ⟨hlo, hhi⟩
    · rcases Nat.lt_or_ge a removed.begin with hbelow | habove
      · refine ⟨k, by simp only; omega, ?_⟩
        dsimp only
        rw [Function.update_of_ne (by omega), openGap_apply, if_neg (by omega),
          Function.update_self]
        exact ⟨hlo, hbelow⟩
      · refine ⟨k + 1, by simp only; omega, ?_⟩
        dsimp only
        rw [Function.update_self]
        exact ⟨by simp only; omega, hhi⟩
    · refine ⟨k + 1, by simp only; omega, ?_⟩
      dsimp only
      rw [Function.update_of_ne (by omega), openGap_apply, if_pos (by omega), Nat.add_sub_cancel,
        Function.update_of_ne (by omega)]
      exact ⟨hlo, hhi⟩
  · -- the array is full, so nothing is split
    have hsplit : Splits removed (t.extents i) := ⟨by omega, by omega⟩
    exact absurd hsplit (hroom.resolve_left h₅ i (Nat.le_refl i) hi)

theorem subtractLoop_covers (hr : Reserved removed) (ha : ¬ removed.Contains a) :
    ∀ fuel (t : Table) (i : ℕ), t.Valid → SplitRoom removed t i → t.Covers a →
      (subtractLoop removed fuel t i).Covers a := by
  intro fuel
  induction fuel with
  | zero => exact fun t i _ _ hcov => hcov
  | succ fuel ih =>
    intro t i ht hroom hcov
    rw [subtractLoop]
    split_ifs with hi
    · exact ih _ _ (subtractStep_valid ht hr hi) (hroom.step ht.toSorted hr.proper hi)
        (subtractStep_covers hi hroom ha hcov)
    · exact hcov

/-- **A subtraction takes exactly the addresses it is given**, if a split finds room. -/
theorem covers_subtractExtent_iff (ht : t.Valid) (hr : Reserved removed)
    (hroom : SplitRoom removed t 0) :
    (subtractExtent t removed).Covers a ↔ t.Covers a ∧ ¬ removed.Contains a :=
  ⟨covers_subtractExtent ht hr, fun ⟨hcov, ha⟩ =>
    subtractLoop_covers hr ha _ t 0 ht hroom hcov⟩

/-- **A split needs one extent more** than the table has. -/
theorem ncard_runStarts_split (ht : t.Valid) (hr : Reserved removed) (hi : i < t.count)
    (hsplit : Splits removed (t.extents i)) :
    t.count < (runStarts (t.pages \ {page | removed.Contains page})).ncard := by
  obtain ⟨hlow, hhigh⟩ := hsplit
  have hproper := hr.proper
  have hbd := hr.begin_dvd
  have hib := ht.begin_dvd i hi
  have hsd : pageSize ∣ removed.stop :=
    hr.stop_dvd.resolve_right (by have := ht.stop_le i hi; omega)
  have hroom : removed.begin + pageSize ≤ removed.stop := by
    simp only [pageSize] at *
    omega
  have hback : pageSize ∣ removed.stop - pageSize := Nat.dvd_sub hsd dvd_rfl
  have hold : removed.stop ∉ runStarts t.pages := fun hstart =>
    hstart.2 ⟨hback, i, hi, by omega, by omega⟩
  have hsub : insert removed.stop (runStarts t.pages) ⊆
      runStarts (t.pages \ {page | removed.Contains page}) := by
    refine Set.insert_subset ⟨⟨⟨hsd, i, hi, by omega, hhigh⟩, fun hin => ?_⟩, fun hin => ?_⟩ ?_
    · exact Nat.lt_irrefl _ hin.2
    · exact hin.2 ⟨by omega, by simp only [pageSize] at *; omega⟩
    · rintro a ⟨hpage, hstart⟩
      refine ⟨⟨hpage, fun hremoved => hstart ?_⟩, fun hin => hstart hin.1⟩
      obtain ⟨hlo, hhi⟩ := hremoved
      -- an address in `removed` is not the first of its extent
      have hd := hpage.1
      exact ⟨Nat.dvd_sub hd dvd_rfl, i, hi, by simp only [pageSize] at *; omega, by omega⟩
  have hfinite : (runStarts (t.pages \ {page | removed.Contains page})).Finite :=
    ht.toPaged.pages_finite.subset fun a ha => ha.1.1
  have hle := Set.ncard_le_ncard hsub hfinite
  have hfinite' : (runStarts t.pages).Finite := ht.toPaged.pages_finite.subset fun a ha => ha.1
  rw [Set.ncard_insert_of_notMem hold hfinite', ncard_runStarts ht.toSorted ht.toPaged] at hle
  omega

/-- The pages a subtraction leaves, when they need no more extents than there are. -/
theorem pages_subtractExtent (ht : t.Valid) (hr : Reserved removed)
    (hroom : (runStarts (t.pages \ {page | removed.Contains page})).ncard ≤ maxExtents) :
    (subtractExtent t removed).pages = t.pages \ {page | removed.Contains page} := by
  have hsplit : SplitRoom removed t 0 := by
    by_contra hfull
    simp only [SplitRoom, not_or, not_forall, not_not] at hfull
    obtain ⟨hcount, k, -, hk, hsplit⟩ := hfull
    have := ncard_runStarts_split ht hr hk hsplit
    omega
  ext page
  simp only [Table.pages, Set.mem_ofPred_eq, Set.mem_sdiff]
  rw [covers_subtractExtent_iff ht hr hsplit, and_assoc]

end Subtract

/-! ## Exact insertion -/

/-- The pages of an extent. -/
def Extent.pages (e : Extent) : Set ℕ := {page | pageSize ∣ page ∧ e.Contains page}

/-- The pages of a table after an insertion, when they need no more extents than there are. -/
theorem pages_insertExtent {t : Table} {added : Extent} (ht : t.Valid)
    (hadd : added.begin < added.stop) (hsafe : MergeSafe t added) (hb : pageSize ∣ added.begin)
    (hs : pageSize ∣ added.stop) (hlow : pageSize ≤ added.begin)
    (hhigh : added.stop ≤ wordSize - pageSize)
    (hroom : (runStarts (t.pages ∪ added.pages)).ncard ≤ maxExtents) :
    (insertExtent t added).2.pages = t.pages ∪ added.pages := by
  have hmerged : (mergeInto t added).pages = t.pages ∪ added.pages := by
    ext page
    simp only [Table.pages, Extent.pages, Set.mem_ofPred_eq, Set.mem_union]
    rw [covers_mergeInto ht.toSorted hadd hsafe, and_or_left]
    rfl
  rw [insertExtent, if_neg]
  · exact hmerged
  · rintro ⟨hnone, hfull⟩
    have hcount := ncard_runStarts (mergeInto_sorted ht.toSorted hadd hsafe)
      (mergeInto_paged ht.toSorted hadd hsafe ht.toPaged hb hs hlow hhigh)
    rw [hmerged, mergeInto, hnone] at hcount
    simp only at hcount
    omega

/-! ## The two loops of `initialize` -/

section Loops

variable {region : BootMemoryRegion} {regions before others : List BootMemoryRegion} {t : Table}

theorem mapPages_usable :
    mapPages (before ++ [region]) [] = mapPages before [] ∪
      {page | region.type = .usable ∧ pageSize ∣ page ∧ page ≠ 0 ∧ region.Holds page} := by
  ext page
  constructor
  · rintro ⟨hd, hne, ⟨r, hr, hkind, hholds⟩, hout⟩
    rcases List.mem_append.mp hr with hr | hr
    · exact .inl ⟨hd, hne, ⟨r, hr, hkind, hholds⟩, hout⟩
    · obtain rfl := List.mem_singleton.mp hr
      exact .inr ⟨hkind, hd, hne, hholds⟩
  · rintro (⟨hd, hne, ⟨r, hr, hholds⟩, hout⟩ | ⟨hkind, hd, hne, hholds⟩)
    · exact ⟨hd, hne, ⟨r, List.mem_append_left _ hr, hholds⟩, hout⟩
    · exact ⟨hd, hne, ⟨region, by simp, hkind, hholds⟩, by simp⟩

theorem mapPages_others :
    mapPages regions (before ++ [region]) =
      mapPages regions before \ {page | region.type ≠ .usable ∧ region.Touches page} := by
  ext page
  constructor
  · rintro ⟨hd, hne, hin, hout⟩
    refine ⟨⟨hd, hne, hin, fun r hr => hout r (List.mem_append_left _ hr)⟩, ?_⟩
    rintro ⟨hkind, htouch⟩
    exact hout region (by simp) hkind htouch
  · rintro ⟨⟨hd, hne, hin, hout⟩, hclear⟩
    refine ⟨hd, hne, hin, fun r hr hkind htouch => ?_⟩
    rcases List.mem_append.mp hr with hr | hr
    · exact hout r hr hkind htouch
    · obtain rfl := List.mem_singleton.mp hr
      exact hclear ⟨hkind, htouch⟩

/-- The pages that the first loop adds for a region. -/
theorem mapPages_usable_of_align
    (hend : region.physicalStart.toNat + region.length.toNat < wordSize)
    (hkind : region.type = .usable) :
    mapPages (before ++ [region]) [] = mapPages before [] ∪
      {page | ∃ extent, alignUsable region = some extent ∧ page ∈ extent.pages} := by
  rw [mapPages_usable]
  congr 1
  ext page
  simp only [Set.mem_ofPred_eq, Extent.pages, hkind, true_and]
  constructor
  · rintro ⟨hd, hin⟩
    obtain ⟨extent, he, hpage⟩ := (alignUsable_iff hend hd).mpr hin
    exact ⟨extent, he, hd, hpage⟩
  · rintro ⟨extent, he, hd, hpage⟩
    exact ⟨hd, (alignUsable_iff hend hd).mp ⟨extent, he, hpage⟩⟩

/-- **The first loop** collects the pages of the usable regions. -/
theorem pages_insertUsable : ∀ (regions : List BootMemoryRegion) {t : Table}
    {before : List BootMemoryRegion}, t.Valid → UsableSafe t regions →
      (∀ region ∈ regions, region.physicalStart.toNat + region.length.toNat < wordSize) →
      (∀ mid, mid <+: regions → (runStarts (mapPages (before ++ mid) [])).ncard ≤ maxExtents) →
      t.pages = mapPages before [] →
      (insertUsable t regions).pages = mapPages (before ++ regions) [] := by
  intro regions
  induction regions with
  | nil =>
    intro t before _ _ _ _ hpages
    rw [insertUsable, List.append_nil, hpages]
  | cons region regions ih =>
    intro t before ht hsafe hend hroom hpages
    have hend' := hend region List.mem_cons_self
    have hone := hroom [region] (List.prefix_append [region] regions)
    -- what is left to do once the pages are those with `region`
    have hlater : ∀ {t' : Table}, t'.Valid → UsableSafe t' regions →
        t'.pages = mapPages (before ++ [region]) [] →
        (insertUsable t' regions).pages = mapPages (before ++ region :: regions) [] := by
      intro t' ht' hsafe' hpages'
      rw [List.append_cons]
      refine ih ht' hsafe' (fun r hr => hend r (List.mem_cons_of_mem _ hr)) (fun mid hmid => ?_)
        hpages'
      rw [← List.append_cons]
      exact hroom (region :: mid) (List.cons_prefix_cons.mpr ⟨rfl, hmid⟩)
    rw [UsableSafe] at hsafe
    rw [insertUsable]
    split_ifs at hsafe ⊢ with hkind
    · have hnew : mapPages (before ++ [region]) [] = mapPages before [] ∪ _ :=
        mapPages_usable_of_align hend' hkind
      cases hal : alignUsable region with
      | none =>
        simp only [hal] at hsafe ⊢
        refine hlater ht hsafe ?_
        rw [hpages, hnew]
        simp [hal]
      | some extent =>
        simp only [hal] at hsafe ⊢
        obtain ⟨hadd, hb, hs, hlow, hhigh⟩ := alignUsable_paged hal
        have hnew' : mapPages (before ++ [region]) [] = t.pages ∪ extent.pages := by
          rw [hnew, hpages]
          simp [hal]
        rw [hnew'] at hone
        refine hlater (insertExtent_valid ht hadd hsafe.1 hb hs hlow hhigh) hsafe.2 ?_
        rw [hnew', pages_insertExtent ht hadd hsafe.1 hb hs hlow hhigh hone]
    · refine hlater ht hsafe ?_
      rw [hpages, mapPages_usable]
      simp [hkind]

/-- **The second loop** takes out the pages that the other regions touch. -/
theorem pages_subtractReserved : ∀ (rest : List BootMemoryRegion) {t : Table}
    {before : List BootMemoryRegion}, t.Valid →
      (∀ region ∈ rest, region.physicalStart.toNat + region.length.toNat < wordSize) →
      (∀ mid, mid <+: rest →
        (runStarts (mapPages regions (before ++ mid))).ncard ≤ maxExtents) →
      t.pages = mapPages regions before →
      (subtractReserved t rest).pages = mapPages regions (before ++ rest) := by
  intro rest
  induction rest with
  | nil =>
    intro t before _ _ _ hpages
    rw [subtractReserved, List.append_nil, hpages]
  | cons region rest ih =>
    intro t before ht hend hroom hpages
    have hend' := hend region List.mem_cons_self
    have hone := hroom [region] (List.prefix_append [region] rest)
    have hlater : ∀ {t' : Table}, t'.Valid → t'.pages = mapPages regions (before ++ [region]) →
        (subtractReserved t' rest).pages = mapPages regions (before ++ region :: rest) := by
      intro t' ht' hpages'
      rw [List.append_cons]
      refine ih ht' (fun r hr => hend r (List.mem_cons_of_mem _ hr)) (fun mid hmid => ?_) hpages'
      rw [← List.append_cons]
      exact hroom (region :: mid) (List.cons_prefix_cons.mpr ⟨rfl, hmid⟩)
    rw [subtractReserved]
    split_ifs with hkind
    · -- on the pages of a table, `align_reserved` decides what the region touches
      have htouch : ∀ page ∈ t.pages, region.Touches page ↔
          ∃ extent, alignReserved region = some extent ∧ extent.Contains page := by
        rintro page ⟨hd, k, hk, hlo, hhi⟩
        refine (alignReserved_iff hend' hd ?_).symm
        have := ht.stop_le k hk
        omega
      cases hal : alignReserved region with
      | none =>
        refine hlater ht ?_
        rw [mapPages_others, ← hpages]
        refine (sdiff_eq_left.mpr (Set.disjoint_left.mpr fun page hpage hin => ?_)).symm
        obtain ⟨extent, he, -⟩ := (htouch page hpage).mp hin.2
        rw [hal] at he
        cases he
      | some extent =>
        have hr := alignReserved_reserved hal
        have hnew : mapPages regions (before ++ [region]) =
            t.pages \ {page | extent.Contains page} := by
          rw [mapPages_others, ← hpages]
          ext page
          refine and_congr_right fun hpage => not_congr ?_
          simp only [Set.mem_ofPred_eq, htouch page hpage, hal, Option.some.injEq, exists_eq_left']
          exact and_iff_right hkind
        rw [hnew] at hone
        refine hlater (subtractExtent_valid ht hr) ?_
        rw [hnew, pages_subtractExtent ht hr hone]
    · refine hlater ht ?_
      rw [mapPages_others, ← hpages]
      simp [hkind]

end Loops

/-! ## The result -/

/-- **What `initialize` should leave**: extents in order, none of them empty and no two touching,
that begin and end on page boundaries and together make up the pages of the map, and the number of
these pages. -/
structure Reduced (regions : List BootMemoryRegion) (s : State) : Prop where
  sorted : s.managed.Sorted
  aligned : ∀ i < s.managed.count,
    pageSize ∣ (s.managed.extents i).begin ∧ pageSize ∣ (s.managed.extents i).stop
  covers : ∀ a, s.managed.Covers a ↔
    ∃ page ∈ managedPages regions, page ≤ a ∧ a < page + pageSize
  total : s.total = (managedPages regions).ncard

/-- A map that is accepted, and the tables `initialize` makes of it. -/
theorem initializeFrom_managed (hversion : info.version = currentVersion) (s : State) :
    (initializeFrom info s).managed =
      subtractReserved (insertUsable s.managed.empty info.regions) info.regions := by
  rw [initializeFrom]
  split_ifs with hreject
  · -- without a list there are no regions either
    have hnone : info.memoryRegions = none := (hreject.resolve_left (not_not.mpr hversion)).2
    rw [BootInfo.regions, hnone, Option.getD_none, List.take_nil]
    rfl
  · rfl

theorem initializeFrom_total {s : State} (hm : (initializeFrom info s).managed.Valid) :
    (initializeFrom info s).total = (initializeFrom info s).managed.pages.ncard := by
  rw [← countPages_eq_ncard hm.toSorted hm.toPaged]
  simp only [initializeFrom]
  split_ifs with hreject
  · rfl
  · rfl

theorem mapPages_nil : mapPages [] [] = ∅ :=
  Set.eq_empty_iff_forall_notMem.mpr fun _ hpage => by
    obtain ⟨r, hr, -⟩ := hpage.inside
    cases hr

theorem initializeFrom_pages {s : State} (hversion : info.version = currentVersion)
    (hend : ∀ region ∈ info.regions, region.physicalStart.toNat + region.length.toNat < wordSize)
    (hroom : Roomy info.regions) (hsafe : UsableSafe s.managed.empty info.regions) :
    (initializeFrom info s).managed.Valid ∧
      (initializeFrom info s).managed.pages = managedPages info.regions := by
  rw [initializeFrom_managed hversion]
  have hempty : s.managed.empty.Valid := valid_of_count_eq_zero rfl
  have hvalid := insertUsable_valid _ hempty hsafe
  have hpages : (insertUsable s.managed.empty info.regions).pages = mapPages info.regions [] :=
    @pages_insertUsable info.regions _ [] hempty hsafe hend (fun mid hmid => (hroom mid hmid).1)
      ((pages_of_count_eq_zero rfl).trans mapPages_nil.symm)
  exact ⟨subtractReserved_valid _ hvalid,
    @pages_subtractReserved info.regions info.regions _ [] hvalid hend
      (fun mid hmid => (hroom mid hmid).2) hpages⟩

/-- The pages of a map do not depend on its order. -/
theorem managedPages_perm {regions regions' : List BootMemoryRegion}
    (hperm : regions'.Perm regions) : managedPages regions' = managedPages regions := by
  ext page
  constructor
  · rintro ⟨hd, hne, ⟨r, hr, hin⟩, hout⟩
    exact ⟨hd, hne, ⟨r, hperm.mem_iff.mp hr, hin⟩, fun r hr => hout r (hperm.mem_iff.mpr hr)⟩
  · rintro ⟨hd, hne, ⟨r, hr, hin⟩, hout⟩
    exact ⟨hd, hne, ⟨r, hperm.mem_iff.mpr hr, hin⟩, fun r hr => hout r (hperm.mem_iff.mp hr)⟩

/-- **The reduction is exact.** For a map of the current version whose regions end below `2 ^ 64`,
of which no step needs more than `maxExtents` extents, and whose insertions are `MergeSafe`, the
managed extents are the canonical form of the pages the map has to give; any order of the regions
that also meets this gives the same extents and the same number. -/
theorem initialize_exact (info : BootInfo) (s : State) (hversion : info.version = currentVersion)
    (hend : ∀ region ∈ info.regions,
      region.physicalStart.toNat + region.length.toNat < wordSize)
    (hroom : Roomy info.regions) (hsafe : UsableSafe s.managed.empty info.regions) :
    Reduced info.regions (initializeFrom info s) ∧
      ∀ (info' : BootInfo) (s' : State), info'.version = currentVersion →
        info'.regions.Perm info.regions → Roomy info'.regions →
        UsableSafe s'.managed.empty info'.regions →
          (initializeFrom info' s').managed.count = (initializeFrom info s).managed.count ∧
          (∀ i < (initializeFrom info' s').managed.count,
            (initializeFrom info' s').managed.extents i =
              (initializeFrom info s).managed.extents i) ∧
          (initializeFrom info' s').total = (initializeFrom info s).total := by
  obtain ⟨hvalid, hpages⟩ := initializeFrom_pages hversion hend hroom hsafe
  refine ⟨⟨hvalid.toSorted, fun i hi => ⟨hvalid.begin_dvd i hi, hvalid.stop_dvd i hi⟩, fun a => ?_,
    by rw [initializeFrom_total hvalid, hpages]⟩, fun info' s' hversion' hperm hroom' hsafe' => ?_⟩
  · rw [← hpages]
    constructor
    · intro hcov
      refine ⟨alignDown a, (hvalid.toPaged.covers_iff a).mp hcov, Nat.sub_le _ _, ?_⟩
      simp only [alignDown, pageSize]
      omega
    · rintro ⟨page, hpage, hlo, hhi⟩
      exact hvalid.toPaged.covers_page hpage hlo hhi
  · obtain ⟨hvalid', hpages'⟩ := initializeFrom_pages hversion'
      (fun r hr => hend r (hperm.mem_iff.mp hr)) hroom' hsafe'
    -- the pages decide the extents of a sorted table
    have hsame :
        (initializeFrom info' s').managed.pages = (initializeFrom info s).managed.pages := by
      rw [hpages, hpages', managedPages_perm hperm]
    obtain ⟨hcount, hextents⟩ := hvalid'.toSorted.ext hvalid.toSorted fun a => by
      rw [hvalid'.toPaged.covers_iff, hvalid.toPaged.covers_iff, hsame]
    refine ⟨hcount, hextents, ?_⟩
    rw [initializeFrom_total hvalid, initializeFrom_total hvalid', hsame]

/-- A map below 16 MiB has too few pages to need more extents. -/
theorem roomy_of_low {regions : List BootMemoryRegion}
    (hlow : ∀ region ∈ regions,
      region.physicalStart.toNat + region.length.toNat ≤ maxExtents * pageSize) :
    Roomy regions := by
  have hbound : ∀ usable others, (∀ region ∈ usable, region ∈ regions) →
      (runStarts (mapPages usable others)).ncard ≤ maxExtents := by
    intro usable others husable
    have hsub : runStarts (mapPages usable others) ⊆
        ((Finset.range maxExtents).image (pageSize * ·) : Finset ℕ) := by
      rintro page ⟨⟨⟨k, rfl⟩, -, ⟨r, hr, -, hin⟩, -⟩, -⟩
      have := hlow r (husable r hr)
      have := (BootMemoryRegion.holds_iff.mp hin).2
      refine Finset.mem_coe.mpr (Finset.mem_image.mpr ⟨k, Finset.mem_range.mpr ?_, rfl⟩)
      simp only [pageSize, maxExtents] at *
      omega
    calc (runStarts (mapPages usable others)).ncard
        ≤ ((Finset.range maxExtents).image (pageSize * ·)).card := by
          rw [← Set.ncard_coe_finset]
          exact Set.ncard_le_ncard hsub (Finset.finite_toSet _)
      _ ≤ maxExtents := Finset.card_image_le.trans (Finset.card_range _).le
  exact fun before hbefore => ⟨hbound before [] fun r hr => hbefore.subset hr,
    hbound regions before fun r hr => hr⟩

/-- The regions of `holedMap` in another order. -/
def holedMapTurned : BootInfo :=
  ⟨currentVersion, some [⟨0x3000, 0x4000, .usable⟩, ⟨0, 0x2000, .usable⟩, ⟨0x6800, 0x400, .mmio⟩,
    ⟨0x5000, 0x2000, .usable⟩], 4⟩

/-- Both orders of the holed map give four pages in two extents. -/
theorem initialize_exact_holedMap :
    Reduced holedMap.regions (initializeFrom holedMap blankState) ∧
      (initializeFrom holedMapTurned blankState).managed.count =
        (initializeFrom holedMap blankState).managed.count := by
  have hroom : Roomy holedMap.regions := roomy_of_low (by decide +kernel)
  have hroom' : Roomy holedMapTurned.regions := roomy_of_low (by decide +kernel)
  obtain ⟨hreduced, horder⟩ := initialize_exact holedMap blankState rfl (by decide +kernel) hroom
    (by decide +kernel)
  exact ⟨hreduced,
    (horder holedMapTurned blankState rfl (by decide +kernel) hroom' (by decide +kernel)).1⟩

/-! ### A map of which a page is lost -/

/-- Four single pages with gaps between them, and the gap between the first two. -/
def joinedMap : BootInfo :=
  ⟨currentVersion, some [⟨0x1000, 0x1000, .usable⟩, ⟨0x3000, 0x1000, .usable⟩,
    ⟨0x5000, 0x1000, .usable⟩, ⟨0x7000, 0x1000, .usable⟩, ⟨0x2000, 0x1000, .usable⟩], 5⟩

/-- **A usable page is lost**: the last region joins two extents while two more stand behind them,
and the page at `0x5000` is overwritten by the one at `0x7000`, which is then listed twice. -/
theorem joinedMap_lost :
    joinedMap.version = currentVersion ∧
      (∀ region ∈ joinedMap.regions,
        region.physicalStart.toNat + region.length.toNat < wordSize) ∧
      Roomy joinedMap.regions ∧ 0x5000 ∈ managedPages joinedMap.regions ∧
      ¬ Reduced joinedMap.regions (initializeFrom joinedMap blankState) ∧
      (initializeFrom joinedMap blankState).managed.extents 1 = ⟨0x7000, 0x8000⟩ ∧
      (initializeFrom joinedMap blankState).managed.extents 2 = ⟨0x7000, 0x8000⟩ := by
  have hpage : 0x5000 ∈ managedPages joinedMap.regions := by
    refine ⟨by decide, by decide, ⟨⟨0x5000, 0x1000, .usable⟩, by decide +kernel, rfl, ?_⟩, ?_⟩
    · exact BootMemoryRegion.holds_iff.mpr (by decide +kernel)
    · intro region hregion hkind
      exact absurd (show region.type = .usable by revert region; decide +kernel) hkind
  refine ⟨rfl, by decide +kernel, roomy_of_low (by decide +kernel), hpage, fun hreduced => ?_,
    by decide +kernel, by decide +kernel⟩
  have := hreduced.sorted.apart 1 2 (by decide) (by decide +kernel)
  revert this
  decide +kernel

end ShirleysOS.Memory
