import ShirleysOS.Memory.NoDoubleAllocation

/-!
# The page allocator respects the memory map

`initialize` keeps the whole pages of the usable regions and then takes out every page that a
region of another kind touches. What `allocate_page` returns afterwards should come from what
is left. It does in every run whose insertions are `MergeSafe`, however many regions there are
and in whatever order, and however full the tables get: a table without room only loses pages.

An insertion that is not `MergeSafe` leaves a table that is out of order. The next insertion
takes every extent that begins before its own end for a neighbour, and so can swallow the gap
between two extents.
-/

namespace ShirleysOS.Memory

/-- The byte at `a` belongs to the region. -/
def BootMemoryRegion.Contains (region : BootMemoryRegion) (a : ℕ) : Prop :=
  region.physicalStart.toNat ≤ a ∧ a < region.physicalStart.toNat + region.length.toNat

instance (region : BootMemoryRegion) (a : ℕ) : Decidable (region.Contains a) :=
  inferInstanceAs (Decidable (_ ∧ _))

/-- The page at `page` may be handed out: it is not the failure sentinel, shares no byte with a
non-usable region, and every byte of it belongs to a usable one. -/
structure Allowed (regions : List BootMemoryRegion) (page : ℕ) : Prop where
  ne_zero : page ≠ 0
  reserved : ∀ region ∈ regions, region.type ≠ .usable →
    ∀ a, page ≤ a → a < page + pageSize → ¬ region.Contains a
  usable : ∀ a, page ≤ a → a < page + pageSize →
    ∃ region ∈ regions, region.type = .usable ∧ region.Contains a

/-! ## What `initialize` manages -/

variable {a : ℕ} {info : BootInfo} {s : State}

theorem alignUsable_contains {region : BootMemoryRegion} {extent : Extent}
    (h : alignUsable region = some extent) (ha : extent.Contains a) : region.Contains a := by
  simp only [alignUsable, Option.ite_none_left_eq_some] at h
  obtain ⟨hfits, -, he⟩ := h
  obtain rfl := Option.some.inj he
  clear he
  have hbegin := ha.1
  have hstop := ha.2
  simp only at hbegin hstop
  by_cases hzero : alignDown (region.physicalStart.toNat + pageSize - 1) = 0
  · rw [if_pos hzero] at hbegin
    simp only [BootMemoryRegion.Contains, alignDown, pageSize, wordSize] at *
    omega
  · rw [if_neg hzero] at hbegin
    simp only [BootMemoryRegion.Contains, alignDown, pageSize, wordSize] at *
    omega

/-- The pages `align_reserved` finds hold every byte of a region that ends below `2 ^ 64`. -/
theorem alignReserved_contains {region : BootMemoryRegion}
    (hend : region.physicalStart.toNat + region.length.toNat < wordSize) (ha : region.Contains a) :
    ∃ extent, alignReserved region = some extent ∧
      extent.Contains a := by
  simp only [BootMemoryRegion.Contains] at ha
  simp only [alignReserved, alignDown, Extent.Contains]
  split_ifs <;> simp only [pageSize, wordSize, false_and, exists_false,
    Option.some.injEq, exists_eq_left'] at * <;> omega

theorem covers_insertExtent {t : Table} {added : Extent} (ht : t.Valid)
    (hadd : added.begin < added.stop) (hsafe : MergeSafe t added)
    (h : (insertExtent t added).2.Covers a) : t.Covers a ∨ added.Contains a := by
  rw [insertExtent] at h
  split_ifs at h
  · exact Or.inl h
  · exact (covers_mergeInto ht.toSorted hadd hsafe a).mp h

/-- Every address the first loop of `initialize` collects belongs to a usable region. -/
theorem covers_insertUsable : ∀ (regions : List BootMemoryRegion) {t : Table}, t.Valid →
    UsableSafe t regions → ∀ {a : ℕ}, (insertUsable t regions).Covers a →
      t.Covers a ∨ ∃ region ∈ regions, region.type = .usable ∧ region.Contains a := by
  intro regions
  induction regions with
  | nil => exact fun _ _ _ h => Or.inl h
  | cons region regions ih =>
    intro t ht hsafe a h
    rw [UsableSafe] at hsafe
    rw [insertUsable] at h
    have later : (∃ region ∈ regions, region.type = .usable ∧ region.Contains a) →
        ∃ r ∈ region :: regions, r.type = .usable ∧ r.Contains a := by
      rintro ⟨r, hr, hc⟩
      exact ⟨r, List.mem_cons_of_mem _ hr, hc⟩
    split_ifs at hsafe h with husable
    · cases hal : alignUsable region with
      | none =>
        simp only [hal] at hsafe h
        exact (ih ht hsafe h).imp_right later
      | some extent =>
        simp only [hal] at hsafe h
        obtain ⟨hadd, hb, hs, hlow, hhigh⟩ := alignUsable_paged hal
        rcases ih (insertExtent_valid ht hadd hsafe.1 hb hs hlow hhigh) hsafe.2 h with hcov | hreg
        · refine (covers_insertExtent ht hadd hsafe.1 hcov).imp_right fun hnew => ?_
          exact ⟨region, List.mem_cons_self, husable, alignUsable_contains hal hnew⟩
        · exact Or.inr (later hreg)
    · exact (ih ht hsafe h).imp_right later

/-- The second loop of `initialize` takes out every byte of the non-usable regions. -/
theorem covers_subtractReserved : ∀ (regions : List BootMemoryRegion) {t : Table}, t.Valid →
    ∀ {a : ℕ}, (subtractReserved t regions).Covers a → t.Covers a ∧
      ∀ region ∈ regions, region.type ≠ .usable →
        region.physicalStart.toNat + region.length.toNat < wordSize → ¬ region.Contains a := by
  intro regions
  induction regions with
  | nil => exact fun _ _ h => ⟨h, fun _ hr => by cases hr⟩
  | cons region regions ih =>
    intro t ht a h
    rw [subtractReserved] at h
    -- the step at `region` keeps `t` valid, takes nothing in, and leaves no byte of `region`
    have step : ∃ t' : Table, t'.Valid ∧ (subtractReserved t' regions).Covers a ∧
        (t'.Covers a → t.Covers a ∧ (region.type ≠ .usable →
          region.physicalStart.toNat + region.length.toNat < wordSize → ¬ region.Contains a)) := by
      split at h
      · next hkind =>
        cases hal : alignReserved region with
        | none =>
          simp only [hal] at h
          refine ⟨t, ht, h, fun hcov => ⟨hcov, fun _ hend hin => ?_⟩⟩
          obtain ⟨extent, he, -⟩ := alignReserved_contains hend hin
          rw [hal] at he
          cases he
        | some extent =>
          simp only [hal] at h
          have hr := alignReserved_reserved hal
          refine ⟨_, subtractExtent_valid ht hr, h, fun hcov => ?_⟩
          obtain ⟨hold, hout⟩ := covers_subtractExtent ht hr hcov
          refine ⟨hold, fun _ hend hin => hout ?_⟩
          obtain ⟨e, he, hc⟩ := alignReserved_contains hend hin
          obtain rfl := Option.some.inj (hal.symm.trans he)
          exact hc
      · next hkind => exact ⟨t, ht, h, fun hcov => ⟨hcov, fun hne => absurd hne hkind⟩⟩
    obtain ⟨t', ht', hcov, hstep⟩ := step
    obtain ⟨hcov', hrest⟩ := ih ht' hcov
    refine ⟨(hstep hcov').1, fun r hr => ?_⟩
    rcases List.mem_cons.mp hr with rfl | hr'
    · exact (hstep hcov').2
    · exact hrest r hr'

/-! ## The invariant of a run -/

/-- **The invariant**: both tables are valid, and what is free is managed. -/
structure Run.Contained (r : Run) : Prop where
  managed_valid : r.state.managed.Valid
  free_valid : r.state.freeExtents.Valid
  pages_subset : r.state.freeExtents.pages ⊆ r.state.managed.pages

variable {r : Run}

theorem Run.Contained.allocatePage (h : r.Contained) : (r.step .allocatePage).Contained := by
  by_cases hne : r.state.freeExtents.count = 0
  · have hsame : (r.step .allocatePage).state =
        r.state := by simp [Run.step, Memory.allocatePage, hne]
    constructor <;> rw [hsame]
    · exact h.managed_valid
    · exact h.free_valid
    · exact h.pages_subset
  · obtain ⟨hvalid, hpages⟩ := allocatePage_free h.free_valid hne
    refine ⟨?_, hvalid, ?_⟩
    · rw [step_managed]
      exact h.managed_valid
    · rw [step_managed]
      exact (hpages.trans_subset Set.sdiff_subset).trans h.pages_subset

theorem Run.Contained.freePage (h : r.Contained) {address : UInt64}
    (hsafe : CallSafe r.state (.freePage address)) : (r.step (.freePage address)).Contained := by
  suffices hfree : (Memory.freePage address r.state).freeExtents.Valid ∧
      (Memory.freePage address r.state).freeExtents.pages ⊆ r.state.managed.pages from
    ⟨by rw [step_managed]; exact h.managed_valid, hfree.1, by rw [step_managed]; exact hfree.2⟩
  by_cases href : Refused address r.state
  · rw [show Memory.freePage address r.state = r.state from if_pos href]
    exact ⟨h.free_valid, h.pages_subset⟩
  · -- the page that comes back is a managed one
    obtain ⟨haligned, hmanaged, -⟩ : address.toNat % pageSize = 0 ∧
        contains r.state.managed address.toNat = true ∧
        contains r.state.freeExtents address.toNat = false := by
      simpa [Refused, not_or] using href
    have hmem : address.toNat ∈ r.state.managed.pages :=
      ⟨Nat.dvd_of_mod_eq_zero haligned,
        (contains_eq_true_iff h.managed_valid.toSorted _).mp hmanaged⟩
    have ha := h.managed_valid.returns r.state.freeExtents hmem
    have hhigh := ha.high
    have hwrap : (address.toNat + pageSize) % wordSize = address.toNat + pageSize := by
      refine Nat.mod_eq_of_lt ?_
      simp only [pageSize, wordSize] at *
      omega
    have hm := hsafe.resolve_left href
    rw [hwrap] at hm
    have hfree : (Memory.freePage address r.state).freeExtents =
        (insertExtent r.state.freeExtents ⟨address.toNat, address.toNat + pageSize⟩).2 := by
      rw [Memory.freePage]
      simp only [hwrap]
      rw [show (if address.toNat % pageSize ≠ 0 ∨ _ ∨ _ then _ else _) = _ from if_neg href]
      split <;> next heq => rw [heq]
    rw [hfree]
    have hadd : address.toNat < address.toNat + pageSize := by simp [pageSize]
    refine ⟨insertExtent_valid h.free_valid hadd hm ha.dvd
      ((Nat.dvd_add_iff_left dvd_rfl).mp ha.dvd) ha.low ha.high, ?_⟩
    rw [insertExtent]
    split_ifs
    · exact h.pages_subset
    · rw [pages_mergeInto h.free_valid ha hm]
      exact Set.insert_subset hmem h.pages_subset

theorem initializeFrom_contained (hsafe : info.Rejected ∨ UsableSafe s.managed.empty info.regions) :
    Run.Contained ⟨initializeFrom info s, ∅⟩ := by
  have h := initializeFrom_invariant hsafe
  exact ⟨h.managed_valid, h.free_valid, h.pages_eq.trans_subset Set.sdiff_subset⟩

theorem run_contained {calls : List Call} (hsafe : RunSafe info s calls) :
    ∀ before, before <+: calls → (run info s before).Contained := by
  intro before
  induction before using List.reverseRecOn with
  | nil => exact fun _ => initializeFrom_contained hsafe.1
  | append_singleton before call ih =>
    intro hpre
    have h := ih ((List.prefix_append before [call]).trans hpre)
    rw [run_concat]
    cases call with
    | allocatePage => exact h.allocatePage
    | freePage address => exact h.freePage (hsafe.2.initial hpre)

/-! ## What is managed is allowed -/

/-- A table of whole pages covers every byte of a page it covers. -/
theorem Table.Paged.covers_page {t : Table} (ht : t.Paged) {page : ℕ} (hpage : page ∈ t.pages)
    (h₁ : page ≤ a) (h₂ : a < page + pageSize) : t.Covers a := by
  obtain ⟨hd, i, hi, hb, hs⟩ := hpage
  have hsd := ht.stop_dvd i hi
  refine ⟨i, hi, hb.trans h₁, ?_⟩
  simp only [pageSize] at *
  omega

/-- Every byte of a managed page belongs to a usable region and to no other, except that a
non-usable region that reaches the end of the address space is ignored. -/
theorem byte_of_mem_managed (hsafe : info.Rejected ∨ UsableSafe s.managed.empty info.regions)
    {page : ℕ} (hpage : page ∈ (initializeFrom info s).managed.pages) (h₁ : page ≤ a)
    (h₂ : a < page + pageSize) :
    (∃ region ∈ info.regions, region.type = .usable ∧ region.Contains a) ∧
      ∀ region ∈ info.regions, region.type ≠ .usable →
        region.physicalStart.toNat + region.length.toNat < wordSize → ¬ region.Contains a := by
  by_cases hreject : info.Rejected
  · rw [initializeFrom, if_pos (by simpa [BootInfo.Rejected] using hreject)] at hpage
    rw [pages_of_count_eq_zero rfl] at hpage
    cases hpage
  have husable := hsafe.resolve_left hreject
  have hempty : s.managed.empty.Valid := valid_of_count_eq_zero rfl
  have hcov := (initializeFrom_contained hsafe).managed_valid.toPaged.covers_page hpage h₁ h₂
  rw [initializeFrom, if_neg (by simpa [BootInfo.Rejected] using hreject)] at hcov
  obtain ⟨hins, hout⟩ :=
    covers_subtractReserved info.regions (insertUsable_valid _ hempty husable) hcov
  refine ⟨?_, hout⟩
  rcases covers_insertUsable info.regions hempty husable hins with ⟨i, hi, -⟩ | hregion
  · exact absurd hi (Nat.not_lt_zero i)
  · exact hregion

/-- In a safe run the page `allocate_page` returns next is a managed one. -/
theorem run_page_mem_managed {calls before : List Call} (hsafe : RunSafe info s calls)
    (hpre : before <+: calls) (hcount : (run info s before).state.freeExtents.count ≠ 0) :
    (allocatePage (run info s before).state).1 ∈ (initializeFrom info s).managed.pages := by
  have h := run_contained hsafe before hpre
  have hhead := h.pages_subset (h.free_valid.head hcount).1
  rw [run_managed] at hhead
  simpa [Memory.allocatePage, hcount] using hhead

/-- **The allocator respects the memory map.** In a run whose insertions are safe, a page that
`allocate_page` returns in any state reached is allowed by the memory map; with no free extent
it returns the sentinel. -/
theorem run_allowed (info : BootInfo) (s : State) (calls : List Call)
    (hmap : ∀ region ∈ info.regions, region.type ≠ .usable →
      region.physicalStart.toNat + region.length.toNat < wordSize)
    (hsafe : RunSafe info s calls) (before : List Call) (hpre : before <+: calls) :
    if (run info s before).state.freeExtents.count = 0
    then (allocatePage (run info s before).state).1 = 0
    else Allowed info.regions (allocatePage (run info s before).state).1 := by
  split_ifs with hcount
  · simp [Memory.allocatePage, hcount]
  · have hpage := run_page_mem_managed hsafe hpre hcount
    have hvalid := (initializeFrom_contained hsafe.1).managed_valid
    refine ⟨?_, fun region hr hkind a h₁ h₂ => ?_, fun a h₁ h₂ => ?_⟩
    · have := (hvalid.toPaged.pages_subset hpage).1
      omega
    · exact (byte_of_mem_managed hsafe.1 hpage h₁ h₂).2 region hr hkind (hmap region hr hkind)
    · exact (byte_of_mem_managed hsafe.1 hpage h₁ h₂).1

/-- Three usable regions around a reserved page, in no order, and the page below them. -/
def holedMap : BootInfo :=
  ⟨currentVersion, some [⟨0x5000, 0x2000, .usable⟩, ⟨0x6800, 0x400, .mmio⟩, ⟨0, 0x2000, .usable⟩,
    ⟨0x3000, 0x4000, .usable⟩], 4⟩

/-- A run over them that takes pages and gives one back. -/
theorem run_allowed_holedMap :
    Allowed holedMap.regions (allocatePage (run holedMap blankState
      [.allocatePage, .allocatePage, .freePage 0x1000]).state).1 := by
  have h := run_allowed holedMap blankState [.allocatePage, .allocatePage, .freePage 0x1000]
    (by decide +kernel) ⟨Or.inr (by decide +kernel), by decide +kernel⟩ _ (List.prefix_refl _)
  rwa [if_neg (by decide +kernel)] at h

/-! ### A map from which a page outside it is allocated -/

/-- Seven single pages with gaps between them, a region that joins the first three, and one
page right behind the last. -/
def scatteredMap : BootInfo :=
  ⟨currentVersion, some [⟨0x1000, 0x1000, .usable⟩, ⟨0x3000, 0x1000, .usable⟩,
    ⟨0x5000, 0x1000, .usable⟩, ⟨0x7000, 0x1000, .usable⟩, ⟨0x9000, 0x1000, .usable⟩,
    ⟨0xb000, 0x1000, .usable⟩, ⟨0xd000, 0x1000, .usable⟩, ⟨0x1000, 0x5000, .usable⟩,
    ⟨0xe000, 0x1000, .usable⟩], 9⟩

/-- **A page outside the memory map is allocated**: the region that joins three extents leaves
the last two listed twice and out of order, and the one after it then takes the gap at `0xc000`
for part of an extent. The eighth page allocated is that gap. -/
theorem unusable_allocated :
    (∀ region ∈ scatteredMap.regions, region.type ≠ .usable →
      region.physicalStart.toNat + region.length.toNat < wordSize) ∧
    (run scatteredMap blankState (List.replicate 7 .allocatePage)).state.freeExtents.count ≠ 0 ∧
    ¬ Allowed scatteredMap.regions
      (allocatePage (run scatteredMap blankState (List.replicate 7 .allocatePage)).state).1 := by
  refine ⟨by decide +kernel, by decide +kernel, fun h => ?_⟩
  have hpage : (allocatePage (run scatteredMap blankState
      (List.replicate 7 .allocatePage)).state).1 = 0xc000 := by decide +kernel
  rw [hpage] at h
  obtain ⟨region, hr, -, hin⟩ := h.usable 0xc000 le_rfl (by simp [pageSize])
  revert region
  decide +kernel

end ShirleysOS.Memory
