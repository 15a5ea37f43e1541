import ShirleysOS.Memory.ExtentTable

/-!
# No page is allocated twice

The free extents are meant to cover exactly the managed pages that are not outstanding. They
do in every run whose insertions are `MergeSafe`. A run with one that is not can lose a free
extent and list another twice, and then the same page is handed out two times: freeing a page
that joins two free extents while two more stand behind them is enough.
-/

namespace ShirleysOS.Memory

open Lib

/-- **What a caller may rely on**: the free extents cover the managed pages that are not
outstanding, `free_pages` counts them, and the page `allocate_page` would return next is one
of them, or 0 when there is none. -/
structure Run.Correct (r : Run) : Prop where
  pages_eq : r.state.freeExtents.pages = r.state.managed.pages \ r.outstanding
  freePages_eq : freePages r.state = r.state.freeExtents.pages.ncard
  page_new : (allocatePage r.state).1 ≠ 0 →
    (allocatePage r.state).1 ∈ r.state.managed.pages ∧ (allocatePage r.state).1 ∉ r.outstanding
  page_zero : (allocatePage r.state).1 = 0 → r.state.freeExtents.pages = ∅

/-- The pages that are free after each call never need more than `maxExtents` extents. -/
def Fits (info : BootInfo) (s : State) (calls : List Call) : Prop :=
  ∀ before, before <+: calls →
    (runStarts ((run info s before).state.managed.pages \ (run info s before).outstanding)).ncard ≤
      maxExtents

/-! ## The condition on the insertions of a run -/

/-- Every insertion of the first loop of `initialize` is `MergeSafe`. -/
def UsableSafe (t : Table) : List BootMemoryRegion → Prop
  | [] => True
  | region :: regions =>
    if region.type = .usable then
      match alignUsable region with
      | some extent => MergeSafe t extent ∧ UsableSafe (insertExtent t extent).2 regions
      | none => UsableSafe t regions
    else UsableSafe t regions

/-- `free_page` refuses the address. -/
def Refused (address : UInt64) (s : State) : Prop :=
  address.toNat % pageSize ≠ 0 ∨ contains s.managed address.toNat = false ∨
    contains s.freeExtents address.toNat = true

/-- The insertion of the call, if it makes one, is `MergeSafe`. -/
def CallSafe (s : State) : Call → Prop
  | .allocatePage => True
  | .freePage address =>
    Refused address s ∨
      MergeSafe s.freeExtents ⟨address.toNat, (address.toNat + pageSize) % wordSize⟩

/-- Every call of `calls`, made one after the other from `r`, is safe. -/
def CallsSafe (r : Run) : List Call → Prop
  | [] => True
  | call :: calls => CallSafe r.state call ∧ CallsSafe (r.step call) calls

/-- `initialize` refuses the boot information, and manages nothing. -/
def BootInfo.Rejected (info : BootInfo) : Prop :=
  info.version ≠ currentVersion ∨ (info.memoryRegionCount ≠ 0 ∧ info.memoryRegions.isNone)

/-- Every insertion of the run, during `initialize` and in `free_page`, is `MergeSafe`. -/
def RunSafe (info : BootInfo) (s : State) (calls : List Call) : Prop :=
  (info.Rejected ∨ UsableSafe s.managed.empty info.regions) ∧ CallsSafe (run info s []) calls

instance decidableUsableSafe : (t : Table) → (regions : List BootMemoryRegion) →
    Decidable (UsableSafe t regions)
  | _, [] => isTrue trivial
  | t, region :: regions =>
    if h : region.type = .usable then
      match hal : alignUsable region with
      | some extent =>
        have := decidableUsableSafe (insertExtent t extent).2 regions
        decidable_of_iff (MergeSafe t extent ∧ UsableSafe (insertExtent t extent).2 regions)
          (by simp [UsableSafe, h, hal])
      | none =>
        have := decidableUsableSafe t regions
        decidable_of_iff (UsableSafe t regions) (by simp [UsableSafe, h, hal])
    else
      have := decidableUsableSafe t regions
      decidable_of_iff (UsableSafe t regions) (by simp [UsableSafe, h])

instance (address : UInt64) (s : State) : Decidable (Refused address s) :=
  inferInstanceAs (Decidable (_ ∨ _ ∨ _))

instance decidableCallSafe (s : State) : (call : Call) → Decidable (CallSafe s call)
  | .allocatePage => isTrue trivial
  | .freePage _ => inferInstanceAs (Decidable (_ ∨ _))

instance decidableCallsSafe : (r : Run) → (calls : List Call) → Decidable (CallsSafe r calls)
  | _, [] => isTrue trivial
  | r, call :: calls =>
    have := decidableCallsSafe (r.step call) calls
    inferInstanceAs (Decidable (_ ∧ _))

theorem CallsSafe.initial : ∀ {calls before : List Call} {r : Run} {call : Call},
    CallsSafe r calls → before ++ [call] <+: calls →
      CallSafe (before.foldl Run.step r).state call := by
  intro calls
  induction calls with
  | nil => intro before r call _ hpre; simp at hpre
  | cons first calls ih =>
    intro before r call hsafe hpre
    cases before with
    | nil =>
      obtain ⟨rfl, -⟩ := List.cons_prefix_cons.mp hpre
      exact hsafe.1
    | cons b before =>
      obtain ⟨rfl, hrest⟩ := List.cons_prefix_cons.mp hpre
      change CallSafe (before.foldl Run.step (r.step b)).state call
      exact ih hsafe.2 hrest

/-! ## Initialization -/

theorem alignUsable_paged {region : BootMemoryRegion} {extent : Extent}
    (h : alignUsable region = some extent) :
    extent.begin < extent.stop ∧ pageSize ∣ extent.begin ∧ pageSize ∣ extent.stop ∧
      pageSize ≤ extent.begin ∧ extent.stop ≤ wordSize - pageSize := by
  simp only [alignUsable] at h
  by_cases hbad : region.length.toNat = 0 ∨
      region.physicalStart.toNat > wordSize - 1 - region.length.toNat ∨
      region.physicalStart.toNat > wordSize - 1 - (pageSize - 1)
  · rw [if_pos hbad] at h
    cases h
  · rw [if_neg hbad] at h
    obtain ⟨hge, he⟩ := Option.ite_none_left_eq_some.mp h
    obtain rfl := Option.some.inj he
    clear h he
    have hlength := region.length.toNat_lt
    by_cases hzero : alignDown (region.physicalStart.toNat + pageSize - 1) = 0
    · rw [if_pos hzero] at hge ⊢
      simp only [alignDown, pageSize, wordSize] at *
      refine ⟨?_, ?_, ?_, ?_, ?_⟩ <;> omega
    · rw [if_neg hzero] at hge ⊢
      simp only [alignDown, pageSize, wordSize] at *
      refine ⟨?_, ?_, ?_, ?_, ?_⟩ <;> omega

theorem insertExtent_valid {t : Table} {added : Extent} (ht : t.Valid)
    (hadd : added.begin < added.stop) (hsafe : MergeSafe t added) (hb : pageSize ∣ added.begin)
    (hs : pageSize ∣ added.stop) (hlow : pageSize ≤ added.begin)
    (hhigh : added.stop ≤ wordSize - pageSize) : (insertExtent t added).2.Valid := by
  rw [insertExtent]
  split_ifs with hfull
  · exact ht
  · refine ⟨mergeInto_sorted ht.toSorted hadd hsafe,
      mergeInto_paged ht.toSorted hadd hsafe ht.toPaged hb hs hlow hhigh, ?_⟩
    have h₁ := (mergeLast_spec ht.toSorted hadd).le_count
    have h₂ := ht.count_le
    simp only [mergeInto, mergeCount] at hfull ⊢
    omega

theorem insertUsable_valid : ∀ (regions : List BootMemoryRegion) {t : Table}, t.Valid →
    UsableSafe t regions → (insertUsable t regions).Valid := by
  intro regions
  induction regions with
  | nil => exact fun ht _ => ht
  | cons region regions ih =>
    intro t ht hsafe
    rw [UsableSafe] at hsafe
    rw [insertUsable]
    split_ifs at hsafe ⊢
    · cases hal : alignUsable region with
      | none =>
        simp only [hal] at hsafe ⊢
        exact ih ht hsafe
      | some extent =>
        simp only [hal] at hsafe ⊢
        obtain ⟨hadd, hb, hs, hlow, hhigh⟩ := alignUsable_paged hal
        exact ih (insertExtent_valid ht hadd hsafe.1 hb hs hlow hhigh) hsafe.2
    · exact ih ht hsafe

theorem subtractReserved_valid : ∀ (regions : List BootMemoryRegion) {t : Table}, t.Valid →
    (subtractReserved t regions).Valid := by
  intro regions
  induction regions with
  | nil => exact fun ht => ht
  | cons region regions ih =>
    intro t ht
    rw [subtractReserved]
    split
    · cases hal : alignReserved region with
      | none => exact ih ht
      | some extent => exact ih (subtractExtent_valid ht (alignReserved_reserved hal))
    · exact ih ht

theorem valid_of_count_eq_zero {t : Table} (h : t.count = 0) : t.Valid :=
  ⟨⟨fun _ _ => by omega, fun _ _ _ _ => by omega⟩,
    ⟨fun _ _ => by omega, fun _ _ => by omega, fun _ _ => by omega, fun _ _ => by omega⟩,
    by simp [h]⟩

/-! ## The invariant of a run -/

/-- **The invariant**: both tables are valid, the outstanding pages are managed ones, and the
free table covers the others. -/
structure Run.Invariant (r : Run) : Prop where
  managed_valid : r.state.managed.Valid
  free_valid : r.state.freeExtents.Valid
  outstanding_subset : (r.outstanding : Set ℕ) ⊆ r.state.managed.pages
  pages_eq : r.state.freeExtents.pages = r.state.managed.pages \ r.outstanding
  available_eq : r.state.available = r.state.freeExtents.pages.ncard

theorem pages_of_count_eq_zero {t : Table} (h : t.count = 0) : t.pages = ∅ := by
  ext a
  simp only [Table.pages, Set.mem_ofPred_eq, Set.mem_empty_iff_false, iff_false]
  rintro ⟨-, i, hi, -⟩
  omega

theorem initializeFrom_invariant {info : BootInfo} {s : State}
    (hsafe : info.Rejected ∨ UsableSafe s.managed.empty info.regions) :
    Run.Invariant ⟨initializeFrom info s, ∅⟩ := by
  rw [initializeFrom]
  split_ifs with hreject
  · have h₁ : s.managed.empty.count = 0 := rfl
    have h₂ : s.freeExtents.empty.count = 0 := rfl
    refine ⟨valid_of_count_eq_zero h₁, valid_of_count_eq_zero h₂, by simp, ?_, ?_⟩
    · simp [pages_of_count_eq_zero h₁, pages_of_count_eq_zero h₂]
    · simp [pages_of_count_eq_zero h₂]
  · have husable := hsafe.resolve_left (by simpa [BootInfo.Rejected] using hreject)
    set managed := subtractReserved (insertUsable s.managed.empty info.regions) info.regions
    have hm : managed.Valid :=
      subtractReserved_valid _ (insertUsable_valid _ (valid_of_count_eq_zero rfl) husable)
    set free : Table :=
      ⟨fun i => if i < managed.count then managed.extents i else s.freeExtents.extents i,
        managed.count⟩ with hfree
    have hcopy : ∀ i < free.count, free.extents i = managed.extents i := fun i hi => if_pos hi
    have hpages : free.pages = managed.pages := by
      ext a
      refine and_congr_right fun _ => ?_
      constructor
      · rintro ⟨i, hi, hcov⟩
        exact ⟨i, hi, hcopy i hi ▸ hcov⟩
      · rintro ⟨i, hi, hcov⟩
        exact ⟨i, hi, (hcopy i hi).symm ▸ hcov⟩
    have hf : free.Valid :=
      hm.reindex id (fun k hk => hk) (fun k l h _ => h) hcopy hm.count_le
    exact ⟨hm, hf, by simp, by simpa using hpages,
      (countPages_eq_ncard hm.toSorted hm.toPaged).trans
        (by simpa using congrArg Set.ncard hpages.symm)⟩

variable {r : Run}

/-! ### `allocate_page` -/

theorem Table.Valid.head {t : Table} (h : t.Valid) (hne : t.count ≠ 0) :
    (t.extents 0).begin ∈ t.pages ∧ (t.extents 0).begin ≠ 0 := by
  have h0 : 0 < t.count := by omega
  have hlow := h.le_begin 0 h0
  refine ⟨⟨h.begin_dvd 0 h0, 0, h0, le_rfl, h.proper 0 h0⟩, ?_⟩
  simp only [pageSize] at hlow
  omega

/-- The free table after its first page is taken. -/
theorem allocatePage_free {s : State} (hv : s.freeExtents.Valid) (hne : s.freeExtents.count ≠ 0) :
    (allocatePage s).2.freeExtents.Valid ∧
      (allocatePage s).2.freeExtents.pages =
        s.freeExtents.pages \ {(s.freeExtents.extents 0).begin} := by
  set t := s.freeExtents with ht
  have h0 : 0 < t.count := by omega
  have hb := hv.begin_dvd 0 h0
  have hs := hv.stop_dvd 0 h0
  have hp := hv.proper 0 h0
  have hhigh := hv.stop_le 0 h0
  have hwrap : ((t.extents 0).begin + pageSize) % wordSize = (t.extents 0).begin + pageSize := by
    refine Nat.mod_eq_of_lt ?_
    simp only [pageSize, wordSize] at *
    omega
  simp only [allocatePage, ← ht, if_neg hne, hwrap]
  split_ifs with hlast
  · -- the extent is used up: the others move down
    have hentry : ∀ k < t.count - 1,
        closeGap (t.count - 1) 1 (Function.update t.extents 0
          ⟨(t.extents 0).begin + pageSize, (t.extents 0).stop⟩) k = t.extents (k + 1) := by
      intro k hk
      rw [closeGap_apply _ _ _ _ (by omega), if_pos (by omega), Function.update_of_ne (by omega)]
    refine ⟨hv.reindex (· + 1) (fun k hk => by simp only at hk; omega)
      (fun k l hkl _ => by omega) hentry (by have := hv.count_le; simp only; omega), ?_⟩
    ext a
    simp only [Table.pages, Table.Covers, Set.mem_ofPred_eq, Set.mem_sdiff, Set.mem_singleton_iff]
    constructor
    · rintro ⟨hd, k, hk, hcov⟩
      rw [hentry k hk] at hcov
      refine ⟨⟨hd, k + 1, by omega, hcov⟩, ?_⟩
      have := hv.apart 0 (k + 1) (by omega) (by omega)
      omega
    · rintro ⟨⟨hd, k, hk, h₁, h₂⟩, hne'⟩
      rcases Nat.eq_zero_or_pos k with rfl | hpos
      · simp only [pageSize] at *
        omega
      · refine ⟨hd, k - 1, by omega, ?_⟩
        rw [hentry (k - 1) (by omega), Nat.sub_add_cancel hpos]
        exact ⟨h₁, h₂⟩
  · have hroom : (t.extents 0).begin + pageSize < (t.extents 0).stop := by
      simp only [pageSize] at *
      omega
    refine ⟨hv.update h0 hroom (by simp only; omega) le_rfl
      ((Nat.dvd_add_iff_left dvd_rfl).mp hb) hs, ?_⟩
    ext a
    simp only [Table.pages, Table.Covers, Set.mem_ofPred_eq, Set.mem_sdiff, Set.mem_singleton_iff]
    constructor
    · rintro ⟨hd, k, hk, hcov⟩
      rcases Nat.eq_zero_or_pos k with rfl | hpos
      · simp only [Function.update_self] at hcov
        refine ⟨⟨hd, 0, h0, by omega, hcov.2⟩, ?_⟩
        simp only [pageSize] at hcov
        omega
      · rw [Function.update_of_ne (by omega)] at hcov
        refine ⟨⟨hd, k, hk, hcov⟩, ?_⟩
        have := hv.apart 0 k hpos hk
        omega
    · rintro ⟨⟨hd, k, hk, h₁, h₂⟩, hne'⟩
      rcases Nat.eq_zero_or_pos k with rfl | hpos
      · refine ⟨hd, 0, h0, ?_⟩
        rw [Function.update_self]
        simp only [pageSize] at *
        omega
      · refine ⟨hd, k, hk, ?_⟩
        rw [Function.update_of_ne (by omega)]
        exact ⟨h₁, h₂⟩

theorem Run.Invariant.allocatePage (h : r.Invariant) : (r.step .allocatePage).Invariant := by
  by_cases hne : r.state.freeExtents.count = 0
  · simpa [Run.step, Memory.allocatePage, hne] using h
  · obtain ⟨hmem, hpage⟩ := h.free_valid.head hne
    obtain ⟨hvalid, hpages⟩ := allocatePage_free h.free_valid hne
    have hout : (r.state.freeExtents.extents 0).begin ∈
        r.state.managed.pages \ (r.outstanding : Set ℕ) := h.pages_eq ▸ hmem
    have hfst : (Memory.allocatePage r.state).1 = (r.state.freeExtents.extents 0).begin := by
      simp [Memory.allocatePage, hne]
    have hmanaged : (Memory.allocatePage r.state).2.managed = r.state.managed := by
      simp [Memory.allocatePage, hne]
    have havail : (Memory.allocatePage r.state).2.available =
        (r.state.available + (wordSize - 1)) % wordSize := by
      simp [Memory.allocatePage, hne]
    have hfin := h.free_valid.toPaged.pages_finite
    refine ⟨?_, hvalid, ?_, ?_, ?_⟩
    · simpa only [Run.step, hmanaged] using h.managed_valid
    · simp only [Run.step, hfst, if_neg hpage, hmanaged, Finset.coe_insert]
      exact Set.insert_subset hout.1 h.outstanding_subset
    · simp only [Run.step, hpages, hfst, if_neg hpage, hmanaged, Finset.coe_insert, h.pages_eq]
      ext a
      simp only [Set.mem_sdiff, Set.mem_singleton_iff, Set.mem_insert_iff, not_or]
      exact ⟨fun ⟨⟨h₁, h₂⟩, h₃⟩ => ⟨h₁, h₃, h₂⟩, fun ⟨h₁, h₃, h₂⟩ => ⟨⟨h₁, h₂⟩, h₃⟩⟩
    · have hlt := h.free_valid.toPaged.ncard_pages_lt
      have hpos : 0 < r.state.freeExtents.pages.ncard :=
        (Set.ncard_pos hfin).mpr ⟨_, hmem⟩
      simp only [Run.step, havail, hpages, Set.ncard_sdiff_singleton_of_mem hmem, h.available_eq]
      rw [show r.state.freeExtents.pages.ncard + (wordSize - 1) =
        r.state.freeExtents.pages.ncard - 1 + wordSize by omega, Nat.add_mod_right,
        Nat.mod_eq_of_lt (by omega)]

/-! ### `free_page` -/

theorem not_refused_iff (h : r.Invariant) (address : UInt64) :
    ¬ Refused address r.state ↔ address.toNat ∈ r.outstanding := by
  have hdvd : address.toNat % pageSize = 0 ↔ pageSize ∣ address.toNat :=
    (Nat.dvd_iff_mod_eq_zero).symm
  have hm := contains_eq_true_iff h.managed_valid.toSorted address.toNat
  have hf := contains_eq_true_iff h.free_valid.toSorted address.toNat
  have hpages : address.toNat ∈ r.state.freeExtents.pages ↔
      address.toNat ∈ r.state.managed.pages \ (r.outstanding : Set ℕ) := by rw [h.pages_eq]
  simp only [Table.pages, Set.mem_ofPred_eq, Set.mem_sdiff, Finset.mem_coe] at hpages
  simp only [Refused, not_or, not_not, Bool.not_eq_false, hdvd, hm, hf]
  constructor
  · rintro ⟨h₁, h₂, h₃⟩
    by_contra hout
    exact h₃ (hpages.mpr ⟨⟨h₁, h₂⟩, hout⟩).2
  · intro hout
    obtain ⟨h₁, h₂⟩ := h.outstanding_subset (Finset.mem_coe.mpr hout)
    exact ⟨h₁, h₂, fun h₃ => (hpages.mp ⟨h₁, h₃⟩).2 hout⟩

/-- The page at `a` as an extent, with the table it is returned to. -/
structure Returns (t : Table) (a : ℕ) : Prop where
  dvd : pageSize ∣ a
  low : pageSize ≤ a
  high : a + pageSize ≤ wordSize - pageSize

theorem Table.Valid.returns {managed : Table} (h : managed.Valid) (t : Table) {a : ℕ}
    (ha : a ∈ managed.pages) : Returns t a := by
  obtain ⟨hd, i, hi, h₁, h₂⟩ := ha
  have hlow := h.le_begin i hi
  have hhigh := h.stop_le i hi
  have hs := h.stop_dvd i hi
  refine ⟨hd, by omega, ?_⟩
  simp only [pageSize, wordSize] at *
  omega

theorem pages_mergeInto {t : Table} {a : ℕ} (ht : t.Valid) (ha : Returns t a)
    (hsafe : MergeSafe t ⟨a, a + pageSize⟩) :
    (mergeInto t ⟨a, a + pageSize⟩).pages = insert a t.pages := by
  ext b
  have hd := ha.dvd
  simp only [Table.pages, Set.mem_ofPred_eq, Set.mem_insert_iff,
    covers_mergeInto ht.toSorted (show a < a + pageSize by simp [pageSize]) hsafe]
  constructor
  · rintro ⟨hb, hcov | hnew⟩
    · exact Or.inr ⟨hb, hcov⟩
    · left
      simp only [pageSize] at *
      omega
  · rintro (rfl | ⟨hb, hcov⟩)
    · exact ⟨hd, Or.inr ⟨le_rfl, by simp [pageSize]⟩⟩
    · exact ⟨hb, Or.inl hcov⟩

theorem Run.Invariant.freePage (h : r.Invariant) {address : UInt64}
    (hsafe : CallSafe r.state (.freePage address))
    (hfits : (runStarts (r.state.managed.pages \ (r.outstanding.erase address.toNat))).ncard ≤
      maxExtents) : (r.step (.freePage address)).Invariant := by
  by_cases href : Refused address r.state
  · have hout : address.toNat ∉ r.outstanding := fun hmem =>
      (not_refused_iff h address).mpr hmem href
    have hstate : Memory.freePage address r.state = r.state := by
      rw [Memory.freePage]
      exact if_pos href
    simpa only [Run.step, hstate, Finset.erase_eq_of_notMem hout] using h
  · have hmem := (not_refused_iff h address).mp href
    have ha := h.managed_valid.returns r.state.freeExtents
      (h.outstanding_subset (Finset.mem_coe.mpr hmem))
    have hwrap : (address.toNat + pageSize) % wordSize = address.toNat + pageSize := by
      refine Nat.mod_eq_of_lt ?_
      have := ha.high
      simp only [pageSize, wordSize] at *
      omega
    have hsafe' : MergeSafe r.state.freeExtents ⟨address.toNat, address.toNat + pageSize⟩ := by
      have hm := hsafe.resolve_left href
      rwa [hwrap] at hm
    have hadd : address.toNat < address.toNat + pageSize := by simp [pageSize]
    have hpages := pages_mergeInto h.free_valid ha hsafe'
    set t := mergeInto r.state.freeExtents ⟨address.toNat, address.toNat + pageSize⟩ with htdef
    have hsorted : t.Sorted := mergeInto_sorted h.free_valid.toSorted hadd hsafe'
    have hpaged : t.Paged := mergeInto_paged h.free_valid.toSorted hadd hsafe' h.free_valid.toPaged
      ha.dvd ((Nat.dvd_add_iff_left dvd_rfl).mp ha.dvd) ha.low ha.high
    have hnew : address.toNat ∉ r.state.freeExtents.pages := by
      rw [h.pages_eq]
      exact fun hc => hc.2 (Finset.mem_coe.mpr hmem)
    have hset : t.pages =
        r.state.managed.pages \ (r.outstanding.erase address.toNat : Finset ℕ) := by
      rw [hpages, h.pages_eq]
      ext b
      simp only [Set.mem_insert_iff, Set.mem_sdiff, Finset.coe_erase, Set.mem_singleton_iff,
        Finset.mem_coe, not_and, not_not]
      constructor
      · rintro (rfl | ⟨h₁, h₂⟩)
        · exact ⟨h.outstanding_subset (Finset.mem_coe.mpr hmem), fun _ => rfl⟩
        · exact ⟨h₁, fun hc => absurd hc h₂⟩
      · rintro ⟨h₁, h₂⟩
        by_cases hb : b ∈ r.outstanding
        · exact Or.inl (h₂ hb)
        · exact Or.inr ⟨h₁, hb⟩
    -- the table has one extent for each run of free pages, so the pages that fit make room
    have hcount : t.count ≤ maxExtents := by
      rw [← ncard_runStarts hsorted hpaged, hset]
      exact hfits
    have hins : insertExtent r.state.freeExtents ⟨address.toNat, address.toNat + pageSize⟩ =
        (true, t) := by
      rw [insertExtent, if_neg]
      rintro ⟨hzero, hfull⟩
      have : t.count = maxExtents + 1 := by simp [htdef, mergeInto, hzero, hfull]
      omega
    have hstate : Memory.freePage address r.state =
        { r.state with freeExtents := t, available := (r.state.available + 1) % wordSize } := by
      rw [Memory.freePage]
      simp only [hwrap, hins]
      exact if_neg href
    have hfin := h.free_valid.toPaged.pages_finite
    refine ⟨?_, ?_, ?_, ?_, ?_⟩
    · simpa only [Run.step, hstate] using h.managed_valid
    · simp only [Run.step, hstate]
      exact ⟨hsorted, hpaged, hcount⟩
    · simp only [Run.step, hstate]
      exact (Finset.coe_subset.mpr (Finset.erase_subset _ _)).trans h.outstanding_subset
    · simpa only [Run.step, hstate] using hset
    · have hlt := hpaged.ncard_pages_lt
      simp only [Run.step, hstate]
      rw [hpages, Set.ncard_insert_of_notMem hnew hfin] at hlt ⊢
      rw [h.available_eq, Nat.mod_eq_of_lt hlt]

/-! ## Runs -/

theorem Run.Invariant.correct (h : r.Invariant) : r.Correct := by
  refine ⟨h.pages_eq, h.available_eq, fun hpage => ?_, fun hzero => ?_⟩
  · have hne : r.state.freeExtents.count ≠ 0 := fun hc => hpage (by simp [Memory.allocatePage, hc])
    have hmem := (h.free_valid.head hne).1
    rw [h.pages_eq] at hmem
    simpa [Memory.allocatePage, hne] using hmem
  · refine pages_of_count_eq_zero (by_contra fun hne => (h.free_valid.head hne).2 ?_)
    simpa [Memory.allocatePage, hne] using hzero

theorem step_managed (r : Run) (call : Call) : (r.step call).state.managed = r.state.managed := by
  cases call with
  | allocatePage =>
    simp only [Run.step, Memory.allocatePage]
    split_ifs <;> rfl
  | freePage address =>
    simp only [Run.step, Memory.freePage]
    split_ifs
    · rfl
    · split <;> rfl

theorem run_concat (info : BootInfo) (s : State) (calls : List Call) (call : Call) :
    run info s (calls ++ [call]) = (run info s calls).step call := by
  simp [run]

/-- The managed extents never change after `initialize`. -/
theorem run_managed (info : BootInfo) (s : State) (calls : List Call) :
    (run info s calls).state.managed = (initializeFrom info s).managed := by
  induction calls using List.reverseRecOn with
  | nil => rfl
  | append_singleton calls call ih => rw [run_concat, step_managed, ih]

theorem run_invariant {info : BootInfo} {s : State} {calls : List Call}
    (hfits : Fits info s calls) (hsafe : RunSafe info s calls) :
    ∀ before, before <+: calls → (run info s before).Invariant := by
  intro before
  induction before using List.reverseRecOn with
  | nil => exact fun _ => initializeFrom_invariant hsafe.1
  | append_singleton before call ih =>
    intro hpre
    have h := ih ((List.prefix_append before [call]).trans hpre)
    rw [run_concat]
    cases call with
    | allocatePage => exact h.allocatePage
    | freePage address =>
      have hf := hfits _ hpre
      rw [run_concat, step_managed] at hf
      exact h.freePage (hsafe.2.initial hpre) hf

/-- **No double allocation.** In a run whose free pages fit the table and whose insertions are
safe, the allocator is correct after every call. -/
theorem run_correct (info : BootInfo) (s : State) (calls : List Call)
    (hfits : Fits info s calls) (hsafe : RunSafe info s calls) (before : List Call)
    (hpre : before <+: calls) : (run info s before).Correct :=
  (run_invariant hfits hsafe before hpre).correct

/-- Eight pages of memory, from the second page on. -/
def eightPages : BootInfo := ⟨currentVersion, some [⟨0x1000, 0x8000, .usable⟩], 1⟩

def blankState : State := ⟨⟨fun _ => ⟨0, 0⟩, 0⟩, ⟨fun _ => ⟨0, 0⟩, 0⟩, 0, 0⟩

theorem fits_eightPages (calls : List Call) : Fits eightPages blankState calls := by
  intro before _
  have hcount : (initializeFrom eightPages blankState).managed.count = 1 := by decide
  have hentry : (initializeFrom eightPages blankState).managed.extents 0 = ⟨0x1000, 0x9000⟩ := by
    decide +kernel
  have hsub : runStarts ((run eightPages blankState before).state.managed.pages \
      (run eightPages blankState before).outstanding) ⊆
        ((Finset.Icc 1 8).image (pageSize * ·) : Finset ℕ) := by
    rintro a ⟨⟨⟨⟨k, rfl⟩, i, hi, h₁, h₂⟩, -⟩, -⟩
    rw [run_managed, hcount] at hi
    obtain rfl : i = 0 := by omega
    rw [run_managed, hentry] at h₁ h₂
    simp only [pageSize] at h₁ h₂
    simp only [Finset.coe_image, Finset.coe_Icc, Set.mem_image, Set.mem_Icc]
    exact ⟨k, by omega, rfl⟩
  refine (Set.ncard_le_ncard hsub (Finset.finite_toSet _)).trans ?_
  rw [Set.ncard_coe_finset]
  exact Finset.card_image_le.trans (by simp [maxExtents])

/-- A run that gives a page back next to a free extent. -/
theorem run_correct_eightPages :
    (run eightPages blankState [.allocatePage, .allocatePage, .freePage 0x2000]).Correct :=
  run_correct eightPages blankState [.allocatePage, .allocatePage, .freePage 0x2000]
    (fits_eightPages _) ⟨Or.inr (by decide +kernel), by decide +kernel⟩
    _ (List.prefix_refl _)

/-! ### A run that allocates a page twice -/

/-- Take all eight pages, give back every second one, and then the page between the first two
of those: it joins two free extents with two more behind them. Then allocate four pages. -/
def joiningCalls : List Call :=
  List.replicate 8 .allocatePage ++
    [.freePage 0x1000, .freePage 0x3000, .freePage 0x5000, .freePage 0x7000, .freePage 0x2000] ++
    List.replicate 4 .allocatePage

/-- **A page is allocated twice**: the fifth page after `joiningCalls` is the one at `0x7000`,
which is outstanding. -/
theorem double_allocation : Fits eightPages blankState joiningCalls ∧
    ¬ (run eightPages blankState joiningCalls).Correct := by
  refine ⟨fits_eightPages _, fun h => ?_⟩
  exact (h.page_new (by decide +kernel)).2 (by decide +kernel)

end ShirleysOS.Memory
