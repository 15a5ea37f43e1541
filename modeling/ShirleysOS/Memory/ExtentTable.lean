import Mathlib.Algebra.BigOperators.Group.Finset.Basic
import Mathlib.Data.Set.Card
import Mathlib.Order.Interval.Finset.Nat
import ShirleysOS.Memory.PageAllocator

/-!
# The table invariant of the page allocator

Both tables are meant to be sorted, with gaps between their extents, and to begin and end on
page boundaries. This file proves what the edits of a table do to the addresses it covers and
that they keep it sorted. `insert_extent` does so only when its shift does not read an entry
it has already overwritten, which is the condition `MergeSafe`.
-/

namespace ShirleysOS.Memory

open Lib

namespace Table

/-- The address `a` lies in one of the table's extents. -/
def Covers (t : Table) (a : ℕ) : Prop :=
  ∃ i < t.count, (t.extents i).begin ≤ a ∧ a < (t.extents i).stop

/-- The page addresses a table covers. -/
def pages (t : Table) : Set ℕ := {a | pageSize ∣ a ∧ t.Covers a}

/-- The extents are non-empty and increasing, and no two of them touch. -/
structure Sorted (t : Table) : Prop where
  proper : ∀ i < t.count, (t.extents i).begin < (t.extents i).stop
  apart : ∀ i j, i < j → j < t.count → (t.extents i).stop < (t.extents j).begin

/-- The extents consist of whole pages, without the first and the last page of the address
space. -/
structure Paged (t : Table) : Prop where
  begin_dvd : ∀ i < t.count, pageSize ∣ (t.extents i).begin
  stop_dvd : ∀ i < t.count, pageSize ∣ (t.extents i).stop
  le_begin : ∀ i < t.count, pageSize ≤ (t.extents i).begin
  stop_le : ∀ i < t.count, (t.extents i).stop ≤ wordSize - pageSize

/-- **The table invariant.** -/
structure Valid (t : Table) : Prop extends Sorted t, Paged t where
  count_le : t.count ≤ maxExtents

end Table

/-- The shift of inserting `added` overwrites no entry before reading it: at most one extent
is merged, or fewer extents stand behind the merged ones than are merged. -/
def MergeSafe (t : Table) (added : Extent) : Prop :=
  mergeCount t added ≤ 1 ∨ t.count - (mergeLast t added).1 < mergeCount t added

instance (t : Table) (added : Extent) : Decidable (MergeSafe t added) :=
  inferInstanceAs (Decidable (_ ∨ _))

variable {t : Table} {added : Extent}

/-! ## The two loops of `insert_extent` -/

theorem skipBelow_spec (t : Table) (bound : ℕ) :
    ∀ fuel first, first ≤ t.count → t.count ≤ first + fuel →
      first ≤ skipBelow t bound fuel first ∧ skipBelow t bound fuel first ≤ t.count ∧
        (∀ i, first ≤ i → i < skipBelow t bound fuel first → (t.extents i).stop < bound) ∧
        (skipBelow t bound fuel first < t.count →
          bound ≤ (t.extents (skipBelow t bound fuel first)).stop) := by
  intro fuel
  induction fuel with
  | zero =>
    intro first hfirst hfuel
    simp only [skipBelow]
    exact ⟨le_rfl, hfirst, fun i h₁ h₂ => by omega, fun h => by omega⟩
  | succ fuel ih =>
    intro first hfirst hfuel
    rw [skipBelow]
    by_cases hc : first < t.count ∧ (t.extents first).stop < bound
    · rw [if_pos hc]
      obtain ⟨h₁, h₂, h₃, h₄⟩ := ih (first + 1) hc.1 (by omega)
      refine ⟨by omega, h₂, fun i hi hlt => ?_, h₄⟩
      rcases Nat.eq_or_lt_of_le hi with rfl | hlt'
      · exact hc.2
      · exact h₃ i hlt' hlt
    · rw [if_neg hc]
      exact ⟨le_rfl, hfirst, fun i h₁ h₂ => by omega, fun h => by
        by_contra hb
        exact hc ⟨h, by omega⟩⟩

/-- What the second loop returns from `last` and `added`: the extents it passed are merged into
the result, and the ones from `r.1` on do not meet it. -/
structure Absorbs (t : Table) (last : ℕ) (added : Extent) (r : ℕ × Extent) : Prop where
  le : last ≤ r.1
  le_count : r.1 ≤ t.count
  behind : ∀ i, r.1 ≤ i → i < t.count → r.2.stop < (t.extents i).begin
  mem_iff : ∀ a, (r.2.begin ≤ a ∧ a < r.2.stop) ↔
    ((added.begin ≤ a ∧ a < added.stop) ∨
      ∃ i, last ≤ i ∧ i < r.1 ∧ (t.extents i).begin ≤ a ∧ a < (t.extents i).stop)
  begin_eq : r.2.begin = added.begin ∨
    ∃ i, last ≤ i ∧ i < r.1 ∧ r.2.begin = (t.extents i).begin
  stop_eq : r.2.stop = added.stop ∨ ∃ i, last ≤ i ∧ i < r.1 ∧ r.2.stop = (t.extents i).stop

theorem absorb_spec (ht : t.Sorted) :
    ∀ fuel last added, last ≤ t.count → t.count ≤ last + fuel → added.begin < added.stop →
      (∀ i, last ≤ i → i < t.count → added.begin ≤ (t.extents i).stop) →
      Absorbs t last added (absorb t fuel last added) := by
  intro fuel
  induction fuel with
  | zero =>
    intro last added hlast hfuel _ _
    rw [absorb]
    exact ⟨le_rfl, hlast, fun i h₁ h₂ => by simp only at h₁; omega,
      fun a => ⟨Or.inl, fun h => h.resolve_right fun ⟨i, h₁, h₂, _⟩ => by simp only at h₂; omega⟩,
      Or.inl rfl, Or.inl rfl⟩
  | succ fuel ih =>
    intro last added hlast hfuel hadd hmeet
    rw [absorb]
    by_cases hc : last < t.count ∧ (t.extents last).begin ≤ added.stop
    · rw [if_pos hc]
      obtain ⟨hlt, hle⟩ := hc
      have hmeet' := hmeet last le_rfl hlt
      have hp := ht.proper last hlt
      set grown : Extent :=
        ⟨if (t.extents last).begin < added.begin then (t.extents last).begin else added.begin,
          if (t.extents last).stop > added.stop then (t.extents last).stop else added.stop⟩
        with hgrown
      change Absorbs t last added (absorb t fuel (last + 1) grown)
      have hb : grown.begin = min (t.extents last).begin added.begin := by
        simp only [hgrown]; split_ifs <;> omega
      have hs : grown.stop = max (t.extents last).stop added.stop := by
        simp only [hgrown]; split_ifs <;> omega
      have r := ih (last + 1) grown hlt (by omega) (by omega) (fun i hi hi' => by
        have := hmeet i (by omega) hi'
        omega)
      refine ⟨by have := r.le; omega, r.le_count, r.behind, fun a => ?_, ?_, ?_⟩
      · rw [r.mem_iff]
        constructor
        · rintro (⟨h₁, h₂⟩ | ⟨i, h₁, h₂, h₃⟩)
          · -- the two extents meet, so their hull has no address outside both
            by_cases ha : added.begin ≤ a ∧ a < added.stop
            · exact Or.inl ha
            · exact Or.inr ⟨last, le_rfl, by have := r.le; omega, by omega, by omega⟩
          · exact Or.inr ⟨i, by omega, h₂, h₃⟩
        · rintro (⟨h₁, h₂⟩ | ⟨i, h₁, h₂, h₃, h₄⟩)
          · exact Or.inl ⟨by omega, by omega⟩
          · rcases Nat.eq_or_lt_of_le h₁ with rfl | hi
            · exact Or.inl ⟨by omega, by omega⟩
            · exact Or.inr ⟨i, hi, h₂, h₃, h₄⟩
      · rcases r.begin_eq with h | ⟨i, h₁, h₂, h₃⟩
        · rw [h, hb]
          rcases le_total (t.extents last).begin added.begin with h' | h'
          · exact Or.inr ⟨last, le_rfl, by have := r.le; omega, min_eq_left h'⟩
          · exact Or.inl (min_eq_right h')
        · exact Or.inr ⟨i, by omega, h₂, h₃⟩
      · rcases r.stop_eq with h | ⟨i, h₁, h₂, h₃⟩
        · rw [h, hs]
          rcases le_total (t.extents last).stop added.stop with h' | h'
          · exact Or.inl (max_eq_right h')
          · exact Or.inr ⟨last, le_rfl, by have := r.le; omega, max_eq_left h'⟩
        · exact Or.inr ⟨i, by omega, h₂, h₃⟩
    · rw [if_neg hc]
      refine ⟨le_rfl, hlast, fun i h₁ h₂ => ?_, fun a => ⟨Or.inl, fun h => h.resolve_right ?_⟩,
        Or.inl rfl, Or.inl rfl⟩
      · simp only at h₁ ⊢
        rcases Nat.eq_or_lt_of_le h₁ with rfl | hi
        · omega
        · have := ht.apart last i hi h₂
          have := ht.proper last (by omega)
          omega
      · rintro ⟨i, h₁, h₂, -⟩
        simp only at h₂
        omega

theorem mergeFirst_le (t : Table) (added : Extent) : mergeFirst t added ≤ t.count :=
  (skipBelow_spec t added.begin t.count 0 (by omega) (by omega)).2.1

theorem stop_lt_of_lt_mergeFirst {i : ℕ} (hi : i < mergeFirst t added) :
    (t.extents i).stop < added.begin :=
  (skipBelow_spec t added.begin t.count 0 (by omega) (by omega)).2.2.1 i (by omega) hi

theorem Table.Sorted.le_stop_of_mergeFirst_le (ht : t.Sorted) {i : ℕ}
    (hi : mergeFirst t added ≤ i) (hc : i < t.count) : added.begin ≤ (t.extents i).stop := by
  have h := (skipBelow_spec t added.begin t.count 0 (by omega) (by omega)).2.2.2
    (show mergeFirst t added < t.count by omega)
  rcases Nat.eq_or_lt_of_le hi with rfl | hlt
  · exact h
  · have h₁ := ht.apart _ _ hlt hc
    have h₂ := ht.proper i hc
    rw [← mergeFirst] at h
    omega

theorem mergeLast_spec (ht : t.Sorted) (hadd : added.begin < added.stop) :
    Absorbs t (mergeFirst t added) added (mergeLast t added) :=
  absorb_spec ht t.count (mergeFirst t added) added (mergeFirst_le t added) (by omega) hadd
    fun _ => ht.le_stop_of_mergeFirst_le

/-! ## The table after an insertion -/

section MergeInto

variable (ht : t.Sorted) (hadd : added.begin < added.stop)
include ht hadd

theorem mergeInto_count : (mergeInto t added).count =
    mergeFirst t added + 1 + (t.count - (mergeLast t added).1) := by
  have h := mergeLast_spec ht hadd
  have h₁ := h.le
  have h₂ := h.le_count
  simp only [mergeInto, mergeCount]
  omega

/-- An entry of the new table in front of the merge, the merge, or one behind it. -/
theorem mergeInto_extents (hsafe : MergeSafe t added) (k : ℕ)
    (hk : k < (mergeInto t added).count) :
    (mergeInto t added).extents k =
      if k < mergeFirst t added then t.extents k
      else if k = mergeFirst t added then (mergeLast t added).2
      else t.extents (k - mergeFirst t added - 1 + (mergeLast t added).1) := by
  have h := mergeLast_spec ht hadd
  have h₁ := h.le
  have h₂ := h.le_count
  rw [mergeInto_count ht hadd] at hk
  simp only [mergeInto]
  by_cases hf : k = mergeFirst t added
  · rw [hf, Function.update_self, if_neg (lt_irrefl _), if_pos rfl]
  · have hm : mergeCount t added = (mergeLast t added).1 - mergeFirst t added := rfl
    rw [Function.update_of_ne hf, shiftEntries_apply (by omega) _ _ _ hsafe]
    by_cases hlt : k < mergeFirst t added
    · rw [if_pos hlt, if_neg (by omega)]
    · rw [if_neg hlt, if_neg hf, if_pos (by omega)]
      congr 1
      omega

theorem covers_mergeInto (hsafe : MergeSafe t added) (a : ℕ) :
    (mergeInto t added).Covers a ↔ t.Covers a ∨ (added.begin ≤ a ∧ a < added.stop) := by
  have h := mergeLast_spec ht hadd
  have h₁ := h.le
  have h₂ := h.le_count
  have hcount := mergeInto_count ht hadd
  constructor
  · rintro ⟨k, hk, hcov⟩
    rw [mergeInto_extents ht hadd hsafe k hk] at hcov
    split_ifs at hcov with hlt heq
    · exact Or.inl ⟨k, by have := mergeFirst_le t added; omega, hcov⟩
    · rcases (h.mem_iff a).mp hcov with hnew | ⟨i, -, hi, hold⟩
      · exact Or.inr hnew
      · exact Or.inl ⟨i, by omega, hold⟩
    · exact Or.inl ⟨_, by omega, hcov⟩
  · have merge : ((mergeLast t added).2.begin ≤ a ∧ a < (mergeLast t added).2.stop) →
        (mergeInto t added).Covers a := by
      intro hm
      refine ⟨mergeFirst t added, by omega, ?_⟩
      rw [mergeInto_extents ht hadd hsafe _ (by omega), if_neg (lt_irrefl _), if_pos rfl]
      exact hm
    -- an old entry is before the merged one, part of it, or behind it
    rintro (⟨i, hi, hcov⟩ | hnew)
    · rcases lt_or_ge i (mergeFirst t added) with hlt | hge
      · refine ⟨i, by omega, ?_⟩
        rw [mergeInto_extents ht hadd hsafe _ (by omega), if_pos hlt]
        exact hcov
      · rcases lt_or_ge i (mergeLast t added).1 with hlt' | hge'
        · exact merge ((h.mem_iff a).mpr (Or.inr ⟨i, hge, hlt', hcov⟩))
        · refine ⟨i - (mergeLast t added).1 + mergeFirst t added + 1, by omega, ?_⟩
          rw [mergeInto_extents ht hadd hsafe _ (by omega), if_neg (by omega), if_neg (by omega)]
          rwa [show i - (mergeLast t added).1 + mergeFirst t added + 1 - mergeFirst t added - 1 +
            (mergeLast t added).1 = i by omega]
    · exact merge ((h.mem_iff a).mpr (Or.inl hnew))

/-- **An insertion keeps the table sorted** when its shift is safe. -/
theorem mergeInto_sorted (hsafe : MergeSafe t added) : (mergeInto t added).Sorted := by
  have h := mergeLast_spec ht hadd
  have h₁ := h.le
  have h₂ := h.le_count
  have hcount := mergeInto_count ht hadd
  have hmerge : (mergeLast t added).2.begin < (mergeLast t added).2.stop := by
    have := (h.mem_iff added.begin).mpr (Or.inl ⟨le_rfl, hadd⟩)
    omega
  have hfront : ∀ i < mergeFirst t added, (t.extents i).stop < (mergeLast t added).2.begin := by
    intro i hi
    rcases h.begin_eq with he | ⟨j, hj, hj', he⟩
    · rw [he]
      exact stop_lt_of_lt_mergeFirst hi
    · rw [he]
      exact ht.apart i j (by omega) (by omega)
  refine ⟨fun k hk => ?_, fun i j hij hj => ?_⟩
  · rw [mergeInto_extents ht hadd hsafe k hk]
    split_ifs with hlt heq
    · exact ht.proper k (by have := mergeFirst_le t added; omega)
    · exact hmerge
    · exact ht.proper _ (by omega)
  · rw [mergeInto_extents ht hadd hsafe i (by omega), mergeInto_extents ht hadd hsafe j hj]
    split_ifs with hi hj' hje hie hj'' hje' <;> try omega
    · exact ht.apart i j hij (by omega)
    · exact hfront i hi
    · exact ht.apart i _ (by omega) (by omega)
    · exact h.behind _ (by omega) (by omega)
    · exact ht.apart _ _ (by omega) (by omega)

theorem mergeInto_paged (hsafe : MergeSafe t added) (hp : t.Paged)
    (hb : pageSize ∣ added.begin) (hs : pageSize ∣ added.stop) (hlow : pageSize ≤ added.begin)
    (hhigh : added.stop ≤ wordSize - pageSize) : (mergeInto t added).Paged := by
  have h := mergeLast_spec ht hadd
  have h₂ := h.le_count
  have hcount := mergeInto_count ht hadd
  -- both ends of the merge are ends of `added` or of an extent of `t`
  have hbegin : ∀ P : ℕ → Prop, P added.begin → (∀ i < t.count, P (t.extents i).begin) →
      ∀ k < (mergeInto t added).count, P ((mergeInto t added).extents k).begin := by
    intro P hnew hold k hk
    rw [mergeInto_extents ht hadd hsafe k hk]
    split_ifs with hlt heq
    · exact hold k (by have := mergeFirst_le t added; omega)
    · rcases h.begin_eq with he | ⟨i, -, hi, he⟩
      · exact he ▸ hnew
      · exact he ▸ hold i (by omega)
    · exact hold _ (by omega)
  have hstop : ∀ P : ℕ → Prop, P added.stop → (∀ i < t.count, P (t.extents i).stop) →
      ∀ k < (mergeInto t added).count, P ((mergeInto t added).extents k).stop := by
    intro P hnew hold k hk
    rw [mergeInto_extents ht hadd hsafe k hk]
    split_ifs with hlt heq
    · exact hold k (by have := mergeFirst_le t added; omega)
    · rcases h.stop_eq with he | ⟨i, -, hi, he⟩
      · exact he ▸ hnew
      · exact he ▸ hold i (by omega)
    · exact hold _ (by omega)
  exact ⟨hbegin _ hb hp.begin_dvd, hstop _ hs hp.stop_dvd, hbegin _ hlow hp.le_begin,
    hstop (· ≤ wordSize - pageSize) hhigh hp.stop_le⟩

end MergeInto

/-! ## Subtraction -/

section Subtract

variable {removed : Extent} {i : ℕ}

/-- What `align_reserved` guarantees of its extent. Only in the last page may its end be off a
page boundary. -/
structure Reserved (removed : Extent) : Prop where
  proper : removed.begin < removed.stop
  begin_dvd : pageSize ∣ removed.begin
  stop_dvd : pageSize ∣ removed.stop ∨ wordSize - pageSize ≤ removed.stop

theorem alignReserved_reserved {region : BootMemoryRegion} {extent : Extent}
    (h : alignReserved region = some extent) : Reserved extent := by
  simp only [alignReserved, alignDown] at h
  split_ifs at h with h₁ h₂ h₃ h₄ h₅ <;> cases h <;>
    refine ⟨?_, ?_, ?_⟩ <;> simp only [pageSize, wordSize] at * <;> omega

theorem Table.Valid.update (ht : t.Valid) (hi : i < t.count) {e : Extent}
    (hproper : e.begin < e.stop) (hlow : (t.extents i).begin ≤ e.begin)
    (hhigh : e.stop ≤ (t.extents i).stop) (hb : pageSize ∣ e.begin) (hs : pageSize ∣ e.stop) :
    Table.Valid { t with extents := Function.update t.extents i e } := by
  have hle := ht.le_begin i hi
  have hge := ht.stop_le i hi
  refine ⟨⟨fun k hk => ?_, fun k l hkl hl => ?_⟩, ⟨fun k hk => ?_, fun k hk => ?_, fun k hk => ?_,
    fun k hk => ?_⟩, ht.count_le⟩
  · rcases eq_or_ne k i with rfl | hne
    · simpa using hproper
    · simpa [Function.update_of_ne hne] using ht.proper k hk
  · have h := ht.apart k l hkl hl
    rcases eq_or_ne k i with rfl | hk
    · simpa [Function.update_of_ne hkl.ne'] using lt_of_le_of_lt hhigh h
    · rcases eq_or_ne l i with rfl | hl'
      · simpa [Function.update_of_ne hk] using lt_of_lt_of_le h hlow
      · simpa [Function.update_of_ne hk, Function.update_of_ne hl'] using h
  · rcases eq_or_ne k i with rfl | hne
    · simpa using hb
    · simpa [Function.update_of_ne hne] using ht.begin_dvd k hk
  · rcases eq_or_ne k i with rfl | hne
    · simpa using hs
    · simpa [Function.update_of_ne hne] using ht.stop_dvd k hk
  · rcases eq_or_ne k i with rfl | hne
    · simpa using hle.trans hlow
    · simpa [Function.update_of_ne hne] using ht.le_begin k hk
  · rcases eq_or_ne k i with rfl | hne
    · simpa using hhigh.trans hge
    · simpa [Function.update_of_ne hne] using ht.stop_le k hk

/-- Entries read in increasing order from a valid table form one. -/
theorem Table.Valid.reindex (ht : t.Valid) {s : Table} (σ : ℕ → ℕ)
    (hσ : ∀ k < s.count, σ k < t.count) (hmono : ∀ k l, k < l → l < s.count → σ k < σ l)
    (he : ∀ k < s.count, s.extents k = t.extents (σ k)) (hcount : s.count ≤ maxExtents) :
    s.Valid := by
  refine ⟨⟨fun k hk => ?_, fun k l hkl hl => ?_⟩, ⟨fun k hk => ?_, fun k hk => ?_, fun k hk => ?_,
    fun k hk => ?_⟩, hcount⟩
  · rw [he k hk]
    exact ht.proper _ (hσ k hk)
  · rw [he k (hkl.trans hl), he l hl]
    exact ht.apart _ _ (hmono k l hkl hl) (hσ l hl)
  · rw [he k hk]
    exact ht.begin_dvd _ (hσ k hk)
  · rw [he k hk]
    exact ht.stop_dvd _ (hσ k hk)
  · rw [he k hk]
    exact ht.le_begin _ (hσ k hk)
  · rw [he k hk]
    exact ht.stop_le _ (hσ k hk)

theorem Table.Valid.remove (ht : t.Valid) (hi : i < t.count) :
    Table.Valid
      { extents := closeGap (t.count - (i + 1)) (i + 1) t.extents, count := t.count - 1 } := by
  refine ht.reindex (fun k => if k < i then k else k + 1) (fun k hk => ?_) (fun k l hkl _ => ?_)
    (fun k hk => ?_) (by have := ht.count_le; simp only; omega)
  · simp only at hk ⊢
    split_ifs <;> omega
  · split_ifs <;> omega
  · simp only at hk ⊢
    rw [closeGap_apply _ _ _ _ (by omega)]
    by_cases hki : k < i
    · rw [if_neg (by omega), if_pos hki]
    · rw [if_pos (by omega), if_neg hki]

/-- A new entry between entry `i` and the ones behind it keeps the invariant. -/
theorem Table.Valid.insertAfter (ht : t.Valid) (hi : i < t.count) (hroom : t.count < maxExtents)
    {e : Extent} (hproper : e.begin < e.stop) (hfront : (t.extents i).stop < e.begin)
    (hback : ∀ k, i < k → k < t.count → e.stop < (t.extents k).begin)
    (hb : pageSize ∣ e.begin) (hs : pageSize ∣ e.stop) (hhigh : e.stop ≤ wordSize - pageSize) :
    Table.Valid
      { extents := Function.update (openGap (i + 1) t.count t.extents) (i + 1) e
        count := t.count + 1 } := by
  have hlow : pageSize ≤ e.begin := by
    have h₁ := ht.le_begin i hi
    have h₂ := ht.proper i hi
    omega
  -- the entries in terms of the old ones, with the new one at `i + 1`
  have key : ∀ k, Function.update (openGap (i + 1) t.count t.extents) (i + 1) e k =
      if k ≤ i then t.extents k else if k = i + 1 then e else
        if k ≤ t.count then t.extents (k - 1) else t.extents k := by
    intro k
    rcases eq_or_ne k (i + 1) with rfl | hne
    · rw [Function.update_self, if_neg (by omega), if_pos rfl]
    · rw [Function.update_of_ne hne, openGap_apply]
      by_cases hk : k ≤ i
      · rw [if_pos hk, if_neg (by omega)]
      · rw [if_neg hk, if_neg hne]
        by_cases hk' : k ≤ t.count
        · rw [if_pos ⟨by omega, hk'⟩, if_pos hk']
        · rw [if_neg (by omega), if_neg hk']
  refine ⟨⟨fun k hk => ?_, fun k l hkl hl => ?_⟩, ⟨fun k hk => ?_, fun k hk => ?_, fun k hk => ?_,
    fun k hk => ?_⟩, hroom⟩
  · simp only at hk ⊢
    rw [key]
    split_ifs
    · exact ht.proper k (by omega)
    · exact hproper
    · exact ht.proper _ (by omega)
    · omega
  · simp only at hl ⊢
    rw [key, key]
    split_ifs <;> try omega
    · exact ht.apart k l hkl (by omega)
    · rcases Nat.eq_or_lt_of_le (show k ≤ i by omega) with rfl | hlt
      · exact hfront
      · have h₁ := ht.apart k i hlt hi
        have h₂ := ht.proper i hi
        omega
    · exact ht.apart k _ (by omega) (by omega)
    · exact hback _ (by omega) (by omega)
    · exact ht.apart _ _ (by omega) (by omega)
  · simp only at hk ⊢
    rw [key]
    split_ifs
    · exact ht.begin_dvd k (by omega)
    · exact hb
    · exact ht.begin_dvd _ (by omega)
    · omega
  · simp only at hk ⊢
    rw [key]
    split_ifs
    · exact ht.stop_dvd k (by omega)
    · exact hs
    · exact ht.stop_dvd _ (by omega)
    · omega
  · simp only at hk ⊢
    rw [key]
    split_ifs
    · exact ht.le_begin k (by omega)
    · exact hlow
    · exact ht.le_begin _ (by omega)
    · omega
  · simp only at hk ⊢
    rw [key]
    split_ifs
    · exact ht.stop_le k (by omega)
    · exact hhigh
    · exact ht.stop_le _ (by omega)
    · omega

/-- **One round of `subtract_extent` keeps the invariant**: it leaves entry `i`, removes it,
trims it or splits it. -/
theorem subtractStep_valid (ht : t.Valid) (hr : Reserved removed) (hi : i < t.count) :
    (subtractStep removed t i).1.Valid := by
  have hp := ht.proper i hi
  have hbd := ht.begin_dvd i hi
  have hsd := ht.stop_dvd i hi
  have hsl := ht.stop_le i hi
  -- an end that is off a page boundary lies behind every extent
  have hsdvd : removed.stop < (t.extents i).stop → pageSize ∣ removed.stop := fun h =>
    hr.stop_dvd.resolve_right (by omega)
  simp only [subtractStep]
  split_ifs with h₁ h₂ h₃ h₄ h₅
  · exact ht
  · exact ht.remove hi
  · exact ht.update hi (by simp only; omega) (by simp only; omega) le_rfl (hsdvd (by omega)) hsd
  · exact ht.update hi (by simp only; omega) le_rfl (by simp only; omega) hbd hr.begin_dvd
  · have hcut := ht.update hi (e := ⟨(t.extents i).begin, removed.begin⟩) (by simp only; omega)
      le_rfl (by simp only; omega) hbd hr.begin_dvd
    refine hcut.insertAfter hi h₅ (by simp only; omega) ?_ (fun k hik hk => ?_)
      (hsdvd (by omega)) hsd hsl
    · simpa using hr.proper
    · simp only [Function.update_of_ne hik.ne']
      exact ht.apart i k hik hk
  · exact ht.update hi (by simp only; omega) le_rfl (by simp only; omega) hbd hr.begin_dvd

theorem subtractLoop_valid (hr : Reserved removed) :
    ∀ fuel (t : Table) (i : ℕ), t.Valid → (subtractLoop removed fuel t i).Valid := by
  intro fuel
  induction fuel with
  | zero => exact fun t i ht => ht
  | succ fuel ih =>
    intro t i ht
    rw [subtractLoop]
    split_ifs with hi
    · exact ih _ _ (subtractStep_valid ht hr hi)
    · exact ht

theorem subtractExtent_valid (ht : t.Valid) (hr : Reserved removed) :
    (subtractExtent t removed).Valid :=
  subtractLoop_valid hr _ t 0 ht

/-- The address lies in the extent. -/
def Extent.Contains (e : Extent) (a : ℕ) : Prop := e.begin ≤ a ∧ a < e.stop

/-- What one round at index `i` leaves: the entries it has passed do not meet `removed`, the
ones it has not are entries of `t` or the upper half of a split one. -/
structure Subtracts (removed : Extent) (t : Table) (i : ℕ) (r : Table × ℕ) : Prop where
  front : ∀ k < i, k < r.1.count → r.1.extents k = t.extents k
  passed : ∀ k, i ≤ k → k < r.2 → k < r.1.count → ∀ a, (r.1.extents k).Contains a →
    (t.extents i).Contains a ∧ ¬ removed.Contains a
  ahead : ∀ k, r.2 ≤ k → k < r.1.count →
    (∃ j, i < j ∧ j < t.count ∧ r.1.extents k = t.extents j) ∨
      (r.1.extents k = ⟨removed.stop, (t.extents i).stop⟩ ∧ (t.extents i).begin ≤ removed.stop)
  le_next : i ≤ r.2

theorem subtractStep_spec (hi : i < t.count) :
    Subtracts removed t i (subtractStep removed t i) := by
  -- the entry is cut
  have hcut : ∀ {e : Extent},
      (∀ a, e.Contains a → (t.extents i).Contains a ∧ ¬ removed.Contains a) →
      Subtracts removed t i ({ t with extents := Function.update t.extents i e }, i + 1) := by
    refine fun he => ⟨fun k hk _ => Function.update_of_ne (by omega) _ _, fun k hk hk' _ a ha => ?_,
      fun k hk hk' => Or.inl ⟨k, hk, hk', Function.update_of_ne (by omega) _ _⟩, Nat.le_succ i⟩
    obtain rfl : k = i := by omega
    simp only [Function.update_self] at ha
    exact he a ha
  simp only [subtractStep]
  split_ifs with h₁ h₂ h₃ h₄ h₅
  · refine ⟨fun _ _ _ => rfl, fun k hk hk' _ a ha => ?_, fun k hk hk' => Or.inl ⟨k, hk, hk', rfl⟩,
      Nat.le_succ i⟩
    obtain rfl : k = i := by omega
    simp only [Extent.Contains] at ha ⊢
    omega
  · -- the entry is dropped, and the ones behind it move down
    refine ⟨fun k hk _ => ?_, fun k hk hk' _ => by omega, fun k hk hk' => ?_, le_rfl⟩
    · dsimp only
      rw [closeGap_apply _ _ _ _ (by omega), if_neg (by omega)]
    · simp only at hk hk'
      refine Or.inl ⟨k + 1, by omega, by omega, ?_⟩
      dsimp only
      rw [closeGap_apply _ _ _ _ (by omega), if_pos (by omega)]
  · exact hcut fun a ha => by
      simp only [Extent.Contains] at ha ⊢
      omega
  · exact hcut fun a ha => by
      simp only [Extent.Contains] at ha ⊢
      omega
  · -- the entry is split: its lower half is passed, its upper half comes next
    refine ⟨fun k hk _ => ?_, fun k hk hk' _ a ha => ?_, fun k hk hk' => ?_, Nat.le_succ i⟩
    · dsimp only
      rw [Function.update_of_ne (by omega), openGap_apply, if_neg (by omega),
        Function.update_of_ne (by omega)]
    · obtain rfl : k = i := by omega
      dsimp only at ha
      rw [Function.update_of_ne (by omega), openGap_apply, if_neg (by omega),
        Function.update_self] at ha
      simp only [Extent.Contains] at ha ⊢
      omega
    · simp only at hk hk'
      rcases Nat.eq_or_lt_of_le hk with rfl | hlt
      · exact Or.inr ⟨Function.update_self .., by omega⟩
      · refine Or.inl ⟨k - 1, by omega, by omega, ?_⟩
        dsimp only
        rw [Function.update_of_ne (by omega), openGap_apply, if_pos (by omega),
          Function.update_of_ne (by omega)]
  · exact hcut fun a ha => by
      simp only [Extent.Contains] at ha ⊢
      omega

/-- A round covers no address that was not covered. -/
theorem covers_subtractStep (hi : i < t.count) {a : ℕ}
    (h : (subtractStep removed t i).1.Covers a) : t.Covers a := by
  have hstep : Subtracts removed t i (subtractStep removed t i) := subtractStep_spec hi
  obtain ⟨k, hk, hcov⟩ := h
  rcases lt_or_ge k i with hlt | hge
  · exact ⟨k, by omega, hstep.front k hlt hk ▸ hcov⟩
  · rcases lt_or_ge k (subtractStep removed t i).2 with hpassed | hahead
    · exact ⟨i, hi, (hstep.passed k hge hpassed hk a hcov).1⟩
    · rcases hstep.ahead k hahead hk with ⟨j, -, hj, he⟩ | ⟨he, hle⟩
      · exact ⟨j, hj, he ▸ hcov⟩
      · rw [he] at hcov
        exact ⟨i, hi, hle.trans hcov.1, hcov.2⟩

/-- The rounds still needed from index `i`: one for each entry, and one more while an entry
can still be split. -/
theorem subtractStep_rounds (ht : t.Sorted) (hi : i < t.count) {fuel : ℕ}
    (hfuel : t.count - i + 1 ≤ fuel + 1 ∨
      (t.count - i ≤ fuel + 1 ∧ ∀ k, i ≤ k → k < t.count → removed.stop ≤ (t.extents k).begin)) :
    (subtractStep removed t i).1.count - (subtractStep removed t i).2 + 1 ≤ fuel ∨
      ((subtractStep removed t i).1.count - (subtractStep removed t i).2 ≤ fuel ∧
        ∀ k, (subtractStep removed t i).2 ≤ k → k < (subtractStep removed t i).1.count →
          removed.stop ≤ ((subtractStep removed t i).1.extents k).begin) := by
  have hstep : Subtracts removed t i (subtractStep removed t i) := subtractStep_spec hi
  have hbehind : removed.stop < (t.extents i).stop →
      ∀ k, (subtractStep removed t i).2 ≤ k → k < (subtractStep removed t i).1.count →
        removed.stop ≤ ((subtractStep removed t i).1.extents k).begin := by
    intro hlt k hk hk'
    rcases hstep.ahead k hk hk' with ⟨j, hj, hj', he⟩ | ⟨he, -⟩
    · have := ht.apart i j hj hj'
      rw [he]
      omega
    · rw [he]
  -- a split costs the extra round, and leaves nothing to remove behind it
  rcases hfuel with hfuel | ⟨hfuel, hbeyond⟩
  · by_cases hsplit : (t.extents i).begin < removed.begin ∧ removed.stop < (t.extents i).stop ∧
        removed.begin < (t.extents i).stop ∧ (t.extents i).begin < removed.stop
    · refine Or.inr ⟨?_, hbehind hsplit.2.1⟩
      simp only [subtractStep]
      split_ifs <;> simp only <;> omega
    · left
      simp only [subtractStep]
      split_ifs <;> simp only <;> omega
  · have hle := hbeyond i le_rfl hi
    have hskip : subtractStep removed t i = (t, i + 1) := by
      simp only [subtractStep]
      exact if_pos (Or.inl hle)
    rw [hskip]
    exact Or.inr ⟨by simp only; omega, fun k hk hk' => hbeyond k (by simp only at hk; omega) hk'⟩

theorem covers_subtractLoop (hr : Reserved removed) :
    ∀ fuel (t : Table) (i : ℕ), t.Valid →
      (t.count - i + 1 ≤ fuel ∨ (t.count - i ≤ fuel ∧
        ∀ k, i ≤ k → k < t.count → removed.stop ≤ (t.extents k).begin)) →
      (∀ k < i, k < t.count → ∀ a, (t.extents k).Contains a → ¬ removed.Contains a) →
      ∀ a, (subtractLoop removed fuel t i).Covers a → t.Covers a ∧ ¬ removed.Contains a := by
  intro fuel
  induction fuel with
  | zero =>
    intro t i _ hfuel hdone a ⟨k, hk, hcov⟩
    rw [subtractLoop] at hk hcov
    exact ⟨⟨k, hk, hcov⟩, hdone k (by omega) hk a hcov⟩
  | succ fuel ih =>
    intro t i ht hfuel hdone a hcov
    rw [subtractLoop] at hcov
    split_ifs at hcov with hi
    · have hstep : Subtracts removed t i (subtractStep removed t i) := subtractStep_spec hi
      obtain ⟨hcov', hout⟩ := ih _ _ (subtractStep_valid ht hr hi)
        (subtractStep_rounds ht.toSorted hi hfuel)
        (fun k hk hk' b hb => by
          rcases lt_or_ge k i with hlt | hge
          · exact hdone k hlt (by omega) b (hstep.front k hlt hk' ▸ hb)
          · exact (hstep.passed k hge hk hk' b hb).2) a hcov
      exact ⟨covers_subtractStep hi hcov', hout⟩
    · obtain ⟨k, hk, hc⟩ := hcov
      exact ⟨⟨k, hk, hc⟩, hdone k (by omega) hk a hc⟩

/-- **A subtraction only takes addresses away**, and takes away every one of `removed`. -/
theorem covers_subtractExtent (ht : t.Valid) (hr : Reserved removed) {a : ℕ}
    (h : (subtractExtent t removed).Covers a) : t.Covers a ∧ ¬ removed.Contains a := by
  refine covers_subtractLoop hr _ t 0 ht ?_ (fun k hk => by omega) a h
  rcases Nat.eq_zero_or_pos t.count with hzero | hpos
  · exact Or.inr ⟨by omega, fun k _ hk => by omega⟩
  · exact Or.inl (by omega)

end Subtract

/-! ## Lookup -/

theorem containsFrom_eq_true_iff (ht : t.Sorted) (a : ℕ) :
    ∀ n i, i + n = t.count →
      (containsFrom t a n i = true ↔
        ∃ k, i ≤ k ∧ k < t.count ∧ (t.extents k).begin ≤ a ∧ a < (t.extents k).stop) := by
  intro n
  induction n with
  | zero =>
    intro i hi
    simp only [containsFrom, Bool.false_eq_true, false_iff]
    rintro ⟨k, h₁, h₂, -⟩
    omega
  | succ n ih =>
    intro i hi
    rw [containsFrom]
    split_ifs with hin hlow
    · simp only [true_iff]
      exact ⟨i, le_rfl, by omega, hin⟩
    · -- the extents behind begin even later
      simp only [false_iff]
      rintro ⟨k, h₁, h₂, h₃, -⟩
      rcases Nat.eq_or_lt_of_le h₁ with rfl | hik
      · omega
      · have := ht.apart i k hik h₂
        have := ht.proper i (by omega)
        omega
    · rw [ih (i + 1) (by omega)]
      constructor
      · rintro ⟨k, h₁, h₂⟩
        exact ⟨k, by omega, h₂⟩
      · rintro ⟨k, h₁, h₂, h₃⟩
        refine ⟨k, ?_, h₂, h₃⟩
        rcases Nat.eq_or_lt_of_le h₁ with rfl | hik
        · exact absurd h₃ hin
        · exact hik

/-- **`contains` decides coverage**: its early exit misses nothing in a sorted table. -/
theorem contains_eq_true_iff (ht : t.Sorted) (a : ℕ) : contains t a = true ↔ t.Covers a := by
  rw [contains, containsFrom_eq_true_iff ht a t.count 0 (by omega)]
  exact ⟨fun ⟨k, _, h₂, h₃⟩ => ⟨k, h₂, h₃⟩, fun ⟨k, h₂, h₃⟩ => ⟨k, by omega, h₂, h₃⟩⟩

/-! ## Counting pages and runs -/

theorem Table.Paged.pages_subset (ht : t.Paged) : t.pages ⊆ Set.Ico 1 wordSize := by
  rintro a ⟨-, i, hi, h₁, h₂⟩
  have h₃ := ht.le_begin i hi
  have h₄ := ht.stop_le i hi
  simp only [pageSize, wordSize, Set.mem_Ico] at *
  omega

theorem Table.Paged.pages_finite (ht : t.Paged) : t.pages.Finite :=
  (Set.finite_Ico 1 wordSize).subset ht.pages_subset

theorem Table.Paged.ncard_pages_lt (ht : t.Paged) : t.pages.ncard < wordSize := by
  have h := Set.ncard_le_ncard ht.pages_subset (Set.finite_Ico 1 wordSize)
  rw [← Finset.coe_Ico, Set.ncard_coe_finset, Nat.card_Ico] at h
  have : 0 < wordSize := by simp [wordSize]
  omega

/-- The number of pages of entry `i`, as `count_pages` computes it. -/
def extentPages (t : Table) (i : ℕ) : ℕ := ((t.extents i).stop - (t.extents i).begin) / pageSize

/-- The page addresses inside entry `i`. -/
def entryPages (t : Table) (i : ℕ) : Set ℕ :=
  {a | pageSize ∣ a ∧ (t.extents i).begin ≤ a ∧ a < (t.extents i).stop}

theorem ncard_entryPages (hp : t.Paged) {i : ℕ} (hi : i < t.count) :
    (entryPages t i).ncard = extentPages t i := by
  have hb := hp.begin_dvd i hi
  have hs := hp.stop_dvd i hi
  have himage : entryPages t i =
      (fun k => (t.extents i).begin + pageSize * k) ''
        (Finset.range (extentPages t i) : Set ℕ) := by
    ext a
    simp only [entryPages, extentPages, Set.mem_ofPred_eq, Set.mem_image, Finset.coe_range,
      Set.mem_Iio]
    constructor
    · rintro ⟨hd, h₁, h₂⟩
      refine ⟨(a - (t.extents i).begin) / pageSize, ?_, ?_⟩ <;> simp only [pageSize] at * <;> omega
    · rintro ⟨k, hk, rfl⟩
      refine ⟨?_, ?_, ?_⟩ <;> simp only [pageSize] at * <;> omega
  rw [himage, Set.ncard_image_of_injective, Set.ncard_coe_finset, Finset.card_range]
  intro k l hkl
  simpa [pageSize] using hkl

theorem ncard_pages_prefix (hs : t.Sorted) (hp : t.Paged) :
    ∀ n ≤ t.count, Set.ncard {a | ∃ i < n, a ∈ entryPages t i} =
      ∑ i ∈ Finset.range n, extentPages t i := by
  intro n
  induction n with
  | zero => simp
  | succ n ih =>
    intro hn
    have hsplit : {a | ∃ i < n + 1, a ∈ entryPages t i} =
        {a | ∃ i < n, a ∈ entryPages t i} ∪ entryPages t n := by
      ext a
      simp only [Set.mem_ofPred_eq, Set.mem_union]
      constructor
      · rintro ⟨i, hi, ha⟩
        rcases Nat.lt_succ_iff_lt_or_eq.mp hi with hlt | rfl
        · exact Or.inl ⟨i, hlt, ha⟩
        · exact Or.inr ha
      · rintro (⟨i, hi, ha⟩ | ha)
        · exact ⟨i, by omega, ha⟩
        · exact ⟨n, by omega, ha⟩
    have hfin : ∀ S : Set ℕ, S ⊆ {a | ∃ i < n + 1, a ∈ entryPages t i} → S.Finite := by
      intro S hS
      refine hp.pages_finite.subset fun a ha => ?_
      obtain ⟨i, hi, hd, hcov⟩ := hS ha
      exact ⟨hd, i, by omega, hcov⟩
    -- entries that are apart have no page in common
    have hdisj : Disjoint {a | ∃ i < n, a ∈ entryPages t i} (entryPages t n) := by
      refine Set.disjoint_left.mpr ?_
      rintro a ⟨i, hi, -, -, h₁⟩ ⟨-, h₂, -⟩
      have := hs.apart i n hi (by omega)
      omega
    rw [hsplit, Set.ncard_union_eq hdisj (hfin _ (hsplit ▸ Set.subset_union_left))
      (hfin _ (hsplit ▸ Set.subset_union_right)), ih (by omega), ncard_entryPages hp (by omega),
      Finset.sum_range_succ]

theorem Table.Sorted.ncard_pages (hs : t.Sorted) (hp : t.Paged) :
    t.pages.ncard = ∑ i ∈ Finset.range t.count, extentPages t i := by
  rw [← ncard_pages_prefix hs hp t.count le_rfl]
  congr 1
  ext a
  exact ⟨fun ⟨hd, i, hi, h⟩ => ⟨i, hi, hd, h⟩, fun ⟨i, hi, hd, h⟩ => ⟨hd, i, hi, h⟩⟩

theorem countPages_eq_sum (t : Table) :
    ∀ n i pages, pages + ∑ k ∈ Finset.range n, extentPages t (i + k) < wordSize →
      countPages t n i pages = pages + ∑ k ∈ Finset.range n, extentPages t (i + k) := by
  intro n
  induction n with
  | zero => simp [countPages]
  | succ n ih =>
    intro i pages hlt
    have hshift : ∑ k ∈ Finset.range n, extentPages t (i + (k + 1)) =
        ∑ k ∈ Finset.range n, extentPages t (i + 1 + k) :=
      Finset.sum_congr rfl fun k _ => by rw [add_assoc, add_comm 1 k]
    rw [Finset.sum_range_succ', hshift, add_zero] at hlt ⊢
    rw [countPages, ← extentPages, if_neg (by omega), ih _ _ (by omega)]
    omega

/-- **`count_pages` counts the pages** of a valid table: the sum never saturates. -/
theorem countPages_eq_ncard (hs : t.Sorted) (hp : t.Paged) :
    countPages t t.count 0 0 = t.pages.ncard := by
  have h := hs.ncard_pages hp
  have hlt := hp.ncard_pages_lt
  rw [countPages_eq_sum t t.count 0 0 (by simp only [zero_add, ← h]; exact hlt)]
  simp only [zero_add, ← h]

/-- The first pages of the maximal runs of consecutive pages in `S`. -/
def runStarts (S : Set ℕ) : Set ℕ := {a ∈ S | a - pageSize ∉ S}

/-- **A sorted table is minimal**: it has one extent for each maximal run of its pages. -/
theorem ncard_runStarts (hs : t.Sorted) (hp : t.Paged) : (runStarts t.pages).ncard = t.count := by
  have himage : runStarts t.pages =
      (fun i => (t.extents i).begin) '' (Finset.range t.count : Set ℕ) := by
    ext a
    simp only [runStarts, Table.pages, Set.mem_ofPred_eq, Set.mem_image, Finset.coe_range,
      Set.mem_Iio]
    constructor
    · rintro ⟨⟨hd, i, hi, h₁, h₂⟩, hstart⟩
      refine ⟨i, hi, ?_⟩
      by_contra hne
      have hb := hp.begin_dvd i hi
      have hlow := hp.le_begin i hi
      refine hstart ⟨?_, i, hi, ?_, ?_⟩ <;> simp only [pageSize] at * <;> omega
    · rintro ⟨i, hi, rfl⟩
      refine ⟨⟨hp.begin_dvd i hi, i, hi, le_rfl, hs.proper i hi⟩, ?_⟩
      rintro ⟨-, j, hj, h₁, h₂⟩
      have hb := hp.begin_dvd i hi
      have hsd := hp.stop_dvd j hj
      have hlow := hp.le_begin i hi
      rcases lt_trichotomy i j with hij | rfl | hji
      · have h₃ := hs.apart i j hij hj
        have h₄ := hs.proper i hi
        omega
      · simp only [pageSize] at *
        omega
      · have h₃ := hs.apart j i hji hi
        simp only [pageSize] at *
        omega
  have hinj : Set.InjOn (fun i => (t.extents i).begin) (Finset.range t.count : Set ℕ) := by
    intro i hi j hj hij
    simp only [Finset.coe_range, Set.mem_Iio] at hi hj hij
    rcases lt_trichotomy i j with h | h | h
    · have h₁ := hs.apart i j h hj
      have h₂ := hs.proper i hi
      omega
    · exact h
    · have h₁ := hs.apart j i h hi
      have h₂ := hs.proper j hj
      omega
  rw [himage, hinj.ncard_image, Set.ncard_coe_finset, Finset.card_range]

end ShirleysOS.Memory
