import ShirleysOS.Paging.Mapping

/-!
# Tearing an address space down

`destroy` frees the tables level by level and leaves the mapped pages alone. Every table is freed
once, so the pages that were taken for tables are all free again.
-/

namespace ShirleysOS.Paging

open Lib
open Memory (pageSize)

/-- The page holds a table at or below the one at `level` with the number `q`. -/
def Tables.Below (T : Tables) (level q c : ℕ) : Prop :=
  ∃ level' q', T level' q' = some c ∧ level' ≤ level ∧ q' / 512 ^ (level - level') = q

variable {q p level : ℕ}

section Teardown

variable {α : Type} {F : Format} {A : PageSource α} {width root : ℕ} {managed : Set ℕ}
  {free : α → Finset ℕ} {m : Mem} {T : Tables}

theorem Tree.below_zero (_ : Tree F width m root T) (hp : T 0 q = some p) (c : ℕ) :
    T.Below 0 q c ↔ c = p := by
  constructor
  · rintro ⟨level', q', hc, hle, rfl⟩
    obtain rfl : level' = 0 := Nat.le_zero.mp hle
    rw [Nat.sub_zero, Nat.pow_zero, Nat.div_one, hc] at hp
    exact Option.some.inj hp
  · rintro rfl
    exact ⟨0, q, hp, Nat.le_refl 0, by rw [Nat.sub_zero, Nat.pow_zero, Nat.div_one]⟩

theorem Tree.below_succ (_ : Tree F width m root T) (hp : T (level + 1) q = some p) (c : ℕ) :
    T.Below (level + 1) q c ↔ c = p ∨ ∃ i < 512, T.Below level (512 * q + i) c := by
  constructor
  · rintro ⟨level', q', hc, hle, hq⟩
    rcases Nat.eq_or_lt_of_le hle with rfl | hlt
    · left
      rw [Nat.sub_self, Nat.pow_zero, Nat.div_one] at hq
      rw [hq, hp] at hc
      exact (Option.some.inj hc).symm
    · right
      -- the entry that the table hangs under
      have hstep : level + 1 - level' = level - level' + 1 := by omega
      rw [hstep, Nat.pow_succ, ← Nat.div_div_eq_div_mul] at hq
      refine ⟨q' / 512 ^ (level - level') % 512, Nat.mod_lt _ (by decide), level', q', hc,
        Nat.le_of_lt_succ hlt, ?_⟩
      rw [← hq]
      exact (Nat.div_add_mod _ 512).symm
  · rintro (rfl | ⟨i, hi, level', q', hc, hle, hq⟩)
    · exact ⟨level + 1, q, hp, Nat.le_refl _, by rw [Nat.sub_self, Nat.pow_zero, Nat.div_one]⟩
    · refine ⟨level', q', hc, by omega, ?_⟩
      rw [show level + 1 - level' = level - level' + 1 by omega, Nat.pow_succ,
        ← Nat.div_div_eq_div_mul, hq, child_div hi]

/-- No table hangs under two entries. -/
theorem Tree.below_inj (h : Tree F width m root T) {q' c : ℕ} (hq : T.Below level q c)
    (hq' : T.Below level q' c) : q = q' := by
  obtain ⟨l₁, n₁, h₁, -, rfl⟩ := hq
  obtain ⟨l₂, n₂, h₂, -, rfl⟩ := hq'
  obtain ⟨rfl, rfl⟩ := h.inj _ _ _ _ c h₁ h₂
  rfl

theorem Tree.not_below (h : Tree F width m root T) {q' : ℕ} (hp : T (level + 1) q = some p) :
    ¬ T.Below level q' p := by
  rintro ⟨level', n, hc, hle, -⟩
  have := (h.inj _ _ _ _ p hc hp).1
  omega

theorem Tree.not_below_of_none (h : Tree F width m root T) {c : ℕ} (hlevel : level ≤ 3)
    (hnone : T level q = none) : ¬ T.Below level q c := by
  induction level generalizing q with
  | zero =>
    rintro ⟨level', q', hc, hle, rfl⟩
    obtain rfl : level' = 0 := Nat.le_zero.mp hle
    rw [Nat.sub_zero, Nat.pow_zero, Nat.div_one, hc] at hnone
    cases hnone
  | succ level ih =>
    rintro ⟨level', q', hc, hle, hq⟩
    rcases Nat.eq_or_lt_of_le hle with rfl | hlt
    · rw [Nat.sub_self, Nat.pow_zero, Nat.div_one] at hq
      rw [hq, hnone] at hc
      cases hc
    · rw [show level + 1 - level' = level - level' + 1 by omega, Nat.pow_succ,
        ← Nat.div_div_eq_div_mul] at hq
      -- it would hang under a table of the level below, and that one under this entry
      cases hnext : T level (q' / 512 ^ (level - level')) with
      | none => exact ih (by omega) hnext ⟨level', q', hc, Nat.le_of_lt_succ hlt, rfl⟩
      | some b =>
        obtain ⟨above, habove⟩ := h.up level _ b hnext (by omega)
        rw [hq, hnone] at habove
        cases habove

theorem Tree.below_root (h : Tree F width m root T) (c : ℕ) : T.Below 3 0 c ↔ c ∈ T.pages := by
  constructor
  · rintro ⟨level, q, hc, -, -⟩
    exact Tables.mem_pages hc
  · rintro ⟨level, q, hc⟩
    by_contra hnot
    have hle := (h.top level q c hc).1
    have hother : T 3 (q / 512 ^ (3 - level)) = none := by
      cases habove : T 3 (q / 512 ^ (3 - level)) with
      | none => rfl
      | some b =>
        have hzero := (h.top 3 _ b habove).2 rfl
        exact absurd ⟨level, q, hc, hle, hzero⟩ hnot
    exact h.not_below_of_none (Nat.le_refl 3) hother ⟨level, q, hc, hle, rfl⟩

/-! ## Freeing the tables -/

/-- The pages that `free_level` gives back, in order. -/
def freedPages (F : Format) (m : Mem) : ℕ → ℕ → List ℕ
  | 0, physical => [physical]
  | level + 1, physical =>
    (List.range entriesPerTable).flatMap (fun i =>
      let entry := m.load (slot physical i)
      if F.isTable entry then freedPages F m level (F.address entry) else []) ++ [physical]

/-- `free_level` calls `free_page` with these pages. -/
theorem freeLevel_eq_foldl (level physical : ℕ) (pages : α) :
    freeLevel F A m level physical pages =
      (freedPages F m level physical).foldl (fun pages page => A.freePage page pages) pages := by
  induction level generalizing physical pages with
  | zero => rfl
  | succ level ih =>
    rw [freeLevel, freedPages, List.foldl_append, List.foldl_flatMap, List.foldl_cons,
      List.foldl_nil]
    congr 2
    funext pages i
    dsimp only
    split
    · exact ih _ _
    · rfl

/-- What an entry contributes: the pages of the table that hangs under it. -/
theorem freedPages_entry (hF : F.Lawful width) (h : Tree F width m root T) {i : ℕ}
    (hp : T (level + 1) q = some p) (hi : i < 512) :
    (if F.isTable (m.load (slot p i)) then
        freedPages F m level (F.address (m.load (slot p i))) else []) =
      match T level (512 * q + i) with
      | none => []
      | some b => freedPages F m level b := by
  rw [h.entry level q p i hp hi]
  cases hnext : T level (512 * q + i) with
  | none =>
    dsimp only
    rw [hF.absent 0 hF.empty, if_neg Bool.false_ne_true]
  | some b =>
    obtain ⟨-, -, htable, haddress, -⟩ := hF.table b (h.frame _ _ b hnext).1
    dsimp only
    rw [htable, if_pos rfl, haddress]

theorem mem_freedPages (hF : F.Lawful width) (h : Tree F width m root T) (hp : T level q = some p)
    (c : ℕ) : c ∈ freedPages F m level p ↔ T.Below level q c := by
  induction level generalizing q p with
  | zero => rw [freedPages, List.mem_singleton, h.below_zero hp]
  | succ level ih =>
    have hlevel : level + 1 ≤ 3 := (h.top _ _ p hp).1
    have hentry : ∀ i < 512, c ∈ (if F.isTable (m.load (slot p i)) then
        freedPages F m level (F.address (m.load (slot p i))) else []) ↔
          T.Below level (512 * q + i) c := by
      intro i hi
      rw [freedPages_entry hF h hp hi]
      cases hnext : T level (512 * q + i) with
      | none =>
        exact iff_of_false List.not_mem_nil (h.not_below_of_none (Nat.le_of_succ_le hlevel) hnext)
      | some b => exact ih hnext
    rw [freedPages, List.mem_append, List.mem_flatMap, List.mem_singleton, h.below_succ hp, or_comm]
    refine or_congr_right ⟨?_, ?_⟩
    · rintro ⟨i, hi, hc⟩
      have hlt : i < 512 := List.mem_range.mp hi
      exact ⟨i, hlt, (hentry i hlt).mp hc⟩
    · rintro ⟨i, hi, hc⟩
      exact ⟨i, List.mem_range.mpr hi, (hentry i hi).mpr hc⟩

/-- No table is given back twice. -/
theorem freedPages_nodup (hF : F.Lawful width) (h : Tree F width m root T)
    (hp : T level q = some p) : (freedPages F m level p).Nodup := by
  induction level generalizing q p with
  | zero => exact List.nodup_singleton p
  | succ level ih =>
    have hlevel : level + 1 ≤ 3 := (h.top _ _ p hp).1
    rw [freedPages, List.nodup_append', List.nodup_flatMap]
    have hbelow : ∀ i < 512, ∀ c ∈ (if F.isTable (m.load (slot p i)) then
        freedPages F m level (F.address (m.load (slot p i))) else []),
          T.Below level (512 * q + i) c := by
      intro i hi c hc
      rw [freedPages_entry hF h hp hi] at hc
      cases hnext : T level (512 * q + i) with
      | none =>
        rw [hnext] at hc
        cases hc
      | some b =>
        rw [hnext] at hc
        exact (mem_freedPages hF h hnext c).mp hc
    refine ⟨⟨?_, ?_⟩, List.nodup_singleton p, ?_⟩
    · intro i hi
      dsimp only
      rw [freedPages_entry hF h hp (List.mem_range.mp hi)]
      cases hnext : T level (512 * q + i) with
      | none => exact List.nodup_nil
      | some b => exact ih hnext
    · -- different entries have different tables under them
      refine List.nodup_range.imp_of_mem ?_
      intro i j hi hj hne c hci hcj
      have hsame := h.below_inj (hbelow i (List.mem_range.mp hi) c hci)
        (hbelow j (List.mem_range.mp hj) c hcj)
      exact hne (Nat.add_left_cancel hsame)
    · intro c hc hcp
      obtain ⟨i, hi, hci⟩ := List.mem_flatMap.mp hc
      rw [List.mem_singleton.mp hcp] at hci
      exact h.not_below hp (hbelow i (List.mem_range.mp hi) p hci)

/-- Pages that are given back once each become free. -/
theorem mem_foldl_freePage (hA : A.Correct width managed free) {freed : List ℕ}
    (hnodup : freed.Nodup) {pages : α} (hmanaged : ∀ c ∈ freed, c ∈ managed)
    (hapart : ∀ c ∈ freed, c ∉ free pages) (c : ℕ) :
    c ∈ free (freed.foldl (fun pages page => A.freePage page pages) pages) ↔
      c ∈ free pages ∨ c ∈ freed := by
  induction freed generalizing pages with
  | nil => exact (or_iff_left List.not_mem_nil).symm
  | cons p freed ih =>
    obtain ⟨hp, hnodup⟩ := List.nodup_cons.mp hnodup
    have hfree := hA.freePage pages p (hmanaged p List.mem_cons_self)
      (hapart p List.mem_cons_self)
    rw [List.foldl_cons, ih hnodup fun c hc => hmanaged c (List.mem_cons_of_mem p hc), hfree,
      Finset.mem_insert, List.mem_cons, ← or_assoc, or_comm (a := c = p)]
    intro c hc
    rw [hfree, Finset.mem_insert, not_or]
    exact ⟨fun h => hp (h ▸ hc), hapart c (List.mem_cons_of_mem p hc)⟩

theorem freeLevel_spec (hF : F.Lawful width) (hA : A.Correct width managed free)
    (h : Tree F width m root T) (hmanaged : ∀ p ∈ T.pages, p ∈ managed) {pages : α}
    (hp : T level q = some p) (hapart : ∀ c, T.Below level q c → c ∉ free pages) (c : ℕ) :
    c ∈ free (freeLevel F A m level p pages) ↔ c ∈ free pages ∨ T.Below level q c := by
  have hmem := mem_freedPages hF h hp
  rw [freeLevel_eq_foldl, mem_foldl_freePage hA (freedPages_nodup hF h hp), hmem]
  · intro b hb
    obtain ⟨level', q', hb, -⟩ := (hmem b).mp hb
    exact hmanaged b (Tables.mem_pages hb)
  · exact fun b hb => hapart b ((hmem b).mp hb)

/-- `destroy` makes exactly the tables free again. -/
theorem destroy_spec (hF : F.Lawful width) (hA : A.Correct width managed free) {s : Machine α}
    (h : Owned F width managed free root s T) (c : ℕ) :
    c ∈ free (destroy F A root s).pages ↔ c ∈ (free s.pages : Set ℕ) ∪ T.pages := by
  rw [destroy, if_neg (h.frame 3 0 root h.root).2]
  dsimp only
  have hroot := h.below_root
  rw [freeLevel_spec hF hA h.toTree h.managed h.root (fun c hc => h.apart c ((hroot c).mp hc)) c,
    hroot]
  rfl

/-! ## A new address space -/

/-- The tables of a new address space: the root. -/
def Tables.single (root : ℕ) : Tables :=
  fun level q => if level = 3 ∧ q = 0 then some root else none

theorem Tables.pages_single (root : ℕ) : (Tables.single root).pages = {root} := by
  ext c
  constructor
  · rintro ⟨level, q, hc⟩
    unfold Tables.single at hc
    split at hc
    · exact (Option.some.inj hc).symm
    · cases hc
  · rintro rfl
    exact ⟨3, 0, if_pos ⟨rfl, rfl⟩⟩

/-- A cleared page is an address space without mappings. -/
theorem initializeTable_spec (hA : A.Correct width managed free) {s s' : Machine α}
    (hinit : initializeTable A s = (root, s')) :
    root = 0 ∧ free s'.pages = free s.pages ∨
      Owned F width managed free root s' (Tables.single root) ∧
        (free s'.pages : Set ℕ) ∪ (Tables.single root).pages = free s.pages ∧
        ∀ v, (Tables.single root).leaf s'.mem v = 0 := by
  unfold initializeTable at hinit
  dsimp only at hinit
  rcases hA.allocate s.pages with ⟨hzero, hfree⟩ | ⟨hmem, hfree⟩
  · rw [if_pos hzero] at hinit
    obtain ⟨rfl, rfl⟩ := Prod.mk.inj hinit
    exact Or.inl ⟨rfl, hfree⟩
  · obtain ⟨hframe, hne⟩ := hA.frame _ (hA.inside s.pages _ hmem)
    rw [if_neg hne] at hinit
    obtain ⟨rfl, rfl⟩ := Prod.mk.inj hinit
    right
    set root := (A.allocatePage s.pages).1
    -- the root is the only table
    have hsome : ∀ {level q p}, Tables.single root level q = some p →
        level = 3 ∧ q = 0 ∧ p = root := by
      intro level q p hp
      unfold Tables.single at hp
      split at hp
      · rename_i hat
        exact ⟨hat.1, hat.2, (Option.some.inj hp).symm⟩
      · cases hp
    refine ⟨⟨⟨if_pos ⟨rfl, rfl⟩, ?_, ?_, ?_, ?_, ?_⟩, ?_, ?_⟩, ?_, ?_⟩
    · intro level q p hp
      obtain ⟨rfl, rfl, -⟩ := hsome hp
      exact ⟨Nat.le_refl 3, fun _ => rfl⟩
    · intro level q p hp hlt
      obtain ⟨rfl, -, -⟩ := hsome hp
      omega
    · intro level q p i hp hi
      obtain ⟨hl, rfl, rfl⟩ := hsome hp
      obtain rfl : level = 2 := by omega
      exact load_clearPage_self hi
    · intro l₁ q₁ l₂ q₂ p h₁ h₂
      obtain ⟨rfl, rfl, -⟩ := hsome h₁
      obtain ⟨rfl, rfl, -⟩ := hsome h₂
      exact ⟨rfl, rfl⟩
    · intro level q p hp
      obtain ⟨-, -, rfl⟩ := hsome hp
      exact ⟨hframe, hne⟩
    · intro p hp
      rw [Tables.pages_single, Set.mem_singleton_iff] at hp
      dsimp only
      rw [hp, hfree]
      exact Finset.notMem_erase _ _
    · intro p hp
      rw [Tables.pages_single, Set.mem_singleton_iff] at hp
      exact hp ▸ hA.inside s.pages _ hmem
    · dsimp only
      rw [Tables.pages_single, hfree, Finset.coe_erase, Set.union_singleton,
        Set.insert_sdiff_singleton, Set.insert_eq_of_mem hmem]
    · intro v
      rfl

end Teardown

end ShirleysOS.Paging
