import Mathlib.Data.Set.Lattice
import Mathlib.Tactic.IntervalCases
import Mathlib.Tactic.Push
import ShirleysOS.Paging.AddressSpace
import ShirleysOS.Paging.Format

/-!
# The tree of tables

The tables of an address space form a tree: the table at `level` with the number `q` translates
the addresses `a` with `entryNumber (level + 1) a = q`, and its entry `i` leads to the table with
the number `512 * q + i` one level below. The tree is kept apart from the memory, as a map from
level and number to the page of the table; `Tree` says that the memory holds it. Every operation
is described by what it does to that map and to the entries of the last level.
-/

namespace ShirleysOS.Paging

open Lib
open Memory (pageSize)

/-! ## Entries in memory -/

section Slots

variable {m m' : Mem} {p p' i i' v : ℕ}

theorem slot_bounds (hi : i < 512) : p ≤ slot p i ∧ slot p i + 8 ≤ p + pageSize := by
  unfold slot pageSize
  omega

/-- An entry lies in the page of its table. -/
theorem load_slot_congr (hp : pageSize ∣ p) (hi : i < 512)
    (h : ∀ x, pageOf x = p → m x = m' x) : m.load (slot p i) = m'.load (slot p i) := by
  obtain ⟨hlow, hhigh⟩ := slot_bounds (p := p) hi
  apply Mem.load_congr
  intro j hj
  apply h
  rw [show slot p i + j = p + (slot p i + j - p) by omega]
  exact pageOf_add hp (by omega)

theorem store_slot_of_ne {x : ℕ} (hp : pageSize ∣ p) (hi : i < 512) (hx : pageOf x ≠ p) :
    m.store (slot p i) v x = m x := by
  obtain ⟨hlow, hhigh⟩ := slot_bounds (p := p) hi
  apply Mem.store_of_not_mem
  intro hin
  apply hx
  rw [show x = p + (x - p) by omega]
  exact pageOf_add hp (by omega)

theorem load_store_slot (hp : pageSize ∣ p) (hp' : pageSize ∣ p') (hi : i < 512) (hi' : i' < 512)
    (hne : p' = p → i' ≠ i) : (m.store (slot p i) v).load (slot p' i') = m.load (slot p' i') := by
  by_cases hpp : p' = p
  · subst hpp
    have := hne rfl
    apply Mem.load_store_of_disjoint
    unfold slot
    omega
  · exact load_slot_congr hp' hi' fun x hx => store_slot_of_ne hp hi (by rw [hx]; exact hpp)

theorem load_clearPage_self (hi : i < 512) : (clearPage m p).load (slot p i) = 0 := by
  have hzero : (clearPage m p).load (slot p i) = Mem.load (fun _ => 0) (slot p i) := by
    obtain ⟨hlow, hhigh⟩ := slot_bounds (p := p) hi
    apply Mem.load_congr
    intro j hj
    rw [show slot p i + j = p + (slot p i + j - p) by omega]
    exact clearPage_apply (by omega)
  rw [hzero]
  simp [Mem.load]

theorem load_clearPage_of_ne (hp : pageSize ∣ p) (hp' : pageSize ∣ p') (hi : i < 512)
    (hne : p' ≠ p) : (clearPage m p).load (slot p' i) = m.load (slot p' i) :=
  load_slot_congr hp' hi fun x hx => clearPage_of_ne hp (by rw [hx]; exact hne)

end Slots

/-! ## Numbers of entries -/

/-- The number of the entry at `level` that an address goes through, counted over all tables of
that level. -/
def entryNumber (level address : ℕ) : ℕ := address / 2 ^ (12 + 9 * level)

theorem entryNumber_div (level address : ℕ) :
    entryNumber level address / 512 = entryNumber (level + 1) address := by
  unfold entryNumber
  rw [Nat.div_div_eq_div_mul, show 12 + 9 * (level + 1) = 12 + 9 * level + 9 by omega,
    Nat.pow_add 2 (12 + 9 * level) 9]

theorem indexOf_eq (level address : ℕ) : indexOf address level = entryNumber level address % 512 :=
  rfl

/-- The entry's number, from the number of its table and its index there. -/
theorem entryNumber_eq (level address : ℕ) :
    512 * entryNumber (level + 1) address + indexOf address level = entryNumber level address := by
  rw [← entryNumber_div, indexOf_eq]
  exact Nat.div_add_mod _ 512

variable {q i level address p : ℕ}

theorem child_div (hi : i < 512) : (512 * q + i) / 512 = q := by
  rw [Nat.mul_add_div (by decide), Nat.div_eq_of_lt hi, Nat.add_zero]

theorem indexOf_lt (address level : ℕ) : indexOf address level < 512 := Nat.mod_lt _ (by decide)

/-- The walk looks at 48 bits of an address. -/
theorem indexOf_mod (hlevel : level ≤ 3) (address : ℕ) :
    indexOf (address % 2 ^ 48) level = indexOf address level := by
  unfold indexOf
  interval_cases level <;> omega

theorem entryNumber_root (h : address < 2 ^ 48) : entryNumber 4 address = 0 :=
  Nat.div_eq_of_lt h

theorem entryNumber_zero (address : ℕ) : entryNumber 0 address = address / pageSize := rfl

/-! ## The tables -/

/-- The page of the table at each level with each number. -/
abbrev Tables : Type := ℕ → ℕ → Option ℕ

namespace Tables

/-- The pages of the tables. -/
def pages (T : Tables) : Set ℕ := {p | ∃ level q, T level q = some p}

/-- The entry of the last level with the number `v`; 0 without a table for it. -/
def leaf (T : Tables) (m : Mem) (v : ℕ) : ℕ :=
  match T 0 (v / 512) with
  | none => 0
  | some p => m.load (slot p (v % 512))

/-- One more table. -/
def add (T : Tables) (level q p : ℕ) : Tables := fun level' q' =>
  if level' = level ∧ q' = q then some p else T level' q'

variable {T : Tables} {level q p : ℕ}

@[simp] theorem add_self : T.add level q p level q = some p := if_pos ⟨rfl, rfl⟩

theorem add_of_ne {level' q' : ℕ} (h : ¬ (level' = level ∧ q' = q)) :
    T.add level q p level' q' = T level' q' := if_neg h

theorem mem_pages (h : T level q = some p) : p ∈ T.pages := ⟨level, q, h⟩

theorem pages_add (h : T level q = none) : (T.add level q p).pages = insert p T.pages := by
  ext c
  constructor
  · rintro ⟨level', q', hc⟩
    by_cases hsame : level' = level ∧ q' = q
    · obtain ⟨rfl, rfl⟩ := hsame
      rw [add_self] at hc
      exact Or.inl (Option.some.inj hc).symm
    · rw [add_of_ne hsame] at hc
      exact Or.inr (mem_pages hc)
  · rintro (rfl | ⟨level', q', hc⟩)
    · exact ⟨level, q, add_self⟩
    · refine ⟨level', q', ?_⟩
      rw [add_of_ne, hc]
      rintro ⟨rfl, rfl⟩
      rw [h] at hc
      cases hc

end Tables

/-- The memory holds the tables `T`, with the table `root` at the top. -/
structure Tree (F : Format) (width : ℕ) (m : Mem) (root : ℕ) (T : Tables) : Prop where
  root : T 3 0 = some root
  top : ∀ level q p, T level q = some p → level ≤ 3 ∧ (level = 3 → q = 0)
  up : ∀ level q p, T level q = some p → level < 3 → ∃ p', T (level + 1) (q / 512) = some p'
  entry : ∀ level q p i, T (level + 1) q = some p → i < 512 →
    m.load (slot p i) =
      match T level (512 * q + i) with
      | none => 0
      | some c => F.tableEntry c
  inj : ∀ level q level' q' p, T level q = some p → T level' q' = some p →
    level = level' ∧ q = q'
  frame : ∀ level q p, T level q = some p → ValidFrame width p ∧ p ≠ 0

section Tree

variable {F : Format} {width root : ℕ} {m m' : Mem} {T : Tables}

theorem Tree.dvd (h : Tree F width m root T) (hp : T level q = some p) : pageSize ∣ p :=
  (h.frame level q p hp).1.dvd

/-- Without a table for an address at one level there is none below. -/
theorem Tree.none_below (h : Tree F width m root T) (hlevel : level ≤ 3)
    (hnone : T level (entryNumber (level + 1) address) = none) :
    T 0 (entryNumber 1 address) = none := by
  induction level with
  | zero => exact hnone
  | succ level ih =>
    apply ih (by omega)
    -- a table below would have this one above it
    cases hlow : T level (entryNumber (level + 1) address) with
    | none => rfl
    | some p =>
      obtain ⟨p', hp'⟩ := h.up level _ p hlow (by omega)
      rw [entryNumber_div, hnone] at hp'
      cases hp'

/-- The tables depend on their own pages only. -/
theorem Tree.congr (h : Tree F width m root T) (hm : ∀ x, pageOf x ∈ T.pages → m' x = m x) :
    Tree F width m' root T where
  root := h.root
  top := h.top
  up := h.up
  entry level q p i hp hi := by
    rw [← h.entry level q p i hp hi]
    exact load_slot_congr (h.dvd hp) hi fun x hx => hm x (hx ▸ Tables.mem_pages hp)
  inj := h.inj
  frame := h.frame

theorem Tree.leaf_congr (h : Tree F width m root T) (hm : ∀ x, pageOf x ∈ T.pages → m' x = m x) :
    T.leaf m' = T.leaf m := by
  funext v
  unfold Tables.leaf
  split
  · rfl
  · rename_i p hp
    exact load_slot_congr (h.dvd hp) (Nat.mod_lt v (by decide)) fun x hx =>
      hm x (hx ▸ Tables.mem_pages hp)

/-! ## Translation -/

/-- The entry that a walk meets above the last level. -/
theorem Tree.load_indexOf (h : Tree F width m root T)
    (hp : T (level + 1) (entryNumber (level + 2) address) = some p) :
    m.load (slot p (indexOf address (level + 1))) =
      match T level (entryNumber (level + 1) address) with
      | none => 0
      | some c => F.tableEntry c := by
  rw [h.entry level _ p _ hp (indexOf_lt address (level + 1)), entryNumber_eq]

theorem translateFrom_eq (hF : F.Lawful width) (h : Tree F width m root T) (address : ℕ)
    (hlevel : level ≤ 3) (hp : T level (entryNumber (level + 1) address) = some p) :
    translateFrom F m address level p =
      if F.present (T.leaf m (entryNumber 0 address)) then
        F.address (T.leaf m (entryNumber 0 address)) ||| address % pageSize
      else 0 := by
  -- down to the last level, or to the first level without a table
  induction level generalizing p with
  | zero =>
    have hleaf : T.leaf m (entryNumber 0 address) = m.load (slot p (indexOf address 0)) := by
      unfold Tables.leaf
      rw [entryNumber_div, hp]
      rfl
    rw [translateFrom, hleaf]
    cases F.present (m.load (slot p (indexOf address 0))) <;> rfl
  | succ level ih =>
    rw [translateFrom]
    dsimp only
    rw [h.load_indexOf hp]
    cases hnext : T level (entryNumber (level + 1) address) with
    | none =>
      have hleaf : T.leaf m (entryNumber 0 address) = 0 := by
        unfold Tables.leaf
        rw [entryNumber_div, h.none_below (by omega) hnext]
      simp [hF.empty, hleaf]
    | some c =>
      obtain ⟨hpresent, hlarge, -, haddress, -⟩ := hF.table c (h.frame _ _ c hnext).1
      simp only [hpresent, hlarge, haddress, Bool.not_true, Bool.false_eq_true, if_false]
      exact ih (by omega) hnext

theorem translate_eq (hF : F.Lawful width) (h : Tree F width m root T) (hlimit : address < 2 ^ 48) :
    translate F m root address =
      if F.present (T.leaf m (address / pageSize)) then
        F.address (T.leaf m (address / pageSize)) ||| address % pageSize
      else 0 := by
  rw [translate, if_neg (h.frame 3 0 root h.root).2]
  apply translateFrom_eq hF h address (Nat.le_refl 3)
  rw [entryNumber_root hlimit]
  exact h.root

/-- What the last level does not allow cannot be used from user mode. -/
theorem X8664.userFrom_eq_false {nxSupported : Bool} (h : Tree (x8664 nxSupported) 52 m root T)
    (hlevel : level ≤ 3) (hp : T level (entryNumber (level + 1) address) = some p)
    (hleaf : (T.leaf m (entryNumber 0 address) &&& X8664.entryUser != 0) = false) :
    X8664.userFrom m address level p = false := by
  induction level generalizing p with
  | zero =>
    unfold Tables.leaf at hleaf
    rw [entryNumber_div, hp] at hleaf
    have hentry : (m.load (slot p (indexOf address 0)) &&& X8664.entryUser != 0) = false := hleaf
    rw [X8664.userFrom, hentry, Bool.and_false]
  | succ level ih =>
    rw [X8664.userFrom, h.load_indexOf hp]
    cases hnext : T level (entryNumber (level + 1) address) with
    | none => simp
    | some c =>
      obtain ⟨-, hlarge, -, haddress, -⟩ := (x8664_lawful nxSupported).table c
        (h.frame _ _ c hnext).1
      have hhuge : ((x8664 nxSupported).tableEntry c &&& X8664.entryHuge != 0) = false := hlarge
      have hbelow : (x8664 nxSupported).tableEntry c &&& X8664.addressMask = c := haddress
      dsimp only
      rw [hhuge, hbelow, ih (by omega) hnext]
      exact Bool.and_false _

theorem X8664.userAccessible_eq_false {nxSupported : Bool}
    (h : Tree (x8664 nxSupported) 52 m root T) (hlimit : address < 2 ^ 48)
    (hleaf : (T.leaf m (address / pageSize) &&& X8664.entryUser != 0) = false) :
    X8664.userAccessible m root address = false := by
  apply X8664.userFrom_eq_false h (Nat.le_refl 3) _ hleaf
  rw [entryNumber_root hlimit]
  exact h.root

/-! ## New tables and new entries -/

/-- A cleared page becomes the table below an entry that was empty. -/
theorem Tree.add (hF : F.Lawful width) (h : Tree F width m root T) {c : ℕ}
    (hp : T (level + 1) q = some p) (hi : i < 512) (hnone : T level (512 * q + i) = none)
    (hc : ValidFrame width c) (hzero : c ≠ 0) (hnew : c ∉ T.pages) :
    Tree F width ((clearPage m c).store (slot p i) (F.tableEntry c)) root
      (T.add level (512 * q + i) c) := by
  have hlevel : level + 1 ≤ 3 := (h.top _ _ p hp).1
  have hold : ∀ {level' q' p'}, T level' q' = some p' →
      T.add level (512 * q + i) c level' q' = some p' := by
    intro level' q' p' hp'
    rw [Tables.add_of_ne, hp']
    rintro ⟨rfl, rfl⟩
    rw [hnone] at hp'
    cases hp'
  have hcp : c ≠ p := fun heq => hnew (heq ▸ Tables.mem_pages hp)
  refine ⟨hold h.root, ?_, ?_, ?_, ?_, ?_⟩
  · intro level' q' p' hp'
    by_cases hsame : level' = level ∧ q' = 512 * q + i
    · omega
    · rw [Tables.add_of_ne hsame] at hp'
      exact h.top level' q' p' hp'
  · intro level' q' p' hp' hlt
    by_cases hsame : level' = level ∧ q' = 512 * q + i
    · obtain ⟨rfl, rfl⟩ := hsame
      rw [child_div hi]
      exact ⟨p, hold hp⟩
    · rw [Tables.add_of_ne hsame] at hp'
      obtain ⟨above, habove⟩ := h.up level' q' p' hp' hlt
      exact ⟨above, hold habove⟩
  · intro level' q' p' j hp' hj
    by_cases hsame : level' + 1 = level ∧ q' = 512 * q + i
    · -- the new table is empty, and there is nothing below it
      obtain ⟨rfl, rfl⟩ := hsame
      rw [Tables.add_self] at hp'
      obtain rfl := Option.some.inj hp'
      rw [load_store_slot (h.dvd hp) hc.dvd hi hj fun heq => absurd heq hcp,
        load_clearPage_self hj, Tables.add_of_ne (by omega)]
      cases hbelow : T level' (512 * (512 * q + i) + j) with
      | none => rfl
      | some b =>
        obtain ⟨above, habove⟩ := h.up level' _ b hbelow (by omega)
        rw [child_div hj, hnone] at habove
        cases habove
    · rw [Tables.add_of_ne hsame] at hp'
      have hne : p' ≠ c := fun heq => hnew (heq ▸ Tables.mem_pages hp')
      by_cases hslot : p' = p ∧ j = i
      · obtain ⟨rfl, rfl⟩ := hslot
        obtain ⟨hl, rfl⟩ := h.inj _ _ _ _ _ hp' hp
        obtain rfl : level' = level := by omega
        rw [Tables.add_self, Mem.load_store_self (hF.table c hc).2.2.2.2]
      · have hother : ¬ (level' = level ∧ 512 * q' + j = 512 * q + i) := by
          rintro ⟨rfl, hq⟩
          obtain ⟨rfl, rfl⟩ : q' = q ∧ j = i := by omega
          rw [hp] at hp'
          exact hslot ⟨(Option.some.inj hp').symm, rfl⟩
        rw [load_store_slot (h.dvd hp) (h.dvd hp') hi hj fun heq hji => hslot ⟨heq, hji⟩,
          load_clearPage_of_ne hc.dvd (h.dvd hp') hj hne, Tables.add_of_ne hother]
        exact h.entry level' q' p' j hp' hj
  · intro l₁ q₁ l₂ q₂ p' h₁ h₂
    by_cases hs₁ : l₁ = level ∧ q₁ = 512 * q + i <;> by_cases hs₂ : l₂ = level ∧ q₂ = 512 * q + i
    · omega
    · obtain ⟨rfl, rfl⟩ := hs₁
      rw [Tables.add_self] at h₁
      rw [Tables.add_of_ne hs₂, ← h₁] at h₂
      exact absurd (Tables.mem_pages h₂) hnew
    · obtain ⟨rfl, rfl⟩ := hs₂
      rw [Tables.add_self] at h₂
      rw [Tables.add_of_ne hs₁, ← h₂] at h₁
      exact absurd (Tables.mem_pages h₁) hnew
    · rw [Tables.add_of_ne hs₁] at h₁
      rw [Tables.add_of_ne hs₂] at h₂
      exact h.inj _ _ _ _ p' h₁ h₂
  · intro level' q' p' hp'
    by_cases hsame : level' = level ∧ q' = 512 * q + i
    · obtain ⟨rfl, rfl⟩ := hsame
      rw [Tables.add_self] at hp'
      exact Option.some.inj hp' ▸ ⟨hc, hzero⟩
    · rw [Tables.add_of_ne hsame] at hp'
      exact h.frame level' q' p' hp'

theorem Tree.leaf_add (h : Tree F width m root T) {c w : ℕ} (hp : T (level + 1) q = some p)
    (hi : i < 512) (hnone : T level (512 * q + i) = none) (hc : ValidFrame width c)
    (hnew : c ∉ T.pages) :
    (T.add level (512 * q + i) c).leaf ((clearPage m c).store (slot p i) w) = T.leaf m := by
  funext v
  have hv : v % 512 < 512 := Nat.mod_lt v (by decide)
  have hcp : c ≠ p := fun heq => hnew (heq ▸ Tables.mem_pages hp)
  unfold Tables.leaf
  by_cases hsame : 0 = level ∧ v / 512 = 512 * q + i
  · obtain ⟨rfl, hq⟩ := hsame
    rw [hq, Tables.add_self, hnone]
    dsimp only
    rw [load_store_slot (h.dvd hp) hc.dvd hi hv fun heq => absurd heq hcp, load_clearPage_self hv]
  · rw [Tables.add_of_ne hsame]
    cases hleaf : T 0 (v / 512) with
    | none => rfl
    | some p' =>
      dsimp only
      -- a table of the last level is not the one that is written
      have hpp : p' ≠ p := by
        rintro rfl
        have := (h.inj _ _ _ _ _ hleaf hp).1
        omega
      have hne : p' ≠ c := fun heq => hnew (heq ▸ Tables.mem_pages hleaf)
      rw [load_store_slot (h.dvd hp) (h.dvd hleaf) hi hv fun heq => absurd heq hpp,
        load_clearPage_of_ne hc.dvd (h.dvd hleaf) hv hne]

theorem Tree.store_leaf (h : Tree F width m root T) {w : ℕ} (hp : T 0 q = some p) (hi : i < 512) :
    Tree F width (m.store (slot p i) w) root T ∧ (w < Word.size →
      T.leaf (m.store (slot p i) w) = Function.update (T.leaf m) (512 * q + i) w) := by
  constructor
  · refine ⟨h.root, h.top, h.up, fun level q' p' j hp' hj => ?_, h.inj, h.frame⟩
    rw [← h.entry level q' p' j hp' hj]
    refine load_store_slot (h.dvd hp) (h.dvd hp') hi hj fun heq => ?_
    -- a table above the last level is another page
    subst heq
    have := (h.inj _ _ _ _ _ hp' hp).1
    omega
  · intro hw
    funext v
    have hv : v % 512 < 512 := Nat.mod_lt v (by decide)
    by_cases hself : v = 512 * q + i
    · subst hself
      rw [Function.update_self]
      unfold Tables.leaf
      rw [child_div hi, hp, Nat.mul_add_mod, Nat.mod_eq_of_lt hi]
      exact Mem.load_store_self hw
    · rw [Function.update_of_ne hself]
      unfold Tables.leaf
      cases hleaf : T 0 (v / 512) with
      | none => rfl
      | some p' =>
        refine load_store_slot (h.dvd hp) (h.dvd hleaf) hi hv fun heq hvi => hself ?_
        subst heq
        have := (h.inj _ _ _ _ _ hleaf hp).2
        omega

end Tree

end ShirleysOS.Paging
