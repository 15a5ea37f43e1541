import Mathlib.Data.Nat.Bitwise
import Mathlib.Tactic.Set
import ShirleysOS.Paging.PageTable

/-!
# The formats of page table entries

What the walk needs to know of an entry: an empty one is not present, one for a table leads back
to the table, one for a page back to the page. Both architectures have it for the frames that fit
the address field.
-/

namespace ShirleysOS.Paging

open Lib
open Memory (pageSize)

/-- A page address with at most `width` bits. -/
structure ValidFrame (width page : ℕ) : Prop where
  dvd : pageSize ∣ page
  lt : page < 2 ^ width

/-- What the walk needs to know of a format, for frames of `width` bits. -/
structure Format.Lawful (F : Format) (width : ℕ) : Prop where
  absent : ∀ entry, F.present entry = false → F.isTable entry = false
  empty : F.present 0 = false
  table : ∀ page, ValidFrame width page →
    F.present (F.tableEntry page) = true ∧ F.large (F.tableEntry page) = false ∧
      F.isTable (F.tableEntry page) = true ∧ F.address (F.tableEntry page) = page ∧
      F.tableEntry page < Word.size
  page : ∀ physical flags, ValidFrame width physical →
    F.present (F.pageEntry physical flags) = true ∧
      F.address (F.pageEntry physical flags) = physical ∧
      F.pageEntry physical flags < Word.size

/-! ## Masks -/

/-- The low bits of a page address are zero. -/
theorem and_eq_zero_of_dvd {page mask k : ℕ} (h : 2 ^ k ∣ page) (hmask : mask < 2 ^ k) :
    page &&& mask = 0 := by
  obtain ⟨q, rfl⟩ := h
  apply Nat.eq_of_testBit_eq
  intro i
  rw [Nat.testBit_and, Nat.zero_testBit]
  rcases Nat.lt_or_ge i k with hi | hi
  · rw [Nat.mul_comm, Nat.testBit_mul_two_pow, decide_eq_false (by omega)]
    simp
  · rw [Nat.testBit_lt_two_pow (hmask.trans_le (Nat.pow_le_pow_right (by omega) hi))]
    simp

/-- A page address that fits is all in the address field. -/
theorem and_addressField {page n : ℕ} (h : pageSize ∣ page) (hlt : page < 2 ^ (12 + n)) :
    page &&& (2 ^ n - 1) * 2 ^ 12 = page := by
  obtain ⟨q, rfl⟩ := h
  have hq : q < 2 ^ n := by
    rw [Nat.pow_add] at hlt
    simp only [pageSize] at hlt
    omega
  apply Nat.eq_of_testBit_eq
  intro i
  rw [show pageSize * q = q * 2 ^ 12 by simp [pageSize, Nat.mul_comm], Nat.testBit_and,
    Nat.testBit_mul_two_pow, Nat.testBit_mul_two_pow, Nat.testBit_two_pow_sub_one]
  by_cases hi : i - 12 < n
  · rw [decide_eq_true hi, Bool.and_true]
    exact Bool.and_eq_left_iff_imp.mpr fun h => (Bool.and_eq_true_iff.mp h).1
  · rw [Nat.testBit_lt_two_pow (hq.trans_le (Nat.pow_le_pow_right (by omega) (by omega)))]
    simp

theorem or_and_low {page flags bits : ℕ} (h : pageSize ∣ page) (hbits : bits < 2 ^ 12) :
    (page ||| flags) &&& bits = flags &&& bits := by
  rw [Nat.and_or_distrib_right, and_eq_zero_of_dvd (k := 12) h hbits, Nat.zero_or]

theorem or_and_field {page flags mask : ℕ} (hpage : page &&& mask = page)
    (hflags : flags &&& mask = 0) : (page ||| flags) &&& mask = page := by
  rw [Nat.and_or_distrib_right, hpage, hflags, Nat.or_zero]

/-! ## The formats -/

theorem X8664.and_addressMask {page : ℕ} (h : ValidFrame 52 page) :
    page &&& X8664.addressMask = page :=
  and_addressField (n := 40) h.dvd h.lt

theorem X8664.translateFlags_bits (nxSupported : Bool) (flags : PageFlags) :
    X8664.translateFlags nxSupported flags &&& X8664.addressMask = 0 ∧
      X8664.translateFlags nxSupported flags &&& X8664.entryPresent = 1 ∧
      (X8664.translateFlags nxSupported flags &&& X8664.entryUser != 0) = flags.user ∧
      X8664.translateFlags nxSupported flags < 2 ^ 64 := by
  obtain ⟨r, w, x, u, d⟩ := flags
  cases nxSupported <;> cases w <;> cases x <;> cases u <;> decide +revert

theorem x8664_lawful (nxSupported : Bool) : (x8664 nxSupported).Lawful 52 where
  absent entry h := by
    simp only [x8664, bne_eq_false_iff_eq] at h
    simp [x8664, h]
  empty := rfl
  table page h := by
    have hentry : (x8664 nxSupported).tableEntry page = page ||| 7 := by
      simp only [x8664, X8664.and_addressMask h, Nat.or_assoc]
      rfl
    have hlt : page ||| 7 < 2 ^ 64 :=
      Nat.or_lt_two_pow (h.lt.trans_le (Nat.pow_le_pow_right (by omega) (by omega))) (by decide)
    have hpresent : (page ||| 7) &&& X8664.entryPresent = 1 := or_and_low h.dvd (by decide)
    have hhuge : (page ||| 7) &&& X8664.entryHuge = 0 := or_and_low h.dvd (by decide)
    have haddress : (page ||| 7) &&& X8664.addressMask = page :=
      or_and_field (X8664.and_addressMask h) (by decide)
    rw [hentry]
    simp only [x8664, hpresent, hhuge, haddress]
    exact ⟨rfl, rfl, rfl, trivial, hlt⟩
  page physical flags h := by
    obtain ⟨hfield, hpresent, -, hlt⟩ := X8664.translateFlags_bits nxSupported flags
    simp only [x8664, X8664.and_addressMask h,
      or_and_low h.dvd (show X8664.entryPresent < 2 ^ 12 by decide), hpresent,
      or_and_field (X8664.and_addressMask h) hfield]
    exact ⟨rfl, trivial, Nat.or_lt_two_pow
      (h.lt.trans_le (Nat.pow_le_pow_right (by omega) (by omega))) hlt⟩

/-- A page is accessible from user mode exactly when it was mapped so. -/
theorem x8664_user (nxSupported : Bool) {physical : ℕ} (flags : PageFlags)
    (h : ValidFrame 52 physical) :
    ((x8664 nxSupported).pageEntry physical flags &&& X8664.entryUser != 0) = flags.user := by
  simp only [x8664, X8664.and_addressMask h,
    or_and_low h.dvd (show X8664.entryUser < 2 ^ 12 by decide)]
  exact (X8664.translateFlags_bits nxSupported flags).2.2.1

theorem Arm64.and_addressMask {page : ℕ} (h : ValidFrame 48 page) :
    page &&& Arm64.addressMask = page :=
  and_addressField (n := 36) h.dvd h.lt

theorem Arm64.translateFlags_bits (flags : PageFlags) :
    Arm64.translateFlags flags &&& Arm64.addressMask = 0 ∧
      Arm64.translateFlags flags &&& Arm64.descriptorValid = 1 ∧
      Arm64.translateFlags flags < 2 ^ 64 := by
  obtain ⟨r, w, x, u, d⟩ := flags
  cases w <;> cases x <;> cases u <;> cases d <;> decide +revert

theorem arm64_lawful : arm64.Lawful 48 where
  absent entry h := by
    simp only [arm64, bne_eq_false_iff_eq] at h
    -- a descriptor with its lowest bit clear is no table
    have hmod : entry % 2 = 0 := by
      rw [← Nat.and_one_is_mod]
      exact h
    have htype : entry &&& Arm64.descriptorTypeMask = entry % 4 :=
      Nat.and_two_pow_sub_one_eq_mod entry 2
    simp only [arm64, htype, beq_eq_false_iff_ne, ne_eq, Arm64.descriptorTable]
    omega
  empty := rfl
  table page h := by
    have hentry : arm64.tableEntry page = page ||| 3 := by
      simp only [arm64, Arm64.and_addressMask h]
      rfl
    have hlt : page ||| 3 < 2 ^ 64 :=
      Nat.or_lt_two_pow (h.lt.trans_le (Nat.pow_le_pow_right (by omega) (by omega))) (by decide)
    have hvalid : (page ||| 3) &&& Arm64.descriptorValid = 1 := or_and_low h.dvd (by decide)
    have htype : (page ||| 3) &&& Arm64.descriptorTypeMask = 3 := or_and_low h.dvd (by decide)
    have haddress : (page ||| 3) &&& Arm64.addressMask = page :=
      or_and_field (Arm64.and_addressMask h) (by decide)
    rw [hentry]
    simp only [arm64, hvalid, htype, haddress]
    exact ⟨rfl, rfl, rfl, trivial, hlt⟩
  page physical flags h := by
    obtain ⟨hfield, hvalid, hlt⟩ := Arm64.translateFlags_bits flags
    simp only [arm64, Arm64.and_addressMask h,
      or_and_low h.dvd (show Arm64.descriptorValid < 2 ^ 12 by decide), hvalid,
      or_and_field (Arm64.and_addressMask h) hfield]
    exact ⟨rfl, trivial, Nat.or_lt_two_pow
      (h.lt.trans_le (Nat.pow_le_pow_right (by omega) (by omega))) hlt⟩

end ShirleysOS.Paging
