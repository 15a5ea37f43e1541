import Mathlib.Algebra.Ring.Nat
import Mathlib.Tactic.SplitIfs

/-!
# Byte contents

A content gives every offset a byte. A slice of it is read from an offset on, and a splice
replaces the bytes of one interval. Numbers are stored with the lowest byte first.
-/

namespace ShirleysOS.Lib

/-- A byte at every offset. -/
abbrev Bytes : Type := ℕ → UInt8

namespace Bytes

/-- The content from `offset` on. -/
def slice (c : Bytes) (offset : ℕ) : Bytes := fun j => c (offset + j)

/-- The content with the `length` bytes from `offset` on replaced by those of `data`. -/
def splice (c : Bytes) (offset length : ℕ) (data : Bytes) : Bytes := fun x =>
  if offset ≤ x ∧ x < offset + length then data (x - offset) else c x

/-- The bytes of a table, and zeros elsewhere. -/
def ofTable (table : List (ℕ × UInt8)) : Bytes := fun x => (table.lookup x).getD 0

variable {c data : Bytes} {offset length x j : ℕ}

@[simp] theorem slice_apply : c.slice offset j = c (offset + j) := rfl

theorem splice_add (h : j < length) : c.splice offset length data (offset + j) = data j := by
  rw [splice, if_pos ⟨Nat.le_add_right _ _, by omega⟩, Nat.add_sub_cancel_left]

theorem splice_outside (h : x < offset ∨ offset + length ≤ x) :
    c.splice offset length data x = c x := if_neg (by omega)

@[simp] theorem slice_zero : c.slice 0 = c := by
  funext j
  rw [slice_apply, Nat.zero_add]

theorem slice_slice {k : ℕ} : (c.slice offset).slice k = c.slice (offset + k) := by
  funext j
  simp only [slice_apply, Nat.add_assoc]

@[simp] theorem splice_zero : c.splice offset 0 data = c := by
  funext x
  exact splice_outside (by omega)

theorem splice_append {k : ℕ} :
    (c.splice offset length data).splice (offset + length) k (data.slice length) =
      c.splice offset (length + k) data := by
  funext x
  simp only [splice, slice]
  split_ifs with hright hboth hleft
  · rw [show length + (x - (offset + length)) = x - offset by omega]
  all_goals first | rfl | omega

/-- Writing back a changed copy of an interval changes just the part that was changed. -/
theorem splice_slice_splice {w k : ℕ} (h : w + k ≤ length) :
    c.splice offset length ((c.slice offset).splice w k data) = c.splice (offset + w) k data := by
  funext x
  simp only [splice, slice]
  split_ifs
  · rw [Nat.sub_sub]
  · omega
  · omega
  · rw [Nat.add_sub_cancel' (by omega)]
  · omega
  · rfl

/-! ## Blocks -/

variable {size b b' : ℕ}

theorem block_disjoint (hne : b' ≠ b) (hj : j < size) :
    b' * size + j < b * size ∨ b * size + size ≤ b' * size + j := by
  rcases Nat.lt_or_gt_of_ne hne with hlt | hlt
  · have := Nat.mul_le_mul_right size hlt
    rw [Nat.succ_mul] at this
    omega
  · have := Nat.mul_le_mul_right size hlt
    rw [Nat.succ_mul] at this
    omega

theorem splice_otherBlock (hne : b' ≠ b) (hj : j < size) :
    c.splice (b * size) size data (b' * size + j) = c (b' * size + j) :=
  splice_outside (block_disjoint hne hj)

/-! ## The beginning of a content -/

/-- The first `n` bytes, and zeros after them. -/
def trim (c : Bytes) (n : ℕ) : Bytes := fun j => if j < n then c j else 0

variable {c' : Bytes} {n k : ℕ}

theorem trim_apply (h : j < n) : c.trim n j = c j := if_pos h

@[simp] theorem trim_zero : c.trim 0 = fun _ => 0 := rfl

/-- What has been collected so far, extended by the next bytes. -/
theorem trim_splice : (c.trim n).splice n k (c.slice n) = c.trim (n + k) := by
  funext j
  simp only [trim, splice, slice]
  split_ifs
  · rw [Nat.add_sub_cancel' (by omega)]
  all_goals first | rfl | omega

theorem splice_congr (h : ∀ j < length, data j = c' j) :
    c.splice offset length data = c.splice offset length c' := by
  funext x
  unfold splice
  split
  · exact h _ (by omega)
  · rfl

/-! ## Numbers -/

/-- The number that the `width` bytes from `offset` on hold. -/
def nat (c : Bytes) : ℕ → ℕ → ℕ
  | _, 0 => 0
  | offset, width + 1 => (c offset).toNat + 2 ^ 8 * c.nat (offset + 1) width

/-- The bytes of a number. -/
def ofNat (v : ℕ) : Bytes := fun j => UInt8.ofNat (v / 2 ^ (8 * j))

/-- The content with a number in the `width` bytes from `offset` on. -/
def put (c : Bytes) (offset width v : ℕ) : Bytes := c.splice offset width (ofNat v)

variable {o o' w v : ℕ}

theorem nat_congr (h : ∀ j < w, c (o + j) = c' (o' + j)) : c.nat o w = c'.nat o' w := by
  induction w generalizing o o' with
  | zero => rfl
  | succ w ih =>
    have hfirst := h 0 (Nat.succ_pos w)
    have hrest : c.nat (o + 1) w = c'.nat (o' + 1) w := by
      apply ih
      intro j hj
      rw [Nat.add_assoc, Nat.add_assoc, Nat.add_comm 1 j]
      exact h (j + 1) (Nat.succ_lt_succ hj)
    rw [nat, nat, hrest]
    rw [Nat.add_zero, Nat.add_zero] at hfirst
    rw [hfirst]

theorem nat_lt : c.nat o w < 2 ^ (8 * w) := by
  induction w generalizing o with
  | zero => exact Nat.one_pos
  | succ w ih =>
    have hbyte := (c o).toNat_lt
    have hrest := @ih (o + 1)
    rw [nat, Nat.mul_succ, Nat.pow_add]
    omega

theorem nat_ofNat : (ofNat v).nat o w = v / 2 ^ (8 * o) % 2 ^ (8 * w) := by
  induction w generalizing o with
  | zero => simp [nat, Nat.mod_one]
  | succ w ih =>
    have hstep : v / 2 ^ (8 * (o + 1)) = v / 2 ^ (8 * o) / 2 ^ 8 := by
      rw [Nat.mul_succ, Nat.pow_add, Nat.div_div_eq_div_mul]
    have hbyte : (ofNat v o).toNat = v / 2 ^ (8 * o) % 2 ^ 8 := UInt8.toNat_ofNat
    rw [nat, ih, hbyte, hstep, Nat.mul_succ, Nat.pow_add, Nat.mul_comm (2 ^ (8 * w)), Nat.mod_mul]

theorem nat_put : (c.put o w v).nat o w = v % 2 ^ (8 * w) := by
  have hsame : (c.put o w v).nat o w = (ofNat v).nat 0 w := by
    apply nat_congr
    intro j hj
    rw [put, splice_add hj, Nat.zero_add]
  rw [hsame, nat_ofNat, Nat.mul_zero, Nat.pow_zero, Nat.div_one]

theorem nat_splice_outside (h : o + w ≤ offset ∨ offset + length ≤ o) :
    (c.splice offset length data).nat o w = c.nat o w :=
  nat_congr fun _ _ => splice_outside (by omega)

end Bytes

end ShirleysOS.Lib
