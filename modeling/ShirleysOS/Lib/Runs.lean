import Mathlib.Data.List.Basic
import Mathlib.Algebra.Ring.Nat

/-!
# Maps given by runs

A map from numbers to numbers may be given by runs: a run sends the numbers from its first one on,
one after another, to those from its target on. The target zero is kept for "nothing", and numbers
in no run have nothing either. Runs that are in order are found piece by piece, since those before
a number's place and those behind it say nothing about it.
-/

namespace ShirleysOS.Lib

/-- `count` numbers from `first` on go to those from `target` on, or to nothing. -/
structure Stretch where
  first : ℕ
  count : ℕ
  target : ℕ
deriving DecidableEq, Repr

/-- The number that is `k` behind the start of a run with the given target. -/
def ahead (target k : ℕ) : ℕ := if target = 0 then 0 else target + k

theorem ahead_zero (target : ℕ) : ahead target 0 = target := by
  unfold ahead
  split
  · next h => exact h.symm
  · rfl

theorem ahead_ahead (target j k : ℕ) : ahead (ahead target j) k = ahead target (j + k) := by
  unfold ahead
  split
  · rw [if_pos rfl]
  · rw [if_neg (by omega), Nat.add_assoc]

namespace Stretch

/-- The run has the number. -/
def covers (n : ℕ) (r : Stretch) : Bool := r.first ≤ n && n < r.first + r.count

/-- The map that runs give. -/
def lookup (rs : List Stretch) (n : ℕ) : ℕ :=
  match rs.find? (covers n) with
  | none => 0
  | some r => ahead r.target (n - r.first)

/-- Runs in order, from `lo` to `hi`. -/
def InOrder (lo hi : ℕ) : List Stretch → Prop
  | [] => lo ≤ hi
  | r :: rs => lo ≤ r.first ∧ InOrder (r.first + r.count) hi rs

variable {r : Stretch} {rs rs' : List Stretch} {lo mid hi n : ℕ}

theorem covers_eq_false (h : n < r.first ∨ r.first + r.count ≤ n) : r.covers n = false := by
  simp only [covers, Bool.and_eq_false_iff, decide_eq_false_iff_not]
  omega

theorem InOrder.le (h : InOrder lo hi rs) : lo ≤ hi := by
  induction rs generalizing lo with
  | nil => exact h
  | cons r rs ih => exact Nat.le_trans h.1 (Nat.le_trans (Nat.le_add_right _ _) (ih h.2))

theorem InOrder.append (h : InOrder lo mid rs) (h' : InOrder mid hi rs') :
    InOrder lo hi (rs ++ rs') := by
  induction rs generalizing lo with
  | nil =>
    cases rs' with
    | nil => exact Nat.le_trans h h'
    | cons r rs' => exact ⟨Nat.le_trans h h'.1, h'.2⟩
  | cons r rs ih => exact ⟨h.1, ih h.2⟩

theorem InOrder.outside (h : InOrder lo hi rs) (hn : n < lo ∨ hi ≤ n) :
    ∀ r ∈ rs, r.covers n = false := by
  induction rs generalizing lo with
  | nil => exact fun r hr => nomatch hr
  | cons r rs ih =>
    have hle := h.2.le
    obtain ⟨hfirst, hrest⟩ := h
    refine List.forall_mem_cons.mpr ⟨covers_eq_false (by omega), ih hrest ?_⟩
    omega

theorem lookup_eq_zero (h : ∀ r ∈ rs, r.covers n = false) : lookup rs n = 0 := by
  rw [lookup, List.find?_eq_none.mpr fun r hr => by rw [h r hr]; exact Bool.false_ne_true]

theorem lookup_append_left (h : InOrder mid hi rs') (hn : n < mid) :
    lookup (rs ++ rs') n = lookup rs n := by
  rw [lookup, lookup, List.find?_append]
  cases hfind : rs.find? (covers n) with
  | some r => rfl
  | none =>
    rw [List.find?_eq_none.mpr fun r hr => by
      rw [h.outside (.inl hn) r hr]
      exact Bool.false_ne_true]
    rfl

theorem lookup_append_right (h : InOrder lo mid rs) (hn : mid ≤ n) :
    lookup (rs ++ rs') n = lookup rs' n := by
  rw [lookup, lookup, List.find?_append, List.find?_eq_none.mpr fun r hr => by
    rw [h.outside (.inr hn) r hr]
    exact Bool.false_ne_true]
  rfl

end Stretch

/-- The map is one run on an interval. -/
def Uniform (f : ℕ → ℕ) (start length target : ℕ) : Prop :=
  ∀ m, start ≤ m → m < start + length → f m = ahead target (m - start)

variable {f g : ℕ → ℕ} {start length target : ℕ}

theorem Uniform.congr (h : Uniform f start length target)
    (heq : ∀ m, start ≤ m → m < start + length → g m = f m) : Uniform g start length target :=
  fun m hlow hhigh => (heq m hlow hhigh).trans (h m hlow hhigh)

namespace Stretch

variable {r : Stretch} {rs : List Stretch}

/-- **The map on a run.** -/
theorem uniform_run :
    Uniform (lookup (r :: rs)) r.first r.count r.target := by
  intro m hlow hhigh
  have hcovers : r.covers m = true := by
    simp only [covers, Bool.and_eq_true, decide_eq_true_eq]
    exact ⟨hlow, hhigh⟩
  rw [lookup, List.find?_cons_of_pos hcovers]

/-- **The map where there is no run.** -/
theorem uniform_gap {start length : ℕ}
    (h : ∀ m, start ≤ m → m < start + length → ∀ r ∈ rs, r.covers m = false) :
    Uniform (lookup rs) start length 0 := fun m hlow hhigh =>
  lookup_eq_zero (h m hlow hhigh)

end Stretch

end ShirleysOS.Lib
