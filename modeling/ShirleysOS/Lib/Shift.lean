import Mathlib.Logic.Function.Basic
import Mathlib.Algebra.Ring.Nat

/-!
# Shifting the entries of an array in place

Three loops that move a run of array entries one at a time, each reading the array as the
loop has left it so far. An array is a function on indices. A loop that moves entries towards
the end it starts from never reads an entry it has overwritten; `shiftEntries` started from
the top is such a loop only for short distances, and its equation carries that condition.
-/

namespace ShirleysOS.Lib

variable {α : Type*}

/-- `for (i = top; i > last; --i) a[i - removed] = a[i - 1]`. -/
def shiftEntries (removed last : ℕ) : ℕ → (ℕ → α) → ℕ → α
  | 0, a => a
  | i + 1, a =>
    if last < i + 1 then
      shiftEntries removed last i (Function.update a (i + 1 - removed) (a i))
    else a

/-- `for (; steps > 0; --steps, ++j) a[j - 1] = a[j]`. -/
def closeGap : ℕ → ℕ → (ℕ → α) → ℕ → α
  | 0, _, a => a
  | steps + 1, j, a => closeGap steps (j + 1) (Function.update a (j - 1) (a j))

/-- `for (j = top; j > bottom; --j) a[j] = a[j - 1]`. -/
def openGap (bottom : ℕ) : ℕ → (ℕ → α) → ℕ → α
  | 0, a => a
  | j + 1, a =>
    if bottom < j + 1 then openGap bottom j (Function.update a (j + 1) (a j)) else a

/-- **The shift**, when no entry is overwritten before it is read: either the entries move by
at most one place, or there are fewer of them than the distance they move. -/
theorem shiftEntries_apply {removed last : ℕ} (hr : removed ≤ last) :
    ∀ (top : ℕ) (a : ℕ → α) (k : ℕ), (removed ≤ 1 ∨ top - last < removed) →
      shiftEntries removed last top a k =
        if last + 1 - removed ≤ k ∧ k + removed ≤ top then a (k + removed - 1) else a k := by
  intro top
  induction top with
  | zero =>
    intro a k _
    rw [shiftEntries, if_neg (by omega)]
  | succ i ih =>
    intro a k hsafe
    rw [shiftEntries]
    by_cases hlast : last < i + 1
    · rw [if_pos hlast, ih _ _ (by omega)]
      by_cases hk : last + 1 - removed ≤ k ∧ k + removed ≤ i
      · -- an entry of a later round: the entry written now is not the one it reads
        rw [if_pos hk, if_pos (by omega), Function.update_of_ne (by omega)]
      · rw [if_neg hk]
        by_cases hi : k = i + 1 - removed
        · rw [hi, Function.update_self, if_pos (by omega)]
          congr 1
          omega
        · rw [Function.update_of_ne hi, if_neg (by omega)]
    · rw [if_neg hlast, if_neg (by omega)]

theorem closeGap_apply (steps : ℕ) :
    ∀ (j : ℕ) (a : ℕ → α) (k : ℕ), 0 < j →
      closeGap steps j a k = if j - 1 ≤ k ∧ k + 1 < j + steps then a (k + 1) else a k := by
  induction steps with
  | zero =>
    intro j a k _
    rw [closeGap, if_neg (by omega)]
  | succ steps ih =>
    intro j a k hj
    rw [closeGap, ih _ _ _ (by omega)]
    by_cases hk : j ≤ k ∧ k + 1 < j + 1 + steps
    · rw [if_pos (by omega), if_pos (by omega), Function.update_of_ne (by omega)]
    · rw [if_neg (by omega)]
      by_cases hj' : k = j - 1
      · rw [hj', Function.update_self, if_pos (by omega)]
        congr 1
        omega
      · rw [Function.update_of_ne hj', if_neg (by omega)]

theorem openGap_apply (bottom top : ℕ) :
    ∀ (a : ℕ → α) (k : ℕ),
      openGap bottom top a k = if bottom < k ∧ k ≤ top then a (k - 1) else a k := by
  induction top with
  | zero =>
    intro a k
    rw [openGap, if_neg (by omega)]
  | succ j ih =>
    intro a k
    rw [openGap]
    by_cases hb : bottom < j + 1
    · rw [if_pos hb, ih]
      by_cases hk : bottom < k ∧ k ≤ j
      · rw [if_pos hk, if_pos (by omega), Function.update_of_ne (by omega)]
      · rw [if_neg hk]
        by_cases hj : k = j + 1
        · rw [hj, Function.update_self, if_pos (by omega)]
          congr 1
        · rw [Function.update_of_ne hj, if_neg (by omega)]
    · rw [if_neg hb, if_neg (by omega)]

end ShirleysOS.Lib
