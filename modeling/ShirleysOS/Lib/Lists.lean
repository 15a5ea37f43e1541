import Mathlib.Algebra.Ring.Nat
import Mathlib.Data.List.Basic

/-!
# Consecutive numbers
-/

namespace ShirleysOS.Lib

/-- A beginning of consecutive numbers is consecutive. -/
theorem take_eq_range' {l : List ℕ} {k : ℕ} (h : l = List.range' k l.length) (n : ℕ) :
    l.take n = List.range' k (l.take n).length := by
  rcases Nat.le_total n l.length with hle | hle
  · rw [List.length_take, Nat.min_eq_left hle]
    conv_lhs => rw [h]
    exact List.take_range'_of_length_ge hle
  · rw [List.take_of_length_le hle]
    exact h

end ShirleysOS.Lib
