import Mathlib.Data.List.Basic
import Mathlib.Algebra.Ring.Nat
import Mathlib.Logic.Function.Basic

/-!
# Rings

A ring keeps its items in consecutive slots of an array, which go on at slot zero after the last.
-/

namespace ShirleysOS.Lib

variable {α : Type}

/-- The `count` items from slot `first` on. -/
def ring (slots : ℕ → α) (n first count : ℕ) : List α :=
  (List.range count).map fun i => slots ((first + i) % n)

variable {slots : ℕ → α} {n first count k : ℕ}

@[simp] theorem length_ring : (ring slots n first count).length = count := by
  rw [ring, List.length_map, List.length_range]

theorem ring_add :
    ring slots n first (k + count) =
      ring slots n first k ++ ring slots n ((first + k) % n) count := by
  rw [ring, List.range_add, List.map_append, List.map_map]
  congr 1
  refine List.map_congr_left fun i _ => ?_
  rw [Function.comp_apply, Nat.mod_add_mod, Nat.add_assoc]

theorem ring_succ :
    ring slots n first (count + 1) = ring slots n first count ++ [slots ((first + count) % n)] := by
  rw [ring, List.range_succ, List.map_append]
  rfl

theorem ring_cons (h : first < n) :
    ring slots n first (count + 1) = slots first :: ring slots n ((first + 1) % n) count := by
  rw [Nat.add_comm count, ring_add, ring_succ, Nat.add_zero, Nat.mod_eq_of_lt h]
  rfl

/-- The slot behind the last item is none of theirs while there is room for one more. -/
theorem slot_ne {i : ℕ} (hi : i < count) (hroom : count < n) :
    (first + i) % n ≠ (first + count) % n := by
  intro h
  have hdvd := Nat.dvd_of_mod_eq_zero (Nat.sub_mod_eq_zero_of_mod_eq h.symm)
  have := Nat.le_of_dvd (by omega) hdvd
  omega

/-- What is put behind the last item does not change the items. -/
theorem ring_update (hroom : count < n) (a : α) :
    ring (Function.update slots ((first + count) % n) a) n first count =
      ring slots n first count := by
  refine List.map_congr_left fun i hi => ?_
  exact Function.update_of_ne (slot_ne (List.mem_range.mp hi) hroom) a slots

end ShirleysOS.Lib
