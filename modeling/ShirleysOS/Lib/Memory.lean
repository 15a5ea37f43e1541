import Mathlib.Algebra.Ring.Nat
import Mathlib.Logic.Function.Basic

/-!
# A byte-addressed memory with 64-bit words

A memory gives every address a byte. Words are stored little-endian in eight bytes. Word
arithmetic wraps at `2 ^ 64`; the lemmas here say when it agrees with that of the naturals.
-/

namespace ShirleysOS.Lib

namespace Word

/-- The number of values of a word. -/
def size : ℕ := 2 ^ 64

def add (a b : ℕ) : ℕ := (a + b) % size

/-- The difference of two words, plus `2 ^ 64` where it would be negative. -/
def sub (a b : ℕ) : ℕ := if b ≤ a then a - b else a + size - b

theorem add_of_lt {a b : ℕ} (h : a + b < size) : add a b = a + b := Nat.mod_eq_of_lt h

theorem sub_of_le {a b : ℕ} (h : b ≤ a) : sub a b = a - b := if_pos h

theorem sub_of_lt {a b : ℕ} (h : a < b) : sub a b = a + size - b := if_neg (by omega)

end Word

/-- A memory: a byte at every address. -/
abbrev Mem : Type := ℕ → UInt8

namespace Mem

variable {m m' : Mem} {a b v : ℕ}

/-- The word in the eight bytes from `a` on. -/
def load (m : Mem) (a : ℕ) : ℕ :=
  (m a).toNat + (m (a + 1)).toNat * 256 + (m (a + 2)).toNat * 256 ^ 2 +
    (m (a + 3)).toNat * 256 ^ 3 + (m (a + 4)).toNat * 256 ^ 4 + (m (a + 5)).toNat * 256 ^ 5 +
    (m (a + 6)).toNat * 256 ^ 6 + (m (a + 7)).toNat * 256 ^ 7

/-- Store the word `v` in the eight bytes from `a` on. -/
def store (m : Mem) (a v : ℕ) : Mem := fun x =>
  if a ≤ x ∧ x < a + 8 then UInt8.ofNat (v / 256 ^ (x - a)) else m x

theorem store_of_not_mem {x : ℕ} (h : ¬ (a ≤ x ∧ x < a + 8)) : m.store a v x = m x := if_neg h

theorem store_add {i : ℕ} (h : i < 8) : (m.store a v (a + i)).toNat = v / 256 ^ i % 256 := by
  rw [store, if_pos ⟨by omega, by omega⟩, Nat.add_sub_cancel_left]
  simp

@[simp] theorem load_store_self (h : v < Word.size) : (m.store a v).load a = v := by
  have h0 := store_add (m := m) (a := a) (v := v) (i := 0) (by omega)
  rw [Nat.add_zero] at h0
  simp only [load, h0, store_add (m := m) (a := a) (v := v) (i := 1) (by omega),
    store_add (m := m) (a := a) (v := v) (i := 2) (by omega),
    store_add (m := m) (a := a) (v := v) (i := 3) (by omega),
    store_add (m := m) (a := a) (v := v) (i := 4) (by omega),
    store_add (m := m) (a := a) (v := v) (i := 5) (by omega),
    store_add (m := m) (a := a) (v := v) (i := 6) (by omega),
    store_add (m := m) (a := a) (v := v) (i := 7) (by omega)]
  simp only [Word.size, Nat.reducePow] at *
  omega

theorem load_congr (h : ∀ i < 8, m (a + i) = m' (a + i)) : m.load a = m'.load a := by
  have h0 := h 0 (by omega)
  rw [Nat.add_zero] at h0
  simp only [load, h0, h 1 (by omega), h 2 (by omega), h 3 (by omega), h 4 (by omega),
    h 5 (by omega), h 6 (by omega), h 7 (by omega)]

theorem load_store_of_disjoint (h : b + 8 ≤ a ∨ a + 8 ≤ b) : (m.store a v).load b = m.load b :=
  load_congr fun i hi => store_of_not_mem (by omega)

end Mem

end ShirleysOS.Lib
