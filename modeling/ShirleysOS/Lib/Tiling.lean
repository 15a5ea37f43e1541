import Mathlib.Data.List.Basic
import Mathlib.Algebra.BigOperators.Group.List.Basic
import Mathlib.Order.Nat
import Mathlib.Algebra.Ring.Nat

/-!
# Tilings of an interval

Labelled pieces that lie one after another and fill an interval of the naturals. Replacing a
stretch of pieces by others that tile the same stretch gives a tiling again, which is what
`tiles_append` is for.
-/

namespace ShirleysOS.Lib

/-- A piece of a tiling. -/
structure Piece (α : Type) where
  start : ℕ
  size : ℕ
  label : α

def Piece.stop {α : Type} (p : Piece α) : ℕ := p.start + p.size

/-- The pieces fill `[lo, hi)` one after another, and none is empty. -/
def Tiles {α : Type} (lo : ℕ) : List (Piece α) → ℕ → Prop
  | [], hi => lo = hi
  | p :: ps, hi => p.start = lo ∧ 0 < p.size ∧ Tiles p.stop ps hi

variable {α : Type} {lo mid hi : ℕ} {p q : Piece α} {ps qs : List (Piece α)}

@[simp] theorem tiles_nil : Tiles lo ([] : List (Piece α)) hi ↔ lo = hi := Iff.rfl

@[simp] theorem tiles_cons :
    Tiles lo (p :: ps) hi ↔ p.start = lo ∧ 0 < p.size ∧ Tiles p.stop ps hi := Iff.rfl

theorem tiles_append : Tiles lo (ps ++ qs) hi ↔ ∃ mid, Tiles lo ps mid ∧ Tiles mid qs hi := by
  induction ps generalizing lo with
  | nil => simp
  | cons p ps ih =>
    simp only [List.cons_append, tiles_cons, ih]
    constructor
    · rintro ⟨hstart, hsize, mid, hps, hqs⟩
      exact ⟨mid, ⟨hstart, hsize, hps⟩, hqs⟩
    · rintro ⟨mid, ⟨hstart, hsize, hps⟩, hqs⟩
      exact ⟨hstart, hsize, mid, hps, hqs⟩

theorem tiles_append_cons :
    Tiles lo (ps ++ p :: qs) hi ↔ Tiles lo ps p.start ∧ 0 < p.size ∧ Tiles p.stop qs hi := by
  rw [tiles_append]
  constructor
  · rintro ⟨mid, hps, rfl, hsize, hqs⟩
    exact ⟨hps, hsize, hqs⟩
  · rintro ⟨hps, hsize, hqs⟩
    exact ⟨p.start, hps, rfl, hsize, hqs⟩

theorem Tiles.le (h : Tiles lo ps hi) : lo ≤ hi := by
  induction ps generalizing lo with
  | nil => exact h.le
  | cons p ps ih =>
    obtain ⟨rfl, -, hps⟩ := h
    exact (Nat.le_add_right _ _).trans (ih hps)

theorem Tiles.bounds (h : Tiles lo ps hi) (hp : p ∈ ps) : lo ≤ p.start ∧ p.stop ≤ hi := by
  obtain ⟨before, after, rfl⟩ := List.append_of_mem hp
  obtain ⟨hbefore, -, hafter⟩ := tiles_append_cons.mp h
  exact ⟨hbefore.le, hafter.le⟩

theorem Tiles.size_pos (h : Tiles lo ps hi) (hp : p ∈ ps) : 0 < p.size := by
  obtain ⟨before, after, rfl⟩ := List.append_of_mem hp
  exact (tiles_append_cons.mp h).2.1

theorem Tiles.ordered (h : Tiles lo ps hi) : ps.Pairwise fun p q => p.stop ≤ q.start := by
  induction ps generalizing lo with
  | nil => exact List.Pairwise.nil
  | cons p ps ih => exact List.pairwise_cons.mpr ⟨fun q hq => (h.2.2.bounds hq).1, ih h.2.2⟩

theorem Tiles.exists_mem (h : Tiles lo ps hi) {x : ℕ} (hlo : lo ≤ x) (hhi : x < hi) :
    ∃ p ∈ ps, p.start ≤ x ∧ x < p.stop := by
  induction ps generalizing lo with
  | nil =>
    obtain rfl : lo = hi := h
    omega
  | cons p ps ih =>
    obtain ⟨rfl, -, hps⟩ := h
    rcases Nat.lt_or_ge x p.stop with hlt | hge
    · exact ⟨p, List.mem_cons_self, hlo, hlt⟩
    · obtain ⟨q, hq, hx⟩ := ih hps hge
      exact ⟨q, List.mem_cons_of_mem p hq, hx⟩

theorem Tiles.apart (h : Tiles lo ps hi) (hp : p ∈ ps) (hq : q ∈ ps) (hne : p ≠ q) :
    p.stop ≤ q.start ∨ q.stop ≤ p.start := by
  obtain ⟨before, after, rfl⟩ := List.append_of_mem hp
  obtain ⟨hbefore, -, hafter⟩ := tiles_append_cons.mp h
  rcases List.mem_append.mp hq with hq | hq
  · exact .inr (hbefore.bounds hq).2
  · rcases List.mem_cons.mp hq with rfl | hq
    · exact absurd rfl hne
    · exact .inl (hafter.bounds hq).1

/-- When `k` divides where a tiling starts and every size, it divides where it ends. -/
theorem Tiles.dvd_stop {k : ℕ} (h : Tiles lo ps hi) (hlo : k ∣ lo) (hs : ∀ p ∈ ps, k ∣ p.size) :
    k ∣ hi := by
  induction ps generalizing lo with
  | nil => exact h ▸ hlo
  | cons p ps ih =>
    obtain ⟨rfl, -, hps⟩ := h
    exact ih hps (Nat.dvd_add hlo (hs p List.mem_cons_self))
      fun q hq => hs q (List.mem_cons_of_mem p hq)

theorem Tiles.sum_sizes (h : Tiles lo ps hi) : lo + (ps.map Piece.size).sum = hi := by
  induction ps generalizing lo with
  | nil => simpa using h
  | cons p ps ih =>
    obtain ⟨rfl, -, hps⟩ := h
    rw [List.map_cons, List.sum_cons, ← Nat.add_assoc]
    exact ih hps

/-- A tiling has no more pieces than its interval has places. -/
theorem Tiles.length_le (h : Tiles lo ps hi) : ps.length ≤ hi - lo := by
  induction ps generalizing lo with
  | nil => simp
  | cons p ps ih =>
    obtain ⟨rfl, hsize, hps⟩ := h
    have hlen := ih hps
    have hle := hps.le
    simp only [List.length_cons, Piece.stop] at *
    omega

end ShirleysOS.Lib
