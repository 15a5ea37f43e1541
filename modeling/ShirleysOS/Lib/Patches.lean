import Mathlib.Data.List.Basic
import ShirleysOS.Lib.Bytes

/-!
# Several stores at disjoint places

A patch replaces the bytes of one interval. When the intervals of several patches are disjoint,
each of them is read back as it was written, in whatever order they are made.
-/

namespace ShirleysOS.Lib

/-- The `length` bytes from `start` on become those of `data`. -/
structure Patch where
  start : ℕ
  length : ℕ
  data : Bytes

namespace Patch

/-- Two patches at disjoint places. -/
def Apart (p q : Patch) : Prop := p.start + p.length ≤ q.start ∨ q.start + q.length ≤ p.start

/-- The address `x` is none of those of the patch. -/
def Avoids (p : Patch) (x : ℕ) : Prop := x < p.start ∨ p.start + p.length ≤ x

/-- The place of a patch: where it starts, and its length. -/
def place (p : Patch) : ℕ × ℕ := (p.start, p.length)

end Patch

namespace Bytes

/-- Several stores, one after another. -/
def patch (m : Bytes) : List Patch → Bytes
  | [] => m
  | p :: ps => patch (m.splice p.start p.length p.data) ps

variable {m : Bytes} {p : Patch} {ps : List Patch} {x j o w : ℕ}

theorem patch_append (qs : List Patch) : m.patch (ps ++ qs) = (m.patch ps).patch qs := by
  induction ps generalizing m with
  | nil => rfl
  | cons p ps ih => exact ih

theorem patch_outside (h : ∀ p ∈ ps, p.Avoids x) : m.patch ps x = m x := by
  induction ps generalizing m with
  | nil => rfl
  | cons p ps ih =>
    rw [patch, ih fun q hq => h q (List.mem_cons_of_mem _ hq)]
    exact splice_outside (h p List.mem_cons_self)

/-- **What was stored is read back** when the stores are at disjoint places. -/
theorem patch_apply (hps : ps.Pairwise Patch.Apart) (hp : p ∈ ps) (hj : j < p.length) :
    m.patch ps (p.start + j) = p.data j := by
  induction ps generalizing m with
  | nil => cases hp
  | cons q ps ih =>
    obtain ⟨hq, hps⟩ := List.pairwise_cons.mp hps
    rcases List.mem_cons.mp hp with rfl | hp
    · rw [patch, patch_outside, splice_add hj]
      intro r hr
      rcases hq r hr with h | h
      · exact .inl (by omega)
      · exact .inr (by omega)
    · exact ih hps hp

theorem nat_patch (hps : ps.Pairwise Patch.Apart) (hp : p ∈ ps) (hw : o + w ≤ p.length) :
    (m.patch ps).nat (p.start + o) w = p.data.nat o w :=
  nat_congr fun j hj => by
    rw [Nat.add_assoc]
    exact patch_apply hps hp (by omega)

theorem nat_patch_fields (hps : ps.Pairwise Patch.Apart) :
    ∀ p ∈ ps, (m.patch ps).nat p.start p.length = p.data.nat 0 p.length := fun _ hp =>
  nat_patch (o := 0) hps hp (Nat.le_of_eq (Nat.zero_add _))

theorem nat_patch_outside (h : ∀ p ∈ ps, o + w ≤ p.start ∨ p.start + p.length ≤ o) :
    (m.patch ps).nat o w = m.nat o w :=
  nat_congr fun j hj => patch_outside fun p hp => by
    have := h p hp
    exact this.imp (by omega) (by omega)

end Bytes

end ShirleysOS.Lib
