import Mathlib.Algebra.Ring.Nat

/-!
# Strings in buffers

A string is the list of its bytes before the terminating null; `capacity` is the size of the
buffer that it is written to, with the null. Source: `kernel/text/string.cpp`.
-/

namespace ShirleysOS.Text

/-- `equals` of the first `count` bytes; the terminating null is one of them. -/
def equalsFirst : List UInt8 → List UInt8 → ℕ → Bool
  | _, _, 0 => true
  | [], [], _ + 1 => true
  | [], _ :: _, _ + 1 => false
  | _ :: _, [], _ + 1 => false
  | left :: lefts, right :: rights, count + 1 =>
    if left ≠ right then false else equalsFirst lefts rights count

/-- `copy`: `none` when the string does not fit. -/
def copy (capacity : ℕ) (source : List UInt8) : Option (List UInt8) :=
  if source.length + 1 > capacity then none else some source

/-- `append`: `none` when the string does not fit. -/
def append (capacity : ℕ) (destination source : List UInt8) : Option (List UInt8) :=
  if destination.length + source.length + 1 > capacity then none
  else some (destination ++ source)

theorem append_eq_some {capacity : ℕ} {destination source text : List UInt8}
    (h : append capacity destination source = some text) :
    text = destination ++ source ∧ text.length < capacity := by
  rw [append] at h
  split at h
  · cases h
  · next hfits =>
    obtain rfl := Option.some.inj h
    refine ⟨rfl, ?_⟩
    rw [List.length_append]
    omega

theorem append_nothing {capacity : ℕ} {path : List UInt8} (h : path.length < capacity) :
    append capacity path [] = some path := by
  rw [append, if_neg (by rw [List.length_nil]; omega), List.append_nil]

/-- A part that does not fit is the end of it. -/
theorem append_twice (capacity : ℕ) (path first second : List UInt8) :
    append capacity path (first ++ second) =
      (append capacity path first).bind fun path => append capacity path second := by
  unfold append
  by_cases hfits : path.length + first.length + 1 > capacity
  · rw [if_pos hfits, if_pos (by rw [List.length_append]; omega)]
    rfl
  · rw [if_neg hfits, Option.bind_some, List.length_append, List.length_append,
      List.append_assoc, Nat.add_assoc path.length first.length]

/-- The first bytes are the same when they are as many as the second string has. -/
theorem equalsFirst_length {left right : List UInt8} :
    equalsFirst left right right.length = true ↔ right <+: left := by
  induction right generalizing left with
  | nil => exact iff_of_true (by cases left <;> rfl) List.nil_prefix
  | cons b right ih =>
    cases left with
    | nil => exact iff_of_false Bool.false_ne_true fun h => nomatch List.prefix_nil.mp h
    | cons a left =>
      rw [List.length_cons, equalsFirst, List.cons_prefix_cons]
      by_cases hab : a = b
      · rw [if_neg fun h => h hab, ih, and_iff_right hab.symm]
      · rw [if_pos hab]
        exact iff_of_false Bool.false_ne_true fun h => hab h.1.symm

end ShirleysOS.Text
