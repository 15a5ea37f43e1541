import Mathlib.Algebra.Ring.Nat
import Mathlib.Logic.Function.Basic

/-!
# Division by a polynomial in a shift register

A register of `w` bits divides a stream of bits by a polynomial over the field of two elements,
one bit at a time and with the lowest bit first: a bit is added to the register, the register
moves down by one place, and the polynomial is taken off when a one falls out. A step is linear,
and it is injective when the polynomial has the highest bit of the register.
-/

namespace ShirleysOS.Lib

variable {w : ℕ}

/-- One step of the register. -/
def divideStep (polynomial x : BitVec w) : BitVec w :=
  if x.getLsbD 0 then polynomial ^^^ (x >>> 1) else x >>> 1

/-- Some steps of the register. -/
def divideSteps (polynomial : BitVec w) : ℕ → BitVec w → BitVec w
  | 0, x => x
  | n + 1, x => divideSteps polynomial n (divideStep polynomial x)

/-- A bit as a word. -/
def bitWord (w : ℕ) (bit : Bool) : BitVec w := if bit then 1#w else 0#w

/-- The register after a stream of bits. -/
def divideBits (polynomial : BitVec w) : BitVec w → List Bool → BitVec w
  | x, [] => x
  | x, bit :: bits => divideBits polynomial (divideStep polynomial (x ^^^ bitWord w bit)) bits

/-- Bits as a word, the first one lowest. -/
def packed (w : ℕ) : List Bool → BitVec w
  | [] => 0#w
  | bit :: bits => bitWord w bit ^^^ (packed w bits <<< 1)

variable {p x y : BitVec w} {n : ℕ}

theorem divideStep_xor : divideStep p (x ^^^ y) = divideStep p x ^^^ divideStep p y := by
  have hcancel : ∀ a b : BitVec w, p ^^^ a ^^^ (p ^^^ b) = a ^^^ b := by
    intro a b
    rw [BitVec.xor_comm p a, BitVec.xor_assoc, ← BitVec.xor_assoc p, BitVec.xor_self,
      BitVec.zero_xor]
  unfold divideStep
  rw [BitVec.getLsbD_xor, BitVec.ushiftRight_xor_distrib]
  cases x.getLsbD 0 <;> cases y.getLsbD 0
  · rfl
  · rw [← BitVec.xor_assoc, BitVec.xor_comm p, BitVec.xor_assoc]
    rfl
  · exact (BitVec.xor_assoc _ _ _).symm
  · exact (hcancel _ _).symm

/-- **Steps are linear.** -/
theorem divideSteps_xor (n : ℕ) :
    divideSteps p n (x ^^^ y) = divideSteps p n x ^^^ divideSteps p n y := by
  induction n generalizing x y with
  | zero => rfl
  | succ n ih => rw [divideSteps, divideStep_xor, ih, divideSteps, divideSteps]

/-- A step that no one falls out of only moves the register. -/
theorem divideStep_even (h : x.getLsbD 0 = false) : divideStep p x = x >>> 1 := by
  rw [divideStep, h, if_neg Bool.false_ne_true]

/-- Bits that do not fall out only move. -/
theorem divideSteps_high (h : ∀ i < n, x.getLsbD i = false) : divideSteps p n x = x >>> n := by
  induction n generalizing x with
  | zero => rw [divideSteps, BitVec.ushiftRight_zero]
  | succ n ih =>
    rw [divideSteps, divideStep_even (h 0 (Nat.succ_pos n)), ih, ← BitVec.shiftRight_add,
      Nat.add_comm]
    intro i hi
    rw [BitVec.getLsbD_ushiftRight]
    exact h _ (by omega)

/-- The lowest bits take the steps, and the others move. -/
theorem divideSteps_split {low : BitVec w}
    (h : ∀ i, low.getLsbD i = (decide (i < n) && x.getLsbD i)) :
    divideSteps p n x = divideSteps p n low ^^^ (x >>> n) := by
  have hhigh : divideSteps p n (low ^^^ x) = x >>> n := by
    rw [divideSteps_high]
    · apply BitVec.eq_of_getLsbD_eq
      intro i _
      rw [BitVec.getLsbD_ushiftRight, BitVec.getLsbD_xor, h, BitVec.getLsbD_ushiftRight]
      rw [decide_eq_false (by omega), Bool.false_and, Bool.false_xor]
    · intro i hi
      rw [BitVec.getLsbD_xor, h]
      simp [hi]
  rw [← hhigh, ← divideSteps_xor, ← BitVec.xor_assoc, BitVec.xor_self, BitVec.zero_xor]

section Injective

variable (hp : p.getLsbD (w - 1) = true)
include hp

/-- With the highest bit in the polynomial only zero goes to zero. -/
theorem eq_zero_of_divideStep (h : divideStep p x = 0#w) : x = 0#w := by
  have hw : 0 < w := by
    by_contra hw
    rw [BitVec.getLsbD_of_ge _ _ (by omega)] at hp
    cases hp
  unfold divideStep at h
  split at h
  · -- the highest bit of the polynomial meets a zero that has moved in
    have htop := congrArg (fun z : BitVec w => z.getLsbD (w - 1)) h
    simp only [BitVec.getLsbD_xor, BitVec.getLsbD_ushiftRight, hp, BitVec.getLsbD_zero] at htop
    rw [BitVec.getLsbD_of_ge x _ (by omega)] at htop
    cases htop
  · next hzero =>
    apply BitVec.eq_of_getLsbD_eq
    intro i hi
    rw [BitVec.getLsbD_zero]
    cases i with
    | zero => simpa using hzero
    | succ i =>
      have hbit := congrArg (fun z : BitVec w => z.getLsbD i) h
      simpa [BitVec.getLsbD_ushiftRight, Nat.add_comm] using hbit

theorem divideStep_injective : Function.Injective (divideStep p) := by
  intro x y hxy
  have hzero : divideStep p (x ^^^ y) = 0#w := by rw [divideStep_xor, hxy, BitVec.xor_self]
  exact BitVec.xor_eq_zero_iff.mp (eq_zero_of_divideStep hp hzero)

theorem divideSteps_injective (n : ℕ) : Function.Injective (divideSteps p n) := by
  induction n with
  | zero => exact fun _ _ h => h
  | succ n ih => exact fun _ _ h => divideStep_injective hp (ih h)

/-- Registers that differ go on differing. -/
theorem divideBits_left_injective (bits : List Bool) :
    Function.Injective fun x => divideBits p x bits := by
  induction bits with
  | nil => exact fun _ _ h => h
  | cons bit bits ih =>
    exact fun _ _ h => (BitVec.xor_left_inj _).mp (divideStep_injective hp (ih h))

end Injective

/-! ## Several bits at once -/

theorem getLsbD_bitWord {bit : Bool} {i : ℕ} :
    (bitWord w bit).getLsbD i = (decide (i < w) && (bit && decide (i = 0))) := by
  cases bit with
  | false => simp [bitWord]
  | true =>
    cases i with
    | zero => simp [bitWord, BitVec.getLsbD_one]
    | succ i => simp [bitWord, BitVec.getLsbD_one]

theorem getLsbD_packed (bits : List Bool) (i : ℕ) :
    (packed w bits).getLsbD i = (decide (i < w) && bits.getD i false) := by
  induction bits generalizing i with
  | nil => simp [packed]
  | cons bit bits ih =>
    rw [packed, BitVec.getLsbD_xor, getLsbD_bitWord, BitVec.getLsbD_shiftLeft, ih]
    cases i with
    | zero => simp
    | succ i =>
      by_cases hi : i + 1 < w
      · simp [hi, Nat.lt_of_succ_lt hi]
      · simp [hi]

theorem packed_injective {bits bits' : List Bool} (hlength : bits.length = bits'.length)
    (hw : bits.length ≤ w) (h : packed w bits = packed w bits') : bits = bits' := by
  refine List.ext_getElem hlength fun i hi hi' => ?_
  have hbit : (packed w bits).getLsbD i = (packed w bits').getLsbD i := by rw [h]
  rw [getLsbD_packed, getLsbD_packed] at hbit
  simpa [hi, hi', Nat.lt_of_lt_of_le hi hw] using hbit

/-- **Bits that fit the register may be added at once.** -/
theorem divideBits_eq {bits : List Bool} (hw : bits.length ≤ w) :
    divideBits p x bits = divideSteps p bits.length (x ^^^ packed w bits) := by
  induction bits generalizing x with
  | nil => rw [divideBits, packed, BitVec.xor_zero, List.length_nil, divideSteps]
  | cons bit bits ih =>
    rw [List.length_cons] at hw
    -- the bits behind the first have not reached the lowest place yet
    have hrest : divideStep p (packed w bits <<< 1) = packed w bits := by
      rw [divideStep_even (by simp)]
      apply BitVec.eq_of_getLsbD_eq
      intro i hi
      rw [BitVec.getLsbD_ushiftRight, BitVec.getLsbD_shiftLeft, getLsbD_packed, getLsbD_packed]
      by_cases htop : 1 + i < w
      · simp [htop, hi]
      · simp [htop, hi, List.getElem?_eq_none (show bits.length ≤ i by omega)]
    rw [divideBits, ih (by omega), packed, List.length_cons, divideSteps, ← BitVec.xor_assoc,
      divideStep_xor (y := packed w bits <<< 1), hrest]

/-- Different bits that fit the register leave it in different states. -/
theorem divideBits_injective (hp : p.getLsbD (w - 1) = true) {bits bits' : List Bool}
    (hlength : bits.length = bits'.length) (hw : bits.length ≤ w)
    (h : divideBits p x bits = divideBits p x bits') : bits = bits' := by
  rw [divideBits_eq hw, divideBits_eq (hlength ▸ hw), hlength] at h
  exact packed_injective hlength hw ((BitVec.xor_right_inj _).mp (divideSteps_injective hp _ h))

theorem divideBits_append (bits bits' : List Bool) :
    divideBits p x (bits ++ bits') = divideBits p (divideBits p x bits) bits' := by
  induction bits generalizing x with
  | nil => rfl
  | cons bit bits ih => exact ih

end ShirleysOS.Lib
