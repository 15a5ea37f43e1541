import ShirleysOS.Lib.Bytes
import ShirleysOS.Lib.ShiftRegister
import Mathlib.Data.List.GetD

/-!
# CRC-32

The cyclic redundancy checks of the kernel, one byte at a time through a table of 256 values. A
check may go on from an earlier one. Source: `kernel/checksum/crc32.cpp`.
-/

namespace ShirleysOS.Checksum

open Lib

/-- `bits` steps of `make_table`. -/
def shiftBits (polynomial : UInt32) : ℕ → UInt32 → UInt32
  | 0, value => value
  | bits + 1, value =>
    shiftBits polynomial bits
      (if value &&& 1 ≠ 0 then polynomial ^^^ (value >>> 1) else value >>> 1)

/-- The entry of `make_table` at `index`. -/
def tableEntry (polynomial index : UInt32) : UInt32 := shiftBits polynomial 8 index

/-- One byte of `update`. -/
def updateByte (polynomial value : UInt32) (byte : UInt8) : UInt32 :=
  tableEntry polynomial ((value ^^^ byte.toUInt32) &&& 0xFF) ^^^ (value >>> 8)

/-- The loop of `update`. -/
def updateLoop (polynomial : UInt32) (data : Bytes) : ℕ → UInt32 → UInt32
  | 0, value => value
  | length + 1, value =>
    updateLoop polynomial (data.slice 1) length (updateByte polynomial value (data 0))

/-- `update`. -/
def update (polynomial : UInt32) (data : Bytes) (length : ℕ) (previous : UInt32) : UInt32 :=
  ~~~ updateLoop polynomial data length (~~~ previous)

def ieee : UInt32 := 0xEDB88320

def castagnoli : UInt32 := 0x82F63B78

/-- `crc32`. -/
def crc32 (data : Bytes) (length : ℕ) (previous : UInt32) : UInt32 :=
  update ieee data length previous

/-- `crc32c`. -/
def crc32c (data : Bytes) (length : ℕ) (previous : UInt32) : UInt32 :=
  update castagnoli data length previous

variable {polynomial value previous : UInt32} {data data' : Bytes} {m n length : ℕ}

theorem updateLoop_add :
    updateLoop polynomial data (m + n) value =
      updateLoop polynomial (data.slice m) n (updateLoop polynomial data m value) := by
  induction m generalizing data value with
  | zero => rw [Nat.zero_add, updateLoop, Bytes.slice_zero]
  | succ m ih => rw [Nat.succ_add, updateLoop, ih, updateLoop, Bytes.slice_slice, Nat.add_comm 1]

/-- **A check may be made in parts.** -/
theorem update_add :
    update polynomial data (m + n) previous =
      update polynomial (data.slice m) n (update polynomial data m previous) := by
  simp only [update, updateLoop_add, UInt32.not_not]

theorem updateLoop_congr (h : ∀ j < length, data j = data' j) :
    updateLoop polynomial data length value = updateLoop polynomial data' length value := by
  induction length generalizing data data' value with
  | zero => rfl
  | succ length ih =>
    rw [updateLoop, updateLoop, h 0 (Nat.succ_pos _)]
    exact ih fun j hj => h (1 + j) (by omega)

theorem update_congr (h : ∀ j < length, data j = data' j) :
    update polynomial data length previous = update polynomial data' length previous := by
  rw [update, update, updateLoop_congr h]

/-! ## The table and the division -/

theorem toBitVec_shiftBits (n : ℕ) (value : UInt32) :
    (shiftBits polynomial n value).toBitVec =
      divideSteps polynomial.toBitVec n value.toBitVec := by
  induction n generalizing value with
  | zero => rfl
  | succ n ih =>
    have hlow : value &&& 1 ≠ 0 ↔ value.toBitVec.getLsbD 0 = true := by
      rw [ne_eq, ← UInt32.toBitVec_inj, UInt32.toBitVec_and]
      change ¬value.toBitVec &&& 1#32 = 0#32 ↔ _
      rw [BitVec.and_one_eq_setWidth_ofBool_getLsbD]
      cases value.toBitVec.getLsbD 0 <;> decide
    rw [shiftBits, ih, divideSteps, divideStep]
    congr 1
    split
    · next h =>
      rw [if_pos (hlow.mp h)]
      rfl
    · next h =>
      rw [if_neg fun hbit => h (hlow.mpr hbit)]
      rfl

/-- **A look-up in the table is eight steps of the division.** -/
theorem updateByte_eq (value : UInt32) (byte : UInt8) :
    updateByte polynomial value byte = shiftBits polynomial 8 (value ^^^ byte.toUInt32) := by
  apply UInt32.toBitVec_inj.mp
  have hbyte : ∀ i, 8 ≤ i → byte.toUInt32.toBitVec.getLsbD i = false := by
    intro i hi
    change (byte.toBitVec.setWidth 32).getLsbD i = false
    rw [BitVec.getLsbD_setWidth, BitVec.getLsbD_of_ge _ _ hi, Bool.and_false]
  have hlow : ∀ i, ((value ^^^ byte.toUInt32) &&& 0xFF).toBitVec.getLsbD i =
      (decide (i < 8) && (value ^^^ byte.toUInt32).toBitVec.getLsbD i) := by
    intro i
    have hmask : (0xFF : UInt32).toBitVec.getLsbD i = decide (i < 8) := by
      change (BitVec.ofNat 32 (2 ^ 8 - 1)).getLsbD i = _
      rw [BitVec.getLsbD_ofNat, Nat.testBit_two_pow_sub_one]
      by_cases hi : i < 8
      · simp [hi, Nat.lt_trans hi (by decide : 8 < 32)]
      · simp [hi]
    rw [UInt32.toBitVec_and, BitVec.getLsbD_and, hmask, Bool.and_comm]
  have hhigh : (value ^^^ byte.toUInt32).toBitVec >>> 8 = (value >>> 8).toBitVec := by
    change _ = value.toBitVec >>> 8
    apply BitVec.eq_of_getLsbD_eq
    intro i _
    rw [BitVec.getLsbD_ushiftRight, UInt32.toBitVec_xor, BitVec.getLsbD_xor,
      hbyte _ (Nat.le_add_right 8 i), BitVec.getLsbD_ushiftRight, Bool.xor_false]
  rw [toBitVec_shiftBits, divideSteps_split hlow, updateByte, tableEntry, UInt32.toBitVec_xor,
    toBitVec_shiftBits, hhigh]

/-! ## Strings of bytes -/

/-- A string of bytes as a content. -/
def contentOf (bytes : List UInt8) : Bytes := fun i => bytes.getD i 0

/-- The bits of a byte, the lowest first. -/
def byteBits (byte : UInt8) : List Bool := (List.range 8).map byte.toBitVec.getLsbD

/-- The bits of a string of bytes, in the order in which they are divided. -/
def messageBits (bytes : List UInt8) : List Bool := bytes.flatMap byteBits

/-- **What a check is for**: it is the remainder of a division by the polynomial with the register
inverted before and after, it may be made in parts, and it tells strings of one length apart that
differ only in four bytes in a row. -/
structure Correct (crc : Bytes → ℕ → UInt32 → UInt32) (polynomial : BitVec 32) : Prop where
  serial : ∀ a previous, (crc (contentOf a) a.length previous).toBitVec =
    ~~~ divideBits polynomial (~~~ previous.toBitVec) (messageBits a)
  parts : ∀ a b previous, crc (contentOf (a ++ b)) (a ++ b).length previous =
    crc (contentOf b) b.length (crc (contentOf a) a.length previous)
  window : ∀ a a' start previous, a.length = a'.length → a ≠ a' →
    (∀ i, i < start ∨ start + 4 ≤ i → a[i]? = a'[i]?) →
    crc (contentOf a) a.length previous ≠ crc (contentOf a') a'.length previous

theorem messageBits_append (a b : List UInt8) :
    messageBits (a ++ b) = messageBits a ++ messageBits b := List.flatMap_append

theorem packed_byteBits (byte : UInt8) : packed 32 (byteBits byte) = byte.toUInt32.toBitVec := by
  apply BitVec.eq_of_getLsbD_eq
  intro i hi
  change _ = (byte.toBitVec.setWidth 32).getLsbD i
  rw [getLsbD_packed, BitVec.getLsbD_setWidth]
  by_cases hi' : i < 8
  · simp [byteBits, hi']
  · simp [byteBits, hi', BitVec.getLsbD_of_ge byte.toBitVec i (Nat.not_lt.mp hi')]

/-- The loop of `update` divides the bits of the string. -/
theorem toBitVec_updateLoop (bytes : List UInt8) (value : UInt32) :
    (updateLoop polynomial (contentOf bytes) bytes.length value).toBitVec =
      divideBits polynomial.toBitVec value.toBitVec (messageBits bytes) := by
  induction bytes generalizing value with
  | nil => rfl
  | cons byte bytes ih =>
    have hrest : (contentOf (byte :: bytes)).slice 1 = contentOf bytes := by
      funext i
      rw [Bytes.slice_apply, Nat.add_comm, contentOf, contentOf, List.getD_cons_succ]
    have hbyte : (updateByte polynomial value byte).toBitVec =
        divideBits polynomial.toBitVec value.toBitVec (byteBits byte) := by
      rw [updateByte_eq, toBitVec_shiftBits, divideBits_eq (by simp [byteBits]), packed_byteBits,
        UInt32.toBitVec_xor]
      simp [byteBits]
    rw [List.length_cons, updateLoop, hrest, ih]
    change _ = divideBits _ _ (byteBits byte ++ messageBits bytes)
    rw [divideBits_append, ← hbyte]
    rfl

/-- Two strings that differ in a window only, in three parts. -/
theorem window_split {a a' : List UInt8} {start : ℕ}
    (hsame : ∀ i, i < start ∨ start + 4 ≤ i → a[i]? = a'[i]?) :
    a.take start = a'.take start ∧ a.drop (start + 4) = a'.drop (start + 4) := by
  constructor
  · apply List.ext_getElem?
    intro i
    by_cases hi : i < start
    · rw [List.getElem?_take_of_lt hi, List.getElem?_take_of_lt hi, hsame i (.inl hi)]
    · rw [List.getElem?_take_eq_none (Nat.not_lt.mp hi),
        List.getElem?_take_eq_none (Nat.not_lt.mp hi)]
  · apply List.ext_getElem?
    intro i
    rw [List.getElem?_drop, List.getElem?_drop, hsame _ (.inr (Nat.le_add_right _ _))]

theorem byteBits_injective : Function.Injective byteBits := by
  intro b b' h
  apply UInt8.toBitVec_inj.mp
  apply BitVec.eq_of_getLsbD_eq
  intro i hi
  have hbit := congrArg (fun bits : List Bool => bits.getD i false) h
  simpa [byteBits, hi] using hbit

theorem messageBits_injective {a a' : List UInt8} (hlength : a.length = a'.length)
    (h : messageBits a = messageBits a') : a = a' := by
  induction a generalizing a' with
  | nil => exact (List.length_eq_zero_iff.mp hlength.symm).symm
  | cons b a ih =>
    obtain ⟨b', a', rfl⟩ := List.exists_cons_of_length_eq_add_one hlength.symm
    rw [messageBits, messageBits, List.flatMap_cons, List.flatMap_cons] at h
    obtain ⟨hbyte, hrest⟩ := List.append_inj h (by simp [byteBits])
    rw [byteBits_injective hbyte, ih (Nat.succ.inj hlength) hrest]

theorem length_messageBits (a : List UInt8) : (messageBits a).length = 8 * a.length := by
  induction a with
  | nil => rfl
  | cons b a ih =>
    rw [messageBits, List.flatMap_cons, List.length_append, ← messageBits, ih]
    simp [byteBits]
    omega

/-- A check with a polynomial that has the highest bit. -/
theorem update_correct (hp : polynomial.toBitVec.getLsbD 31 = true) :
    Correct (update polynomial) polynomial.toBitVec where
  serial a previous := by
    rw [update, UInt32.toBitVec_not, toBitVec_updateLoop, UInt32.toBitVec_not]
  parts a b previous := by
    rw [List.length_append, update_add]
    have hfirst : update polynomial (contentOf (a ++ b)) a.length previous =
        update polynomial (contentOf a) a.length previous := by
      refine update_congr fun j hj => ?_
      rw [contentOf, contentOf, List.getD_append _ _ _ _ hj]
    have hsecond : (contentOf (a ++ b)).slice a.length = contentOf b := by
      funext i
      rw [Bytes.slice_apply, contentOf, contentOf, List.getD_append_right _ _ _ _
        (Nat.le_add_right _ _), Nat.add_sub_cancel_left]
    rw [hfirst, hsecond]
  window a a' start previous hlength hne hsame hcrc := by
    obtain ⟨htake, hdrop⟩ := window_split hsame
    have hparts : ∀ l : List UInt8, l.take start ++ ((l.drop start).take 4 ++ l.drop (start + 4)) =
        l := by
      intro l
      rw [← List.drop_drop, List.take_append_drop, List.take_append_drop]
    have hbits : ∀ l : List UInt8, messageBits l = messageBits (l.take start) ++
        (messageBits ((l.drop start).take 4) ++ messageBits (l.drop (start + 4))) := by
      intro l
      rw [← messageBits_append, ← messageBits_append, hparts]
    have hwindow : ((a.drop start).take 4).length = ((a'.drop start).take 4).length := by
      rw [List.length_take, List.length_drop, hlength, List.length_take, List.length_drop]
    -- the registers are equal at the end, so they are after the window
    have hloop := congrArg UInt32.toBitVec (UInt32.not_inj.mp hcrc)
    rw [toBitVec_updateLoop, toBitVec_updateLoop, hbits a, hbits a', htake, hdrop,
      divideBits_append, divideBits_append, divideBits_append, divideBits_append] at hloop
    have hafter := divideBits_left_injective hp _ hloop
    have hsmall : (messageBits ((a.drop start).take 4)).length ≤ 32 := by
      rw [length_messageBits, List.length_take]
      omega
    have hword := divideBits_injective hp
      (by rw [length_messageBits, hwindow, length_messageBits]) hsmall hafter
    refine hne ?_
    rw [← hparts a, ← hparts a', htake, hdrop, messageBits_injective hwindow hword]

/-- **Both checks are correct.** -/
theorem crc_correct : Correct crc32 0xEDB88320#32 ∧ Correct crc32c 0x82F63B78#32 :=
  ⟨update_correct (by decide), update_correct (by decide)⟩

/-- The check value of both polynomials: that of the nine bytes `123456789`. -/
example : crc32 (fun i => UInt8.ofNat (49 + i)) 9 0 = 0xCBF43926 ∧
    crc32c (fun i => UInt8.ofNat (49 + i)) 9 0 = 0xE3069283 := by decide +kernel

end ShirleysOS.Checksum
